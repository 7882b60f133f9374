import BabyOS.NetPool

namespace BabyOS

def macBytes (m : Mac) : List Byte := List.ofFn m

def readMac (f : Nat → Byte) (a : Nat) : Mac := fun i => f (a + i)

def protoIp : Half := 0x0800

def protoArp : Half := 0x0806

def ethernetHdr (dst src : Mac) (proto : Half) : List Byte := macBytes dst ++ macBytes src ++ le16 proto

def arpHdr (op : Half) (srcMac : Mac) (srcIp : Word) (tgtMac : Mac) (tgtIp : Word) : List Byte :=
  le16 (ntohs 1) ++ le16 (ntohs protoIp) ++ [6, 4] ++ le16 op ++ macBytes srcMac ++ le32 srcIp ++ macBytes tgtMac ++
    le32 tgtIp

/-- `ip_hdr_t` of version 4, five words, no fragment and a time to live of 32. -/
def ipHdr (totalLen id : Half) (protocol : Byte) (srcIp dstIp : Word) (sum : Half) : List Byte :=
  [0x45, 0] ++ le16 totalLen ++ le16 id ++ le16 (htons 0) ++ [32, protocol] ++ le16 sum ++ le32 srcIp ++ le32 dstIp

def icmpEchoHdr (type : Byte) (id seq sum : Half) : List Byte := [type, 0] ++ le16 sum ++ le16 id ++ le16 seq

def pseudoHdr (srcIp dstIp : Word) (protocol : Byte) (len : Half) : List Byte :=
  le32 srcIp ++ le32 dstIp ++ [0, protocol] ++ le16 len

def udpHdr (srcPort dstPort len sum : Half) : List Byte := le16 srcPort ++ le16 dstPort ++ le16 len ++ le16 sum

def TcpFlags.toByte (f : TcpFlags) : Byte :=
  BitVec.ofBool f.cwr ++ BitVec.ofBool f.ece ++ BitVec.ofBool f.urg ++ BitVec.ofBool f.ack ++ BitVec.ofBool f.psh ++
    BitVec.ofBool f.pst ++ BitVec.ofBool f.syn ++ BitVec.ofBool f.fin

def TcpFlags.ofByte (b : Byte) : TcpFlags :=
  ⟨b.getLsbD 0, b.getLsbD 1, b.getLsbD 2, b.getLsbD 3, b.getLsbD 4, b.getLsbD 5, b.getLsbD 6, b.getLsbD 7⟩

/-- The header of a segment, with the header length of five words and a window of 1. -/
def TcpHdr.toBytes (h : TcpHdr) : List Byte :=
  le16 h.srcPort ++ le16 h.dstPort ++ le32 h.seqNo ++ le32 h.ackNo ++ [0x50, h.flags.toByte] ++ le16 (htons 1) ++
    le16 0 ++ le16 0

def TcpHdr.read (f : Nat → Byte) : TcpHdr :=
  ⟨getHalf f 0, getHalf f 2, getWord f 4, getWord f 8, .ofByte (f 13)⟩

/-- The loop over a socket table that offers a buffer to the sockets that want it, until one refuses it. -/
def offerLoop {σ : Type} (wants : σ → Bool) (netReceive : σ → Int × σ) :
    List (Fin 128) → (Fin 128 → σ) → Int × (Fin 128 → σ)
  | [], t => (-1, t)
  | i :: is, t =>
    if wants (t i) then
      if (netReceive (t i)).1 ≠ 0 then (0, Function.update t i (netReceive (t i)).2)
      else offerLoop wants netReceive is (Function.update t i (netReceive (t i)).2)
    else offerLoop wants netReceive is t

def RawSocket.netReceive (k : RawSocket) (b : Nat) : Int × RawSocket :=
  if 32 ≤ k.buffers.length then (-12, k) else (0, { k with buffers := k.buffers ++ [b], sem := k.sem.up })

def DgramSocket.netReceive (k : DgramSocket) (ip : Word) (port : Half) (b : Nat) : Int × DgramSocket :=
  if 32 ≤ k.buffers.length then (-12, k)
  else (0, { k with buffers := k.buffers ++ [⟨⟨ip, port⟩, b⟩], sem := k.sem.up })

def rawNetReceive (b : Nat) (protocol : Word) : NetProg Int := do
  let s ← get
  let x := offerLoop (fun k => k.ref ≠ 0 ∧ k.protocol = protocol) (·.netReceive b) (List.finRange 128) s.socks.raws
  set (s.setSocks { s.socks with raws := x.2 })
  pure x.1

def dgramNetReceive (b : Nat) (srcIp : Word) (srcPort dstPort : Half) : NetProg Int := do
  let s ← get
  let x := offerLoop (fun k => k.ref ≠ 0 ∧ k.addr.port = dstPort) (·.netReceive srcIp srcPort b) (List.finRange 128)
    s.socks.dgrams
  set (s.setSocks { s.socks with dgrams := x.2 })
  pure x.1

def cardTransmit (b : Nat) : NetProg Unit := modify fun s => { s with frames := s.frames ++ [s.content b] }

def takeId : NetProg Half := fun s => .ok (s.nextId, { s with nextId := s.nextId + 1 })

section

variable (cfg : NetCfg)

def ethernetTransmit (mac : Mac) (protocol : Half) (data : List Byte) : NetProg Unit := do
  let length := if data.length < 46 then 46 else data.length
  if mac = cfg.ethAddr then pure ()
  else
    match ← allocNetBuffer (length + 14) with
    | none => pure ()
    | some b => do
      append b (ethernetHdr mac cfg.ethAddr (ntohs protocol))
      append b data
      if data.length < length then appendZero b (length - data.length)
      cardTransmit b
      freeNetBuffer b

def arpRequest (ip : Word) : NetProg Unit := do
  match ← allocNetBuffer 28 with
  | none => pure ()
  | some b => do
    append b (arpHdr (ntohs 1) cfg.ethAddr (ntohl cfg.ipaddr) (fun _ => 0) (ntohl ip))
    let s ← get
    ethernetTransmit cfg (fun _ => 0xff) protoArp (s.content b)
    freeNetBuffer b

def arpCall : ArpCall → NetProg Unit
  | .transmit mac b => do
    let s ← get
    ethernetTransmit cfg mac protoIp (s.content b)
  | .free b => freeNetBuffer b
  | .request ip => arpRequest cfg ip

def arpCalls : List ArpCall → NetProg Unit
  | [] => pure ()
  | c :: cs => do
    arpCall cfg c
    arpCalls cs

def runArp (f : Arp → Arp × List ArpCall) : NetProg Unit := do
  let s ← get
  set (s.setArp (f s.arp).1)
  arpCalls cfg (f s.arp).2

def arpReceive (etherAddr : Mac) (b : Nat) : NetProg Unit := do
  let s ← get
  let hdr := s.view b
  let ipSrc := htonl (getWord hdr 14)
  if (s.bufs b).dataLen < 28 then pure ()
  else if htons (getHalf hdr 6) = 1 then
    if htonl (getWord hdr 24) = cfg.ipaddr then do
      store b 0 (arpHdr (ntohs 2) cfg.ethAddr (ntohl cfg.ipaddr) etherAddr (ntohl ipSrc))
      let s ← get
      ethernetTransmit cfg etherAddr protoArp (s.content b)
    else pure ()
  else if htons (getHalf hdr 6) = 2 then
    runArp cfg fun a => (a.addToCache ipSrc (readMac hdr 8)).processWaitQueue ipSrc (readMac hdr 8)
  else pure ()

def isBroadcast (ip : Word) : Bool :=
  ip = 0xffffffff ∨ ip = 0 ∨ ip &&& ~~~cfg.subnetMask = 0xffffffff &&& ~~~cfg.subnetMask

def checkIp (ip : Word) : Bool := isBroadcast cfg ip = false ∧ ip ≠ cfg.ipaddr

def nextHop (ip : Word) : Word :=
  if ip &&& cfg.subnetMask = cfg.ipaddr &&& cfg.subnetMask then ip else cfg.gateway

def ipTransmit (ip : Word) (data : List Byte) (protocol : Byte) : NetProg Unit := do
  if checkIp cfg ip = false then pure ()
  else
    match ← allocNetBuffer ((data.length + 20) % 0x100000000) with
    | none => pure ()
    | some b => do
      let id ← takeId
      let hdr := ipHdr (htons (.ofNat 16 (data.length + 20))) (htons id) protocol (htonl cfg.ipaddr) (htonl ip)
      append b (hdr (checkSum (hdr 0)))
      append b data
      let s ← get
      match s.arp.lookupCache (nextHop cfg ip) with
      | some mac => do
        ethernetTransmit cfg mac protoIp (s.content b)
        freeNetBuffer b
      | none => runArp cfg fun a => a.addToWaitQueue (nextHop cfg ip) b

/-- `echo_request` and `echo_reply`, which differ in the type; `null` is a null `data`. -/
def echo (type : Byte) (ip : Word) (id seq : Half) (null : Bool) (data : List Byte) : NetProg Bool := do
  let total := (data.length + 8) % 0x100000000
  match ← allocNetBuffer total with
  | none => pure false
  | some b => do
    let hdr := icmpEchoHdr type (htons id) (htons seq)
    append b (hdr (checkSum (hdr 0)))
    if null = false ∧ data ≠ [] then append b data
    let s ← get
    ipTransmit cfg ip (Net.bytes (s.view b) total) 1
    freeNetBuffer b
    pure true

def echoRequest : Word → Half → Half → Bool → List Byte → NetProg Bool := echo cfg 8

def echoReply : Word → Half → Half → Bool → List Byte → NetProg Bool := echo cfg 0

def echoRequestReceive (b : Nat) (ip : Word) : NetProg Unit := do
  let s ← get
  let hdr := s.view b
  if checkSum (s.content b) ≠ 0 then pure ()
  else discard (echoReply cfg ip (ntohs (getHalf hdr 4)) (ntohs (getHalf hdr 6)) true [])

/-- `icmp_t::receive`; an echo reply is only printed. -/
def icmpReceive (b : Nat) (ip : Word) : NetProg Unit := do
  let s ← get
  if s.view b 0 = 8 then echoRequestReceive cfg b ip else pure ()

def udpTransmit (dstIp : Word) (srcPort dstPort : Half) (data : List Byte) : NetProg Int := do
  let total := (data.length + 8) % 0x10000
  match ← allocNetBuffer (total + 12) with
  | none => pure (-1)
  | some b => do
    append b (pseudoHdr (htonl cfg.ipaddr) (htonl dstIp) 17 (htons (.ofNat 16 total)))
    append b (udpHdr (htons srcPort) (htons dstPort) (htons (.ofNat 16 total)) 0)
    append b data
    let s ← get
    store b 18 (le16 (checkSum (s.content b)))
    popFront b 12
    let s ← get
    ipTransmit cfg dstIp (s.content b) 17
    pure 0

def tcpTransmit (p : TcpSend) : NetProg Int := do
  match ← allocNetBuffer (p.total + 12) with
  | none => pure (-1)
  | some b => do
    append b (pseudoHdr (htonl cfg.ipaddr) (htonl p.dstIp) 6 (htons (.ofNat 16 p.total)))
    append b p.hdr.toBytes
    if p.data ≠ [] then append b p.data
    if p.tcpLen < p.total then appendZero b (p.total - p.tcpLen)
    let s ← get
    store b 28 (le16 (checkSum (s.content b)))
    popFront b 12
    let s ← get
    ipTransmit cfg p.dstIp (s.content b) 6
    pure 0

/-- The checksum that `udp_t::receive` and `tcp_t::receive` compute in a buffer of their own; `none` without one. -/
def receiveSum (b : Nat) (ip : Word) (protocol : Byte) (total : Half) : NetProg (Option Half) := do
  let s ← get
  match ← allocNetBuffer (12 + (s.bufs b).dataLen) with
  | none => pure none
  | some c => do
    append c (pseudoHdr (htonl ip) (htonl cfg.ipaddr) protocol (htons total))
    append c (Net.bytes (s.view b) total.toNat)
    let s ← get
    freeNetBuffer c
    pure (some (checkSum (s.content c)))

def udpReceive (b : Nat) (ip : Word) : NetProg Int := do
  let s ← get
  let hdr := s.view b
  match ← receiveSum cfg b ip 17 (ntohs (getHalf hdr 4)) with
  | none => pure (-1)
  | some sum =>
    if sum ≠ 0 then pure (-1)
    else do
      popFront b 8
      dgramNetReceive b ip (ntohs (getHalf hdr 0)) (ntohs (getHalf hdr 2))

def tcpTransmits : List TcpSend → NetProg Unit
  | [] => pure ()
  | p :: ps => do
    discard (tcpTransmit cfg p)
    tcpTransmits ps

/-- `stream_net_receive`, with the segments that the sockets send. -/
def streamReceive (hdr : TcpHdr) (b : Nat) (ip : Word) : NetProg Int := do
  let s ← get
  match s.socks.streams.streamNetReceive hdr ip (s.content b) with
  | none => throw .nullDup
  | some x => do
    set (s.setSocks { s.socks with streams := x.2.1 })
    tcpTransmits cfg x.2.2
    pure x.1

def tcpReceive (b : Nat) (ip : Word) : NetProg Int := do
  let s ← get
  let hdr := s.view b
  match ← receiveSum cfg b ip 6 (.ofNat 16 (s.bufs b).dataLen) with
  | none => pure (-1)
  | some sum =>
    if sum ≠ 0 then pure (-1)
    else do
      popFront b 20
      streamReceive cfg (.read hdr) b ip

def ipReceive (b : Nat) : NetProg Unit := do
  let s ← get
  let hdr := s.view b
  let ip := ntohl (getWord hdr 12)
  popFront b 20
  if checkSum (Net.bytes hdr 20) ≠ 0 then pure ()
  else do
    discard (rawNetReceive b ((hdr 9).setWidth 32))
    if hdr 9 = 1 then do
      icmpReceive cfg b ip
      freeNetBuffer b
    else if hdr 9 = 17 then do
      if (← udpReceive cfg b ip) = 0 then freeNetBuffer b
    else if hdr 9 = 6 then do
      if (← tcpReceive cfg b ip) = 0 then freeNetBuffer b
    else freeNetBuffer b

def ethernetReceive (frame : List Byte) : NetProg Unit := do
  match ← allocNetBuffer frame.length with
  | none => pure ()
  | some b => do
    append b frame
    let s ← get
    let hdr := s.view b
    if htons (getHalf hdr 12) = protoArp then do
      popFront b 14
      arpReceive cfg (readMac hdr 6) b
      freeNetBuffer b
    else if htons (getHalf hdr 12) = protoIp then do
      popFront b 14
      ipReceive cfg b
    else freeNetBuffer b

/-- `parse_name` from a place in the name on, behind the characters of the label so far. -/
def parseName (b : Nat) : List Byte → List Byte → NetProg Int
  | label, [] => do
    if label = [] then pure 0
    else if 63 < label.length then pure (-1)
    else do
      append b [.ofNat 8 label.length]
      append b label
      append b [0]
      pure 0
  | label, c :: name => do
    if c ≠ 0x2e then parseName b (label ++ [c]) name
    else if 63 < label.length then pure (-1)
    else do
      append b [.ofNat 8 label.length]
      append b label
      parseName b [] name

def dnsHdr : List Byte :=
  le16 (htons 0x7844) ++ le16 (htons 0x0100) ++ le16 (htons 1) ++ le16 (htons 0) ++ le16 (htons 0) ++ le16 (htons 0)

def dnsQuery (name : List Byte) : NetProg Int := do
  match ← allocNetBuffer 512 with
  | none => pure (-1)
  | some b => do
    append b dnsHdr
    discard (parseName b [] name)
    append b (le16 (htons 1))
    append b (le16 (htons 1))
    let s ← get
    discard (udpTransmit cfg cfg.dnsAddr 50150 53 (s.content b))
    pure 0

end

end BabyOS
