import BabyOS.NetBase
import BabyOS.SockRing
import Mathlib.Data.List.FinRange

open Function

namespace BabyOS

inductive TcpState where
  | closed
  | listen
  | synSent
  | synRcvd
  | established
  | finWait1
  | finWait2
  | closeWait
  | closing
  | lastAck
  | timeWait
  deriving DecidableEq

inductive SockState where
  | free
  | unconnected
  | connecting
  | connected
  | disconnecting
  deriving DecidableEq

abbrev StreamIx := Fin 128

instance neZeroStreams : NeZero 128 := ⟨by decide⟩

/-- `socket_stream_t`; the free bytes of its ring are counted by the ring's semaphore. -/
structure StreamSocket where
  tcpState : TcpState
  state : SockState
  ref : Nat
  addr : SockAddr
  peerAddr : SockAddr
  buffer : SockRingBuffer
  connectingList : List SockAddr
  sem : Semaphore
  seqNo : Word
  ackNo : Word
  dupSocket : Option StreamIx
  space : buffer.left ≤ buffer.waitSpace

namespace StreamSocket

/-- `create`, with the bytes that the pages allocated for the ring happen to hold. -/
def create (mem : Nat → Byte) : StreamSocket where
  tcpState := .closed
  state := .unconnected
  ref := 1
  addr := ⟨0, 0⟩
  peerAddr := ⟨0, 0⟩
  buffer := .init 4 mem
  connectingList := []
  sem := .init 0
  seqNo := 0
  ackNo := 0
  dupSocket := none
  space := le_refl _

def setAckNo (s : StreamSocket) (ackNo : Word) : StreamSocket := { s with ackNo := ackNo }

def setSeqNo (s : StreamSocket) (seqNo : Word) : StreamSocket := { s with seqNo := seqNo }

def setTcpState (s : StreamSocket) (tcpState : TcpState) : StreamSocket := { s with tcpState := tcpState }

def setPeerAddr (s : StreamSocket) (peerAddr : SockAddr) : StreamSocket := { s with peerAddr := peerAddr }

def pushConnecting (s : StreamSocket) (addr : SockAddr) : StreamSocket :=
  { s with connectingList := s.connectingList ++ [addr] }

def upSem (s : StreamSocket) : StreamSocket := { s with sem := s.sem.up }

/-- What the calls of `tcp_t::transmit` have in common: the port of the socket and its next sequence number. -/
def transmit (s : StreamSocket) (dst : SockAddr) (ackNo : Word) (flags : TcpFlags) (data : List Byte) :
    StreamSocket × TcpSend :=
  (s.setSeqNo (s.seqNo + 1),
    ⟨ntohl dst.ip, ntohs s.addr.port, ntohs dst.port, s.seqNo, ackNo, flags, data⟩)

def tcpAck (s : StreamSocket) (ackNo : Word) (syn : Bool) : StreamSocket × TcpSend :=
  s.transmit s.peerAddr ackNo { TcpFlags.init with ack := true, syn := syn } []

def tcpSend (s : StreamSocket) (data : List Byte) : StreamSocket × TcpSend :=
  s.transmit s.peerAddr 0 TcpFlags.init data

def tcpFin (s : StreamSocket) (ackNo : Word) : StreamSocket × TcpSend :=
  s.transmit s.peerAddr ackNo { TcpFlags.init with ack := true, fin := true } []

def putData (s : StreamSocket) (data : List Byte) : Int × StreamSocket :=
  if s.buffer.left < data.length then (-1, s)
  else if s.state = .connected then
    (data.length, { s with
      buffer := data.foldl .putByte s.buffer
      space := SockRingBuffer.foldl_putByte_space s.space data })
  else (0, s)

def read (s : StreamSocket) (max : Nat) : Option (Option (List Byte) × StreamSocket) :=
  match h : s.buffer.getData (s.state = .connected) max with
  | none => none
  | some x => some (x.1, { s with buffer := x.2, space := SockRingBuffer.getData_space s.space h })

def netReceiveAck (s : StreamSocket) (srcIp : Word) (srcPort : Half) : Int × StreamSocket :=
  if ntohl s.peerAddr.ip ≠ srcIp ∨ ntohs s.peerAddr.port ≠ srcPort then (-1, s)
  else match s.tcpState with
    | .synRcvd => (0, s.upSem)
    | .established => (0, s.upSem)
    | .finWait1 => (0, s.setTcpState .finWait2)
    | .lastAck => (0, s.setTcpState .closed)
    | _ => (0, s)

def netReceiveData (s : StreamSocket) (hdr : TcpHdr) (data : List Byte) : Int × StreamSocket × List TcpSend :=
  let put := s.putData data
  if put.1 < 0 then (-1, put.2, [])
  else
    let s := put.2.setAckNo (ntohl hdr.seqNo + 1)
    let ack := s.tcpAck s.ackNo false
    (0, ack.1, [ack.2])

def netReceiveFin (s : StreamSocket) (hdr : TcpHdr) : Int × StreamSocket × List TcpSend :=
  match s.tcpState with
  | .closed => (0, s, [])
  | .finWait2 => (0, s.upSem, [])
  | .established =>
    let s := s.setAckNo (ntohl hdr.seqNo + 1)
    let ack := s.tcpAck s.ackNo false
    let fin := (ack.1.setTcpState .closeWait).tcpFin ack.1.ackNo
    (0, fin.1.setTcpState .lastAck, [ack.2, fin.2])
  | _ => (-1, s.setTcpState .closed, [])

/-- `net_receive` for a segment without SYN, which changes this socket only. -/
def netReceive (s : StreamSocket) (hdr : TcpHdr) (srcIp : Word) (srcPort : Half) (data : List Byte) :
    Int × StreamSocket × List TcpSend :=
  let s := s.setAckNo (ntohl hdr.seqNo + 1)
  if hdr.flags.fin then s.netReceiveFin hdr
  else if hdr.flags.ack then ((s.netReceiveAck srcIp srcPort).1, (s.netReceiveAck srcIp srcPort).2, [])
  else s.netReceiveData hdr data

end StreamSocket

/-- The statements of `write`, `read` and `tcp_close` between which a segment can be received. -/
inductive SockStmt where
  | send (data : List Byte)
  | ack
  | fin
  | setState (tcpState : TcpState)
  | down (pid : Nat)
  | get (max : Nat)
  | free
  deriving DecidableEq

def writeBody (pid : Nat) (data : List Byte) : List SockStmt := [.send data, .down pid]

def closeBody (pid : Nat) : List SockStmt :=
  [.fin, .setState .finWait1, .down pid, .ack, .setState .closed, .free]

def StreamSocket.tcpClose (s : StreamSocket) (pid : Nat) : List SockStmt :=
  if s.tcpState ≠ .established then [.setState .closed] else closeBody pid

/-- One statement, with the segment it sends; `none` where a read sleeps. -/
def StreamSocket.exec (s : StreamSocket) : SockStmt → Option (StreamSocket × List TcpSend)
  | .send data => some ((s.tcpSend data).1, [(s.tcpSend data).2])
  | .ack => some ((s.tcpAck s.ackNo false).1, [(s.tcpAck s.ackNo false).2])
  | .fin => some ((s.tcpFin s.ackNo).1, [(s.tcpFin s.ackNo).2])
  | .setState tcpState => some (s.setTcpState tcpState, [])
  | .down pid => some ({ s with sem := s.sem.down pid }, [])
  | .get max => (s.read max).map fun x => (x.2, [])
  | .free => some ({ s with ref := 0 }, [])

abbrev StreamTable := StreamIx → StreamSocket

namespace StreamTable

def set (t : StreamTable) (i : StreamIx) (s : StreamSocket) : StreamTable := update t i s

theorem set_self (t : StreamTable) (i : StreamIx) (s : StreamSocket) : t.set i s i = s := by
  rw [set, update_self]

theorem set_of_ne {i j : StreamIx} (h : j ≠ i) (t : StreamTable) (s : StreamSocket) : t.set i s j = t j := by
  rw [set, update_of_ne h]

/-- A SYN at a listening socket: the client is queued, `m_dup_socket` written, and the server woken. -/
def queueSyn (t : StreamTable) (i dup : StreamIx) (addr : SockAddr) (ackNo : Word) : StreamTable :=
  let t := t.set i ((t i).pushConnecting addr)
  let t := t.set dup ((t dup).setAckNo ackNo)
  t.set i (t i).upSem

/-- `net_receive_syn`; `none` where it writes through a null `m_dup_socket`. -/
def netReceiveSyn (t : StreamTable) (i : StreamIx) (hdr : TcpHdr) (srcIp : Word) (srcPort : Half) :
    Option (Int × StreamTable) :=
  if hdr.flags.ack = false then
    if (t i).tcpState ≠ .listen then some (-1, t)
    else match (t i).dupSocket with
      | none => none
      | some dup => some (0, t.queueSyn i dup ⟨ntohl srcIp, ntohs srcPort⟩ (ntohl hdr.seqNo + 1))
  else if (t i).tcpState ≠ .synSent then some (-1, t)
  else
    let client := (t i).setPeerAddr ⟨htonl srcIp, htons srcPort⟩
    some (0, t.set i (client.setAckNo (ntohl hdr.seqNo + 1)).upSem)

def netReceive (t : StreamTable) (i : StreamIx) (hdr : TcpHdr) (srcIp : Word) (srcPort : Half)
    (data : List Byte) : Option (Int × StreamTable × List TcpSend) :=
  if hdr.flags.syn then
    (netReceiveSyn (t.set i ((t i).setAckNo (ntohl hdr.seqNo + 1))) i hdr srcIp srcPort).map
      fun x => (x.1, x.2, [])
  else
    let x := (t i).netReceive hdr srcIp srcPort data
    some (x.1, t.set i x.2.1, x.2.2)

/-- The loop of `stream_net_receive` over some slots of the table. -/
def receiveLoop (hdr : TcpHdr) (srcIp : Word) (data : List Byte) :
    List StreamIx → StreamTable → Option (Int × StreamTable × List TcpSend)
  | [], t => some (-1, t, [])
  | i :: is, t =>
    if (t i).ref = 0 then receiveLoop hdr srcIp data is t
    else if (t i).addr.port = hdr.dstPort then
      (t.netReceive i hdr srcIp (ntohs hdr.srcPort) data).bind fun x =>
        if x.1 = 0 then some (0, x.2.1, x.2.2)
        else (receiveLoop hdr srcIp data is x.2.1).map fun y => (y.1, y.2.1, x.2.2 ++ y.2.2)
    else receiveLoop hdr srcIp data is t

def streamNetReceive (t : StreamTable) (hdr : TcpHdr) (srcIp : Word) (data : List Byte) :
    Option (Int × StreamTable × List TcpSend) :=
  receiveLoop hdr srcIp data (List.finRange 128) t

end StreamTable

end BabyOS
