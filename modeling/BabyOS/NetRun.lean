import BabyOS.NetReceive
import BabyOS.Runs

open List Multiset

namespace BabyOS

namespace Sockets

def setRaw (k : Sockets) (i : Fin 128) (x : RawSocket) : Sockets := { k with raws := Function.update k.raws i x }

def setDgram (k : Sockets) (i : Fin 128) (x : DgramSocket) : Sockets := { k with dgrams := Function.update k.dgrams i x }

end Sockets

namespace Net

def rawSocket (s : Net) (protocol : Word) : Net :=
  match (List.finRange 128).find? fun i => (s.socks.raws i).ref = 0 with
  | none => s
  | some i => s.setSocks (s.socks.setRaw i ⟨1, protocol, [], .init 0⟩)

def dgramSocket (s : Net) : Net :=
  match (List.finRange 128).find? fun i => (s.socks.dgrams i).ref = 0 with
  | none => s
  | some i => s.setSocks (s.socks.setDgram i ⟨1, (s.socks.dgrams i).family, ⟨0, 0⟩, [], .init 0⟩)

/-- `recv_from` of a raw socket after its `down`: a packet that is read to its end is taken from the queue. -/
def rawRecvFrom (s : Net) (i : Fin 128) (size : Nat) : List Byte × Net :=
  match (s.socks.raws i).buffers with
  | [] => ([], s)
  | b :: bs =>
    if (s.bufs b).dataLen < size then
      (s.content b, s.setSocks (s.socks.setRaw i { s.socks.raws i with buffers := bs }))
    else (bytes (s.view b) size, (s.popFront b size).2)

def dgramBind (cfg : NetCfg) (s : Net) (i : Fin 128) (family : Half) (addr : SockAddr) : Int × Net :=
  let addr := if addr.ip = 0 then ⟨cfg.ipaddr, addr.port⟩ else addr
  if ∃ j, (s.socks.dgrams j).ref ≠ 0 ∧ (s.socks.dgrams j).family = family ∧ (s.socks.dgrams j).addr = addr then (-1, s)
  else (0, s.setSocks (s.socks.setDgram i { s.socks.dgrams i with addr := ⟨ntohl addr.ip, ntohs addr.port⟩ }))

end Net

def dgramRecvFrom (i : Fin 128) (size : Nat) : NetProg (Option (SockAddr × List Byte)) := do
  let s ← get
  match (s.socks.dgrams i).buffers with
  | [] => pure none
  | x :: xs => do
    freeNetBuffer x.buf
    modify fun s => s.setSocks (s.socks.setDgram i { s.socks.dgrams i with buffers := xs })
    pure (some (⟨ntohl x.addrFrom.ip, ntohs x.addrFrom.port⟩, (s.content x.buf).take size))

def freeDgrams : List DgramBuf → NetProg Unit
  | [] => pure ()
  | x :: xs => do
    freeNetBuffer x.buf
    freeDgrams xs

def dgramRelease (i : Fin 128) : NetProg Unit := do
  let s ← get
  freeDgrams (s.socks.dgrams i).buffers
  modify fun s => s.setSocks (s.socks.setDgram i { s.socks.dgrams i with ref := 0, buffers := [] })

/-- `send_to` of a datagram socket, with the port that `get_not_used_port` gives it if it has none. -/
def dgramSendTo (cfg : NetCfg) (i : Fin 128) (port : Half) (addr : SockAddr) (data : List Byte) : NetProg Int := do
  modify fun s =>
    if ntohs (s.socks.dgrams i).addr.port = 0 then
      s.setSocks (s.socks.setDgram i { s.socks.dgrams i with addr := ⟨cfg.ipaddr, port⟩ })
    else s
  let s ← get
  discard (udpTransmit cfg (ntohl addr.ip) (s.socks.dgrams i).addr.port (ntohs addr.port) data)
  pure 0

inductive NetCall where
  | udp (dstIp : Word) (srcPort dstPort : Half) (data : List Byte)
  | tcp (p : TcpSend)
  | echoRequest (ip : Word) (id seq : Half) (null : Bool) (data : List Byte)
  | echoReply (ip : Word) (id seq : Half) (null : Bool) (data : List Byte)
  | dns (name : List Byte)

def NetCall.exec (cfg : NetCfg) : NetCall → NetProg Unit
  | .udp dstIp srcPort dstPort data => discard (udpTransmit cfg dstIp srcPort dstPort data)
  | .tcp p => discard (tcpTransmit cfg p)
  | .echoRequest ip id seq null data => discard (BabyOS.echoRequest cfg ip id seq null data)
  | .echoReply ip id seq null data => discard (BabyOS.echoReply cfg ip id seq null data)
  | .dns name => discard (dnsQuery cfg name)

/-- A frame comes in, a timer of `arp_t` expires, a packet is sent, a socket call is made; the stream sockets,
which hold no buffers, change in any way. -/
inductive NetAct where
  | receive (frame : List Byte)
  | expire (ip : Word)
  | call (c : NetCall)
  | rawSocket (protocol : Word)
  | rawDown (i : Fin 128) (pid : Nat)
  | rawRecv (i : Fin 128) (size : Nat)
  | rawSend (i : Fin 128) (ip : Word) (data : List Byte)
  | dgramSocket
  | dgramBind (i : Fin 128) (family : Half) (addr : SockAddr)
  | dgramDown (i : Fin 128) (pid : Nat)
  | dgramRecv (i : Fin 128) (size : Nat)
  | dgramSend (i : Fin 128) (port : Half) (addr : SockAddr) (data : List Byte)
  | dgramRelease (i : Fin 128)
  | streams (t : StreamTable)

def NetAct.exec (cfg : NetCfg) : NetAct → NetProg Unit
  | .receive frame => ethernetReceive cfg frame
  | .expire ip => runArp cfg fun a => a.requestTimeout ip
  | .call c => c.exec cfg
  | .rawSocket protocol => modify fun s => s.rawSocket protocol
  | .rawDown i pid => modify fun s =>
    s.setSocks (s.socks.setRaw i { s.socks.raws i with sem := (s.socks.raws i).sem.down pid })
  | .rawRecv i size => modify fun s => (s.rawRecvFrom i size).2
  | .rawSend i ip data => do
    let s ← get
    ipTransmit cfg ip data ((s.socks.raws i).protocol.setWidth 8)
  | .dgramSocket => modify fun s => s.dgramSocket
  | .dgramBind i family addr => modify fun s => (s.dgramBind cfg i family addr).2
  | .dgramDown i pid => modify fun s =>
    s.setSocks (s.socks.setDgram i { s.socks.dgrams i with sem := (s.socks.dgrams i).sem.down pid })
  | .dgramRecv i size => discard (dgramRecvFrom i size)
  | .dgramSend i port addr data => discard (dgramSendTo cfg i port addr data)
  | .dgramRelease i => BabyOS.dgramRelease i
  | .streams t => modify fun s => s.setSocks { s.socks with streams := t }

namespace Net

def step (cfg : NetCfg) (s : Net) (a : NetAct) : Option Net :=
  match a.exec cfg s with
  | .ok (_, t) => some t
  | .error _ => none

/-- A host after `net_t::init` and `sys_socket_t::init`: every buffer is free and no socket is in use. -/
structure Booted (s : Net) : Prop where
  netBuffers : s.netBuffers.Nodup
  extBuffers : s.extBuffers.Nodup
  arp : s.arp = .init
  raws : ∀ i, (s.socks.raws i).ref = 0 ∧ (s.socks.raws i).buffers = []
  dgrams : ∀ i, (s.socks.dgrams i).ref = 0 ∧ (s.socks.dgrams i).buffers = []
  streams : ∀ i, (s.socks.streams i).ref = 0

/-- A buffer is in exactly one place: free, or in one socket queue once. -/
def OnePlace (t : Net) (b : Nat) : Prop := t.netBuffers.count b + t.socks.queued.count b = 1

/-- `ethernet_t::receive` returns, and the buffer allocated for the frame is in exactly one place. -/
def Placed (cfg : NetCfg) (s : Net) (frame : List Byte) : Prop :=
  Ends (fun _ => False) (ethernetReceive cfg frame)
    (fun _ t => ∀ b, (s.allocNetBuffer frame.length).1 = some b → t.OnePlace b) s

/-- A frame that has a buffer is freed and queued by no socket, or queued by one and not freed. -/
def Good (cfg : NetCfg) (s : Net) (frame : List Byte) : Prop := s.Alloc frame.length →
  ¬s.FrameNullDup cfg frame ∧
    ((s.FrameFreed cfg frame ∧ s.frameQueued cfg frame = 0) ∨ (¬s.FrameFreed cfg frame ∧ s.frameQueued cfg frame = 1))

def Careful (cfg : NetCfg) (s : Net) : NetAct → Prop
  | .receive frame => s.Good cfg frame
  | _ => True

/-- Every buffer is in at most one of the pools, the wait queues and the socket queues. -/
def Inv (s : Net) : Prop := ∃ all exts, Own s s.socks.queued all exts

section

variable {cfg : NetCfg} {s t : Net} {b : Nat} {held all exts : Multiset Nat} {frame : List Byte}

theorem Own.drop {lost : Multiset Nat} (h : Own s (lost + held) all exts) : ∃ all' exts', Own s held all' exts' := by
  refine ⟨_, _, rfl, rfl, ?_, ?_⟩
  · refine nodup_of_le ?_ h.nodup
    rw [← h.bufs]
    exact add_le_add_right (le_add_left held lost) _
  · refine nodup_of_le ?_ h.extNodup
    rw [← h.extBufs, extsOf_add, extsOf_add, extsOf_add]
    exact add_le_add_right (add_le_add_right (le_add_left _ _) _) _

theorem Booted.inv (h : s.Booted) : s.Inv := by
  have hq : s.socks.queued = 0 := by
    unfold Sockets.queued
    rw [Finset.sum_eq_zero fun i _ => by rw [(h.raws i).2]; rfl, Finset.sum_eq_zero fun i _ => by rw [(h.dgrams i).2]; rfl,
      add_zero]
  have hw : s.arp.waiting = [] := by
    rw [h.arp]
    rfl
  refine ⟨_, _, rfl, rfl, ?_, ?_⟩
  · rw [hq, hw, coe_nil, add_zero, add_zero]
    exact coe_nodup.mpr h.netBuffers
  · rw [hq, hw, coe_nil, add_zero, show s.extsOf 0 = 0 from zero_bind _, add_zero]
    exact coe_nodup.mpr h.extBuffers

variable {freed : Prop} {k : Nat} {i : Fin 128} {a : NetAct}

theorem settled_onePlace_iff (h : Settled held all exts b freed k t) (hb : b ∉ held) :
    t.OnePlace b ↔ (freed ∧ k = 0) ∨ (¬freed ∧ k = 1) := by
  have hq : t.socks.queued.count b = k := by
    rw [h.queued, Multiset.count_add, Multiset.count_eq_zero_of_notMem hb, Multiset.count_replicate_self, Nat.zero_add]
  unfold OnePlace
  rw [hq]
  rcases h.own with ⟨hf, hm, lost, ho⟩ | ⟨hf, lost, ho⟩
  · rw [count_eq_one_of_mem ho.netBuffers_nodup hm]
    constructor
    · intro hk
      exact Or.inl ⟨hf, by omega⟩
    · rintro (⟨-, hk⟩ | ⟨hn, -⟩)
      · omega
      · exact absurd hf hn
  · have hm : b ∉ t.netBuffers := by
      apply ho.not_mem_netBuffers
      exact mem_add.mpr (Or.inr (mem_add.mpr (Or.inr (mem_cons_self b held))))
    rw [count_eq_zero_of_not_mem hm]
    constructor
    · intro hk
      exact Or.inr ⟨hf, by omega⟩
    · rintro (⟨hn, -⟩ | ⟨-, hk⟩)
      · exact absurd hn hf
      · omega

theorem settled_inv (h : Settled held all exts b freed k t) (hk : (freed ∧ k = 0) ∨ (¬freed ∧ k = 1)) : t.Inv := by
  unfold Inv
  rw [h.queued]
  rcases hk with ⟨hf, rfl⟩ | ⟨hf, rfl⟩
  · rcases h.own with ⟨-, -, lost, ho⟩ | ⟨hn, -⟩
    · rw [Multiset.replicate_zero, add_zero]
      exact ho.drop
    · exact absurd hf hn
  · rcases h.own with ⟨hn, -⟩ | ⟨-, lost, ho⟩
    · exact absurd hn hf
    · rw [Multiset.replicate_one, add_comm, Multiset.singleton_add]
      exact ho.drop

theorem ends_ethernetReceive (h : Own s s.socks.queued all exts) (ha : s.Alloc frame.length)
    (hnull : ¬s.FrameNullDup cfg frame) : ∃ b, (s.allocNetBuffer frame.length).1 = some b ∧ b ∉ s.socks.queued ∧
      Ends (fun _ => False) (ethernetReceive cfg frame) (fun _ t =>
        Settled s.socks.queued all exts b (s.FrameFreed cfg frame) (s.frameQueued cfg frame) t) s := by
  rcases allocNetBuffer_cases s frame.length with ⟨hn, -⟩ | ⟨-, b, t, hs, ht⟩
  · exact absurd ha hn
  refine ⟨b, by rw [hs], (h.took ht).not_mem_held, ?_⟩
  unfold ethernetReceive
  rw [ends_bind]
  refine (ends_of_ok (a := some b) (t := t) (congrArg Except.ok hs)).mpr ?_
  exact ends_ethernetReceive_of_took h rfl ha ht (by rw [Net.without, hs]) hnull

theorem ethernetReceive_not_alloc (cfg : NetCfg) (ha : ¬s.Alloc frame.length) : (s.allocNetBuffer frame.length).1 = none ∧
    ethernetReceive cfg frame s = .ok ((), s) := by
  rcases allocNetBuffer_cases s frame.length with ⟨-, hs⟩ | ⟨ha', -⟩
  · refine ⟨by rw [hs], ?_⟩
    unfold ethernetReceive
    rw [bind_ok (a := none) (t := s) (congrArg Except.ok hs)]
    rfl
  · exact absurd ha' ha

theorem ethernetReceive_nullDup (h : Own s s.socks.queued all exts) (ha : s.Alloc frame.length)
    (hnull : s.FrameNullDup cfg frame) : Ends (fun _ => True) (ethernetReceive cfg frame) (fun _ _ => False) s := by
  obtain ⟨hip, hnull⟩ := hnull
  rcases allocNetBuffer_cases s frame.length with ⟨hn, -⟩ | ⟨-, b, t, hs, ht⟩
  · exact absurd ha hn
  have hwithout : s.without frame.length = t := by rw [Net.without, hs]
  have hstill := still_append t b frame
  have hpop := still_popFront (t.append b frame).2 b 14
  have hland := ht.landed ha
  have hin : SameInput t ((t.append b frame).2.popFront b 14).2 :=
    ⟨hpop.netBuffers.trans hstill.netBuffers, hpop.extBuffers.trans hstill.extBuffers,
      by rw [hpop.socks, hstill.socks], by rw [hpop.socks, hstill.socks]⟩
  unfold ethernetReceive
  rw [ends_bind]
  refine (ends_of_ok (a := some b) (t := t) (congrArg Except.ok hs)).mpr ?_
  rw [ends_append, ends_get_bind, hland.view]
  rw [if_neg fun harp => absurd (harp.symm.trans hip) (by decide), if_pos (show _ = protoIp from hip), ends_popFront]
  refine ipReceive_nullDup (((h.took ht).still hstill).still hpop) (hland.popFront 14) ((hin.packetNullDup _).mpr ?_)
  rw [← hwithout]
  exact hnull

theorem placed_iff_good (h : Own s s.socks.queued all exts) : s.Placed cfg frame ↔ s.Good cfg frame := by
  unfold Placed Good
  by_cases ha : s.Alloc frame.length
  · by_cases hnull : s.FrameNullDup cfg frame
    · refine ⟨fun hp => ?_, fun hg => absurd hnull (hg ha).1⟩
      obtain ⟨_, t, hm, -⟩ := hp.returns
      exact ((ethernetReceive_nullDup h ha hnull).of_ok hm).elim
    · obtain ⟨b, hb, hheld, hends⟩ := ends_ethernetReceive h ha hnull
      refine hends.iff fun _ t ht => ?_
      rw [hb]
      have hone := settled_onePlace_iff ht hheld
      constructor
      · intro hp _
        exact ⟨hnull, hone.mp (hp b rfl)⟩
      · intro hg c hc
        cases hc
        exact hone.mpr (hg ha).2
  · obtain ⟨hn, hok⟩ := ethernetReceive_not_alloc cfg ha
    refine ⟨fun _ ha' => absurd ha' ha, fun _ => (ends_of_ok hok).mpr fun b hb => ?_⟩
    rw [hn] at hb
    cases hb

theorem queued_setDgram (k : Sockets) (i : Fin 128) (x : DgramSocket) :
    (k.setDgram i x).queued + ((k.dgrams i).buffers.map DgramBuf.buf : Multiset Nat) =
      k.queued + (x.buffers.map DgramBuf.buf : Multiset Nat) := by
  have hsum := sum_update (fun x : DgramSocket => (x.buffers.map DgramBuf.buf : Multiset Nat)) k.dgrams i x
  unfold Sockets.queued Sockets.setDgram
  rw [add_assoc, hsum]
  abel

theorem Inv.setSocks {k : Sockets} (lost : Multiset Nat) (h : s.Inv) (hk : k.queued + lost = s.socks.queued) :
    (s.setSocks k).Inv := by
  obtain ⟨all, exts, ho⟩ := h
  rw [← hk, add_comm] at ho
  exact (own_setSocks ho).drop

theorem Inv.setRaw {x : RawSocket} (lost : Multiset Nat) (h : s.Inv)
    (hx : (x.buffers : Multiset Nat) + lost = (s.socks.raws i).buffers) : (s.setSocks (s.socks.setRaw i x)).Inv := by
  refine h.setSocks lost ?_
  have hsum := sum_update (fun x : RawSocket => (x.buffers : Multiset Nat)) s.socks.raws i x
  rw [← hx, ← add_assoc, add_right_comm] at hsum
  unfold Sockets.queued Sockets.setRaw
  rw [add_right_comm, add_right_cancel hsum]

section

variable (h : s.Inv)
include h

theorem Inv.setDgram {x : DgramSocket}
    (hx : x.buffers = (s.socks.dgrams i).buffers ∨ x.buffers = []) : (s.setSocks (s.socks.setDgram i x)).Inv := by
  have hq := queued_setDgram s.socks i x
  rcases hx with hx | hx
  · rw [hx] at hq
    exact h.setSocks 0 ((add_zero _).trans (add_right_cancel hq))
  · rw [hx, map_nil, coe_nil, add_zero] at hq
    exact h.setSocks _ hq

theorem Inv.loses {α : Type} {m : NetProg α} (hm : Loses m) : Ends (fun _ => False) m (fun _ t => t.Inv) s := by
  obtain ⟨all, exts, ho⟩ := h
  refine (hm ho).imp ?_
  rintro _ t ⟨⟨lost, ht⟩, hs⟩
  rw [← hs] at ht
  exact ht.drop

theorem Inv.still (hs : Still s t) : t.Inv := by
  obtain ⟨all, exts, ho⟩ := h
  refine ⟨all, exts, ?_⟩
  rw [hs.socks]
  exact ho.still hs

theorem Inv.rawSocket (protocol : Word) : (s.rawSocket protocol).Inv := by
  unfold Net.rawSocket
  split
  · exact h
  · exact h.setRaw _ (zero_add _)

theorem Inv.dgramSocket : s.dgramSocket.Inv := by
  unfold Net.dgramSocket
  split
  · exact h
  · exact h.setDgram (Or.inr rfl)

theorem Inv.rawRecvFrom (i : Fin 128) (size : Nat) : (s.rawRecvFrom i size).2.Inv := by
  unfold Net.rawRecvFrom
  split
  · exact h
  · next b bs hb =>
    split
    · refine h.setRaw {b} ?_
      rw [hb, add_comm]
      rfl
    · exact h.still (still_popFront s b size)

theorem Inv.dgramBind (i : Fin 128) (family : Half) (addr : SockAddr) : (s.dgramBind cfg i family addr).2.Inv := by
  unfold Net.dgramBind
  generalize (if addr.ip = 0 then (⟨cfg.ipaddr, addr.port⟩ : SockAddr) else addr) = a
  by_cases hc : ∃ j, (s.socks.dgrams j).ref ≠ 0 ∧ (s.socks.dgrams j).family = family ∧ (s.socks.dgrams j).addr = a
  · simp only [if_pos hc]
    exact h
  · simp only [if_neg hc]
    exact h.setDgram (Or.inl rfl)

theorem Inv.dgramRecvFrom (i : Fin 128) (size : Nat) :
    Ends (fun _ => False) (dgramRecvFrom i size) (fun _ t => t.Inv) s := by
  unfold BabyOS.dgramRecvFrom
  rw [ends_get_bind]
  cases hb : (s.socks.dgrams i).buffers with
  | nil => exact h
  | cons x xs =>
    obtain ⟨all, exts, ho⟩ := h
    have hq := queued_setDgram s.socks i { s.socks.dgrams i with buffers := xs }
    rw [hb, List.map_cons, ← Multiset.cons_coe, Multiset.add_cons, ← Multiset.cons_add] at hq
    rw [← add_right_cancel hq] at ho
    rw [ends_bind]
    refine (ends_own_free ho).imp ?_
    rintro _ t ⟨ht, hs, -⟩
    refine ⟨all, exts, ?_⟩
    dsimp only
    rw [hs]
    exact own_setSocks ht

end

theorem ends_freeDgrams (xs : List DgramBuf) (h : Own s (held + (xs.map DgramBuf.buf : List Nat)) all exts) :
    Ends (fun _ => False) (freeDgrams xs) (fun _ t => Own t held all exts ∧ t.socks = s.socks) s := by
  induction xs generalizing s with
  | nil => exact ⟨by rw [← add_zero held]; exact h, rfl⟩
  | cons x xs ih =>
    rw [List.map_cons, ← Multiset.cons_coe, Multiset.add_cons] at h
    unfold freeDgrams
    rw [ends_bind]
    refine (ends_own_free h).imp ?_
    rintro _ t ⟨ht, hs, -⟩
    exact (ih ht).imp fun _ u hu => ⟨hu.1, hu.2.trans hs⟩

theorem Inv.dgramRelease (h : s.Inv) (i : Fin 128) :
    Ends (fun _ => False) (dgramRelease i) (fun _ t => t.Inv) s := by
  obtain ⟨all, exts, ho⟩ := h
  have hq := queued_setDgram s.socks i { s.socks.dgrams i with ref := 0, buffers := [] }
  rw [map_nil, coe_nil, add_zero] at hq
  rw [← hq] at ho
  unfold BabyOS.dgramRelease
  rw [ends_get_bind, ends_bind]
  refine (ends_freeDgrams _ ho).imp ?_
  rintro _ t ⟨ht, hs⟩
  refine ⟨all, exts, ?_⟩
  dsimp only
  rw [hs]
  exact own_setSocks ht

theorem Inv.dgramSendTo (h : s.Inv) (i : Fin 128) (port : Half) (addr : SockAddr) (data : List Byte) :
    Ends (fun _ => False) (dgramSendTo cfg i port addr data) (fun _ t => t.Inv) s := by
  unfold BabyOS.dgramSendTo
  rw [ends_bind, ends_modify, ends_get_bind]
  refine Inv.loses ?_ ((loses_udpTransmit _ _ _ _).discard.bind fun _ => (conserves_pure _).loses)
  split
  · exact h.setDgram (Or.inl rfl)
  · exact h

theorem loses_call (c : NetCall) : Loses (c.exec cfg) := by
  cases c with
  | udp dstIp srcPort dstPort data => exact (loses_udpTransmit _ _ _ _).discard
  | tcp p => exact (loses_tcpTransmit p).discard
  | echoRequest ip id seq null data | echoReply ip id seq null data => exact (conserves_echo _ _ _ _ _ _).loses.discard
  | dns name => exact (loses_dnsQuery name).discard

theorem Inv.receive (h : s.Inv) (hg : s.Good cfg frame) :
    Ends (fun _ => False) (ethernetReceive cfg frame) (fun _ t => t.Inv) s := by
  by_cases ha : s.Alloc frame.length
  · obtain ⟨all, exts, ho⟩ := h
    obtain ⟨b, -, -, hends⟩ := ends_ethernetReceive ho ha (hg ha).1
    exact hends.imp fun _ t ht => settled_inv ht (hg ha).2
  · exact (ends_of_ok (ethernetReceive_not_alloc cfg ha).2).mpr h

theorem Inv.exec (h : s.Inv) (hc : s.Careful cfg a) : Ends (fun _ => False) (a.exec cfg) (fun _ t => t.Inv) s := by
  cases a with
  | receive frame => exact h.receive hc
  | expire ip => exact h.loses (conserves_runArp fun _ => Arp.waiting_requestTimeout).loses
  | call c => exact h.loses (loses_call c)
  | rawSocket protocol => exact h.rawSocket protocol
  | rawDown i pid => exact h.setRaw 0 (add_zero _)
  | rawRecv i size => exact h.rawRecvFrom i size
  | rawSend i ip data => exact h.loses (conserves_get.bind fun _ => conserves_ipTransmit _ _ _).loses
  | dgramSocket => exact h.dgramSocket
  | dgramBind i family addr => exact h.dgramBind i family addr
  | dgramDown i pid => exact h.setDgram (Or.inl rfl)
  | dgramRecv i size => exact ends_discard.mpr (h.dgramRecvFrom i size)
  | dgramSend i port addr data => exact ends_discard.mpr (h.dgramSendTo i port addr data)
  | dgramRelease i => exact h.dgramRelease i
  | streams t => exact h.setSocks 0 (add_zero _)

theorem Inv.step (h : s.Inv) (hc : s.Careful cfg a) (hs : step cfg s a = some t) : t.Inv := by
  obtain ⟨_, u, hu, hi⟩ := (h.exec hc).returns
  unfold Net.step at hs
  rw [hu] at hs
  cases hs
  exact hi

/-- After every run of such frames, a further frame ends up in exactly one place if and only if it is such a
frame, too. -/
theorem received_placed_iff {as : List NetAct} (h : s.Booted) (hc : Along (step cfg) (Careful cfg) s as)
    (hs : run (step cfg) s as = some t) (frame : List Byte) : t.Placed cfg frame ↔ t.Good cfg frame := by
  obtain ⟨all, exts, ho⟩ := run_invariant (fun _ _ _ h => h.step) h.inv hc hs
  exact placed_iff_good ho

def host : Net where
  netBuffers := [0, 1, 2, 3]
  extBuffers := []
  bufs := fun _ => .init none
  inner := fun _ _ => 0
  outer := fun _ _ => 0
  arp := .init
  nextId := 0
  socks :=
    { raws := fun _ => ⟨0, 0, [], .init 0⟩
      dgrams := fun _ => ⟨0, 0, ⟨0, 0⟩, [], .init 0⟩
      streams := fun _ => { StreamSocket.create (fun _ => 0) with ref := 0 } }
  frames := []

def hostCfg : NetCfg := ⟨fun _ => 1, 0xc0a80102#32, 0xffffff00#32, 0xc0a80101#32, 0x08080808#32⟩

theorem host_booted : host.Booted :=
  ⟨by decide, nodup_nil, rfl, fun _ => ⟨rfl, rfl⟩, fun _ => ⟨rfl, rfl⟩, fun _ => rfl⟩

def unknownFrame : List Byte := List.replicate 14 0

def ipFrame (hdr : List Byte) : List Byte := List.replicate 12 0 ++ [8, 0] ++ hdr

theorem unknownFrame_good (s : Net) : s.Good hostCfg unknownFrame := by
  have hproto : getHalf (s.landed unknownFrame).data 12 = 0 := by
    simp [getHalf, landed, write, unknownFrame]
  have hip : ¬s.IpFrame unknownFrame := by
    unfold IpFrame
    rw [hproto]
    decide
  intro _
  exact ⟨fun hn => hip hn.1, Or.inl ⟨fun hi => absurd hi hip, if_neg hip⟩⟩

/-- A datagram without data for port 80. -/
def udpFrame : List Byte :=
  ipFrame ([0xff, 0xee, 0, 0, 0, 0, 0, 0, 0, 17] ++ List.replicate 10 0 ++ [0, 0, 0, 80, 0, 8, 61, 228])

theorem good_of_queued {cfg : NetCfg} {s : Net} {frame : List Byte} (hip : s.IpFrame frame)
    (hudp : ((s.landed frame).pop 14).data 9 = 17) (hq : s.frameQueued cfg frame = 1)
    (hr : (s.without frame.length).socks.dgramRefused (ntohs (getHalf (((s.landed frame).pop 14).pop 20).data 2)) = false) :
    s.Good cfg frame := by
  intro _
  refine ⟨fun hn => ?_, Or.inr ⟨fun hf => ?_, hq⟩⟩
  · have h6 := hn.2.2.1
    rw [hudp] at h6
    cases h6
  · have hrefused := ((hf hip).2.1 hudp).2
    rw [hr] at hrefused
    cases hrefused

def twoDatagrams : List NetAct :=
  [.dgramSocket, .dgramBind 0 2 ⟨0, htons 80⟩, .receive udpFrame, .receive unknownFrame]

set_option maxRecDepth 4096 in
theorem twoDatagrams_run : (run (step hostCfg) host twoDatagrams).isSome = true := by decide +kernel

set_option maxRecDepth 4096 in
/-- Two datagrams are queued by the socket bound to their port; a frame of another protocol in between is freed. -/
theorem received_placed_iff_two : ∃ t, run (step hostCfg) host twoDatagrams = some t ∧
    t.socks.queued = {0} ∧ t.Placed hostCfg udpFrame := by
  have hbound : (host.dgramSocket.dgramBind hostCfg 0 2 ⟨0, htons 80⟩).2.Good hostCfg udpFrame :=
    good_of_queued (by decide +kernel) (by decide +kernel) (by decide +kernel) (by decide +kernel)
  have hc : Along (step hostCfg) (Careful hostCfg) host twoDatagrams :=
    along_cons trivial rfl (along_cons trivial rfl ⟨hbound, fun t _ => ⟨unknownFrame_good t, fun _ _ => trivial⟩⟩)
  have hrun := (Option.some_get twoDatagrams_run).symm
  refine ⟨_, hrun, by decide +kernel, (received_placed_iff host_booted hc hrun udpFrame).mpr ?_⟩
  exact good_of_queued (by decide +kernel) (by decide +kernel) (by decide +kernel) (by decide +kernel)

/-- An IP packet whose header has a wrong checksum is lost. A packet that a raw socket has queued is freed, too. -/
theorem received_lost_or_shared : ¬host.Placed hostCfg (ipFrame (List.replicate 20 0)) ∧
    ∃ t, run (step hostCfg) host [.rawSocket 1] = some t ∧
      ¬t.Placed hostCfg (ipFrame ([0xff, 0xfe, 0, 0, 0, 0, 0, 0, 0, 1] ++ List.replicate 10 0)) := by
  obtain ⟨all, exts, ho⟩ := host_booted.inv
  constructor
  · rw [placed_iff_good ho]
    intro hg
    have hip : host.IpFrame (ipFrame (List.replicate 20 0)) := by decide
    rcases (hg (by decide)).2 with ⟨hf, -⟩ | ⟨-, hq⟩
    · exact absurd (hf hip).1 (by decide)
    · rw [frameQueued, if_pos hip, packetQueued, if_neg (by decide)] at hq
      cases hq
  · have hr : run (step hostCfg) host [.rawSocket 1] = some (host.rawSocket 1) := rfl
    obtain ⟨all, exts, ho⟩ := host_booted.inv.rawSocket 1
    refine ⟨_, hr, ?_⟩
    rw [placed_iff_good ho]
    intro hg
    have hip : (host.rawSocket 1).IpFrame (ipFrame ([0xff, 0xfe, 0, 0, 0, 0, 0, 0, 0, 1] ++ List.replicate 10 0)) := by
      decide
    rcases (hg (by decide)).2 with ⟨-, hq⟩ | ⟨hf, -⟩
    · rw [frameQueued, if_pos hip] at hq
      revert hq
      decide
    · refine hf fun _ => ⟨by decide, fun h => absurd h (by decide), fun h => absurd h (by decide)⟩

end

end Net

end BabyOS
