import BabyOS.StreamReceive

open Function List Option

namespace BabyOS

namespace StreamSocket

/-- `stream_net_receive` for a socket that is the only one with its port. -/
def deliver (s : StreamSocket) (p : TcpSend) (srcIp : Word) : StreamSocket × List TcpSend :=
  if s.ref ≠ 0 ∧ s.addr.port = p.hdr.dstPort then
    (s.netReceive p.hdr srcIp (ntohs p.hdr.srcPort) p.payload).2
  else (s, [])

structure FromPeer (s : StreamSocket) (p : TcpSend) : Prop where
  dst : p.hdr.dstPort = s.addr.port
  src : p.hdr.srcPort = s.peerAddr.port
  syn : p.flags.syn = false

structure ToPeer (s : StreamSocket) (p : TcpSend) : Prop where
  src : p.hdr.srcPort = s.addr.port
  dst : p.hdr.dstPort = s.peerAddr.port
  syn : p.flags.syn = false

section

variable {s : StreamSocket} {p : TcpSend} {srcIp : Word} {hdr : TcpHdr} {data : List Byte}

theorem deliver_live (hr : s.ref ≠ 0) (hp : s.FromPeer p) :
    s.deliver p srcIp = (s.netReceive p.hdr srcIp (ntohs p.hdr.srcPort) p.payload).2 :=
  if_pos ⟨hr, hp.dst.symm⟩

theorem transmit_toPeer {ackNo : Word} {flags : TcpFlags} (h : flags.syn = false) :
    s.ToPeer (s.transmit s.peerAddr ackNo flags data).2 :=
  ⟨htons_ntohs _, htons_ntohs _, h⟩

theorem ToPeer.congr {s' : StreamSocket} (h : s'.ToPeer p) (ha : s'.addr = s.addr)
    (hp : s'.peerAddr = s.peerAddr) : s.ToPeer p :=
  ⟨h.src.trans (congrArg _ ha), h.dst.trans (congrArg _ hp), h.syn⟩

theorem putData_peerAddr (s : StreamSocket) (data : List Byte) :
    (s.putData data).2.peerAddr = s.peerAddr ∧ (s.putData data).2.sem = s.sem ∧
      (s.putData data).2.tcpState = s.tcpState := by
  unfold putData
  split
  · exact ⟨rfl, rfl, rfl⟩
  · split <;> exact ⟨rfl, rfl, rfl⟩

theorem netReceive_sends (s : StreamSocket) (hdr : TcpHdr) (srcIp : Word) (data : List Byte) :
    (s.netReceive hdr srcIp (ntohs hdr.srcPort) data).2.1.peerAddr = s.peerAddr ∧
      ((s.netReceive hdr srcIp (ntohs hdr.srcPort) data).2.1.sem = s.sem ∨
        (s.netReceive hdr srcIp (ntohs hdr.srcPort) data).2.1.sem = s.sem.up) ∧
      ∀ p ∈ (s.netReceive hdr srcIp (ntohs hdr.srcPort) data).2.2, s.ToPeer p := by
  cases hfin : hdr.flags.fin
  · cases hack : hdr.flags.ack
    · rw [netReceive_data hfin hack]
      by_cases hl : (s.setAckNo (ntohl hdr.seqNo + 1)).buffer.left < data.length
      · rw [netReceiveData_full hl]
        exact ⟨rfl, Or.inl rfl, fun p hp => absurd hp not_mem_nil⟩
      · obtain ⟨hp, hs, -⟩ := putData_peerAddr (s.setAckNo (ntohl hdr.seqNo + 1)) data
        rw [netReceiveData_room hl]
        refine ⟨hp, Or.inl hs, ?_⟩
        intro p hm
        cases mem_singleton.mp hm
        exact (transmit_toPeer rfl).congr (putData_rest _ data).addr hp
    · rw [netReceive_ack hfin hack]
      refine ⟨?_, ?_, fun p hp => absurd hp not_mem_nil⟩
      · unfold netReceiveAck
        split
        · rfl
        · split <;> rfl
      · unfold netReceiveAck
        split
        · exact Or.inl rfl
        · split <;> first | exact Or.inl rfl | exact Or.inr rfl
  · rw [netReceive_fin hfin]
    refine ⟨?_, ?_, ?_⟩
    · unfold netReceiveFin
      split <;> rfl
    · unfold netReceiveFin
      split <;> first | exact Or.inl rfl | exact Or.inr rfl
    · intro p hp
      unfold netReceiveFin at hp
      split at hp
      · cases hp
      · cases hp
      · rcases mem_cons.mp hp with rfl | hm
        · exact (transmit_toPeer rfl).congr rfl rfl
        · cases mem_singleton.mp hm
          exact (transmit_toPeer rfl).congr rfl rfl
      · cases hp

theorem deliver_sends (s : StreamSocket) (p : TcpSend) (srcIp : Word) :
    s.SameRest (s.deliver p srcIp).1 ∧ (s.deliver p srcIp).1.peerAddr = s.peerAddr ∧
      ((s.deliver p srcIp).1.sem = s.sem ∨ (s.deliver p srcIp).1.sem = s.sem.up) ∧
      ∀ q ∈ (s.deliver p srcIp).2, s.ToPeer q := by
  unfold deliver
  split
  · exact ⟨netReceive_rest, netReceive_sends s p.hdr srcIp p.payload⟩
  · exact ⟨⟨rfl, rfl, rfl, rfl, rfl⟩, rfl, Or.inl rfl, fun q hq => absurd hq not_mem_nil⟩

section

variable (hr : s.ref ≠ 0) (hp : s.FromPeer p) (hip : s.peerAddr.ip = htonl srcIp)

include hr hp hip

theorem deliver_ack (hfin : p.flags.fin = false) (hack : p.flags.ack = true) : s.deliver p srcIp =
    ((match s.tcpState with
      | .synRcvd => (s.setAckNo (p.seqNo + 1)).upSem
      | .established => (s.setAckNo (p.seqNo + 1)).upSem
      | .finWait1 => (s.setAckNo (p.seqNo + 1)).setTcpState .finWait2
      | .lastAck => (s.setAckNo (p.seqNo + 1)).setTcpState .closed
      | _ => s.setAckNo (p.seqNo + 1)), []) := by
  have hport : (s.setAckNo (p.seqNo + 1)).peerAddr.port = htons (ntohs p.hdr.srcPort) := by
    rw [htons_ntohs]
    exact hp.src.symm
  rw [deliver_live hr hp, netReceive_ack hfin hack, show ntohl p.hdr.seqNo = p.seqNo from ntohl_htonl _]
  unfold netReceiveAck
  rw [show (s.setAckNo (p.seqNo + 1)).peerAddr.ip = htonl srcIp from hip, hport, ntohl_htonl, ntohs_htons, if_neg (by simp)]
  change ((match s.tcpState with
      | .synRcvd => _
      | .established => _
      | .finWait1 => _
      | .lastAck => _
      | _ => _ : Int × StreamSocket).2, _) = _
  cases s.tcpState <;> rfl

end

theorem deliver_data (srcIp : Word) (hr : s.ref ≠ 0) (hp : s.FromPeer p) (hfin : p.flags.fin = false)
    (hack : p.flags.ack = false) (hconn : s.state = .connected) (hroom : p.payload.length ≤ s.buffer.left) :
    (s.deliver p srcIp).1.buffer = p.payload.foldl .putByte s.buffer ∧ (s.deliver p srcIp).1.sem = s.sem ∧
      (s.deliver p srcIp).1.tcpState = s.tcpState ∧
      ∃ k, (s.deliver p srcIp).2 = [k] ∧ k.flags.ack = true ∧ k.flags.fin = false ∧ k.ackNo = p.seqNo + 1 ∧ k.fits := by
  have hl : ¬(s.setAckNo (ntohl p.hdr.seqNo + 1)).buffer.left < p.payload.length := Nat.not_lt.mpr hroom
  rw [deliver_live hr hp, netReceive_data hfin hack, netReceiveData_room hl]
  generalize p.payload = data at hl
  unfold putData
  rw [if_neg hl, if_pos (show (s.setAckNo (ntohl p.hdr.seqNo + 1)).state = .connected from hconn)]
  refine ⟨rfl, rfl, rfl, _, rfl, rfl, rfl, ?_, TcpSend.fits_of_nil rfl⟩
  change ntohl (htonl p.seqNo) + 1 = p.seqNo + 1
  rw [ntohl_htonl]

theorem deliver_fin_finWait2 (hr : s.ref ≠ 0) (hp : s.FromPeer p) (hfin : p.flags.fin = true)
    (hst : s.tcpState = .finWait2) : s.deliver p srcIp = ((s.setAckNo (p.seqNo + 1)).upSem, []) := by
  rw [deliver_live hr hp, netReceive_fin hfin, show ntohl p.hdr.seqNo = p.seqNo from ntohl_htonl _]
  unfold netReceiveFin
  rw [show (s.setAckNo (p.seqNo + 1)).tcpState = .finWait2 from hst]

theorem deliver_fin_established (srcIp : Word) (hr : s.ref ≠ 0) (hp : s.FromPeer p)
    (hfin : p.flags.fin = true) (hst : s.tcpState = .established) :
      ∃ q q', (s.deliver p srcIp).2 = [q, q'] ∧ q.flags.fin = false ∧ q.flags.ack = true ∧ q'.flags.fin = true ∧
        q.fits ∧ q'.fits := by
  rw [deliver_live hr hp, netReceive_fin hfin]
  unfold netReceiveFin
  rw [show (s.setAckNo (ntohl p.hdr.seqNo + 1)).tcpState = .established from hst]
  exact ⟨_, _, rfl, rfl, rfl, rfl, TcpSend.fits_of_nil rfl, TcpSend.fits_of_nil rfl⟩

theorem deliver_established (hr : s.ref ≠ 0) (hp : s.FromPeer p)
    (h : (s.deliver p srcIp).1.tcpState = .established) : s.tcpState = .established ∧ p.flags.fin = false := by
  rw [deliver_live hr hp] at h
  generalize p.payload = data at h
  cases hfin : p.flags.fin
  · refine ⟨?_, rfl⟩
    cases hack : p.flags.ack
    · rw [netReceive_data hfin hack] at h
      by_cases hl : (s.setAckNo (ntohl p.hdr.seqNo + 1)).buffer.left < data.length
      · rw [netReceiveData_full hl] at h
        exact h
      · rw [netReceiveData_room hl] at h
        exact (putData_peerAddr (s.setAckNo (ntohl p.hdr.seqNo + 1)) data).2.2.symm.trans h
    · rw [netReceive_ack hfin hack] at h
      unfold netReceiveAck at h
      split at h
      · exact h
      · split at h
        · next hst => cases hst.symm.trans h
        · next hst => exact hst
        · cases h
        · cases h
        · exact h
  · exfalso
    rw [netReceive_fin hfin] at h
    unfold netReceiveFin at h
    split at h
    · next hst => cases hst.symm.trans h
    · next hst => cases hst.symm.trans h
    · cases h
    · cases h

theorem read_some {max : Nat} {x : Option (List Byte) × StreamSocket} (h : s.read max = some x) :
    ∃ r hr, s.buffer.getData (s.state = .connected) max = some (x.1, r) ∧
      x.2 = { s with buffer := r, space := hr } := by
  unfold read at h
  split at h
  · cases h
  · next y hy =>
    cases some.inj h
    exact ⟨y.2, _, hy, rfl⟩

theorem exec_sends {c : SockStmt} {x : StreamSocket × List TcpSend} (h : s.exec c = some x) :
    x.1.addr = s.addr ∧ x.1.peerAddr = s.peerAddr ∧ ∀ q ∈ x.2, s.ToPeer q := by
  cases c with
  | get max =>
    obtain ⟨y, hy, rfl⟩ := map_eq_some_iff.mp h
    obtain ⟨r, hr, -, he⟩ := read_some hy
    refine ⟨?_, ?_, fun q hq => absurd hq not_mem_nil⟩
    · change y.2.addr = _
      rw [he]
    · change y.2.peerAddr = _
      rw [he]
  | send data | ack | fin =>
    cases some.inj h
    refine ⟨rfl, rfl, ?_⟩
    intro q hq
    cases mem_singleton.mp hq
    exact transmit_toPeer rfl
  | setState st | down pid | free =>
    cases some.inj h
    exact ⟨rfl, rfl, fun q hq => absurd hq not_mem_nil⟩

end

end StreamSocket

theorem StreamTable.streamNetReceive_deliver {t : StreamTable} {i : StreamIx} {p : TcpSend} {srcIp : Word}
    (hsole : ∀ j, j ≠ i → ¬(t j).Addressed p.hdr) (hsyn : p.flags.syn = false) :
    ∃ r, t.streamNetReceive p.hdr srcIp p.payload =
      some (r, t.set i ((t i).deliver p srcIp).1, ((t i).deliver p srcIp).2) := by
  unfold StreamSocket.deliver
  by_cases ha : (t i).Addressed p.hdr
  · rw [if_pos (show _ ∧ _ from ha)]
    exact ⟨_, streamNetReceive_sole ha hsole (netReceive_of_not_syn hsyn)⟩
  · rw [if_neg (show ¬(_ ∧ _) from ha)]
    refine ⟨-1, ?_⟩
    have hnone : ∀ j, ¬(t j).Addressed p.hdr := by
      intro j
      by_cases hj : j = i
      · subst hj
        exact ha
      · exact hsole j hj
    have hset : t.set i (t i) = t := update_eq_self i t
    rw [hset]
    unfold streamNetReceive
    induction List.finRange 128 with
    | nil => rfl
    | cons j js ih => rw [receiveLoop_skip (hnone j), ih]

/-- Two sockets on two hosts, with the segments that are on their way to each of them. -/
structure Link where
  sock : Bool → StreamSocket
  ip : Bool → Word
  chan : Bool → List TcpSend

namespace Link

/-- One end goes on to another state and sends some segments, of which too large ones never leave it. -/
def put (l : Link) (e : Bool) (s : StreamSocket) (out : List TcpSend) : Link :=
  ⟨update l.sock e s, l.ip, update l.chan (!e) (l.chan (!e) ++ out.filter TcpSend.fits)⟩

def setChan (l : Link) (e : Bool) (ps : List TcpSend) : Link := { l with chan := update l.chan e ps }

def exec (l : Link) (e : Bool) (c : SockStmt) : Option Link :=
  ((l.sock e).exec c).map fun x => l.put e x.1 x.2

def deliver (l : Link) (e : Bool) : Option Link :=
  match l.chan e with
  | [] => none
  | p :: ps =>
    let x := (l.sock e).deliver p (l.ip (!e))
    some ((l.setChan e ps).put e x.1 x.2)

structure Linked (l : Link) : Prop where
  peer : ∀ e, (l.sock e).peerAddr = ⟨htonl (l.ip (!e)), (l.sock (!e)).addr.port⟩
  seg : ∀ e, ∀ p ∈ l.chan e, (l.sock e).FromPeer p

section

variable {l l' : Link} {e : Bool} {s : StreamSocket} {out : List TcpSend}

theorem put_sock_self : (l.put e s out).sock e = s := by
  simp only [put, update_self]

theorem put_sock_not : (l.put e s out).sock (!e) = l.sock (!e) := by
  simp only [put, update_of_ne (Bool.not_ne_self e)]

theorem put_chan_self : (l.put e s out).chan e = l.chan e := by
  simp only [put, update_of_ne (Bool.not_ne_self e).symm]

theorem put_chan_not : (l.put e s out).chan (!e) = l.chan (!e) ++ out.filter TcpSend.fits := by
  simp only [put, update_self]

variable {ps : List TcpSend}

theorem setChan_self : (l.setChan e ps).chan e = ps := by
  simp only [setChan, update_self]

theorem setChan_not : (l.setChan e ps).chan (!e) = l.chan (!e) := by
  simp only [setChan, update_of_ne (Bool.not_ne_self e)]

theorem forall_end {P : Bool → Prop} (e : Bool) : (∀ d, P d) ↔ P e ∧ P (!e) := by
  cases e
  · exact Bool.forall_bool
  · rw [Bool.forall_bool, and_comm]
    rfl

theorem Linked.put (h : l.Linked) (ha : s.addr = (l.sock e).addr) (hp : s.peerAddr = (l.sock e).peerAddr)
    (hout : ∀ q ∈ out, (l.sock e).ToPeer q) : (l.put e s out).Linked := by
  have he := h.peer e
  have hne := h.peer (!e)
  rw [Bool.not_not] at hne
  refine ⟨(forall_end e).mpr ⟨?_, ?_⟩, (forall_end e).mpr ⟨?_, ?_⟩⟩
  · rw [put_sock_self, put_sock_not, hp, he]
    rfl
  · rw [put_sock_not, Bool.not_not, put_sock_self, ha, hne]
    rfl
  · intro p hm
    rw [put_chan_self] at hm
    have hs := h.seg e p hm
    rw [put_sock_self]
    exact ⟨hs.dst.trans (by rw [ha]), hs.src.trans (by rw [hp]), hs.syn⟩
  · intro p hm
    rw [put_chan_not] at hm
    rw [put_sock_not]
    rcases mem_append.mp hm with hm | hm
    · exact h.seg (!e) p hm
    · have hs := hout p (mem_of_mem_filter hm)
      exact ⟨hs.dst.trans (by rw [he]), hs.src.trans (by rw [hne]), hs.syn⟩

theorem Linked.exec {c : SockStmt} (h : l.Linked) (hx : l.exec e c = some l') : l'.Linked := by
  obtain ⟨x, hs, rfl⟩ := map_eq_some_iff.mp hx
  obtain ⟨ha, hp, hout⟩ := StreamSocket.exec_sends hs
  exact h.put ha hp hout

theorem deliver_some (hl : l.deliver e = some l') : ∃ p ps, l.chan e = p :: ps ∧
    l' = (l.setChan e ps).put e ((l.sock e).deliver p (l.ip (!e))).1
      ((l.sock e).deliver p (l.ip (!e))).2 := by
  unfold deliver at hl
  split at hl
  · cases hl
  · next p ps hc => exact ⟨p, ps, hc, (some.inj hl).symm⟩

theorem Linked.tail {p : TcpSend} (h : l.Linked) (hc : l.chan e = p :: ps) : (l.setChan e ps).Linked := by
  refine ⟨h.peer, (forall_end e).mpr ⟨?_, ?_⟩⟩
  · intro q hq
    rw [setChan_self] at hq
    exact h.seg e q (by rw [hc]; exact mem_cons_of_mem p hq)
  · intro q hq
    rw [setChan_not] at hq
    exact h.seg (!e) q hq

theorem Linked.deliver (h : l.Linked) (hl : l.deliver e = some l') : l'.Linked := by
  obtain ⟨p, ps, hc, rfl⟩ := deliver_some hl
  obtain ⟨hr, hp, -, hs⟩ := StreamSocket.deliver_sends (l.sock e) p (l.ip (!e))
  exact (h.tail hc).put hr.addr hp hs

end

def twoHosts : Link where
  ip e := if e then 0x0a000204 else 0x0a000203
  chan _ := []
  sock e :=
    let here : SockAddr := ⟨htonl 0x0a000203, htons 4096⟩
    let there : SockAddr := ⟨htonl 0x0a000204, htons 80⟩
    { StreamSocket.create fun _ => 0 with
      tcpState := .established
      state := .connected
      addr := if e then there else here
      peerAddr := if e then here else there }

theorem twoHosts_linked : twoHosts.Linked :=
  ⟨fun e => by cases e <;> rfl, fun e p hp => absurd hp not_mem_nil⟩

end Link

end BabyOS
