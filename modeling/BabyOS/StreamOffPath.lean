import BabyOS.StreamReceive
import BabyOS.Runs

open Option

namespace BabyOS

namespace StreamSocket

structure SameView (s s' : StreamSocket) : Prop where
  tcpState : s'.tcpState = s.tcpState
  ackNo : s'.ackNo = s.ackNo
  peerAddr : s'.peerAddr = s.peerAddr
  buffer : s'.buffer = s.buffer
  sem : s'.sem = s.sem

section

variable {s : StreamSocket} {hdr : TcpHdr} {srcIp : Word} {data : List Byte}

theorem sameView_refl (s : StreamSocket) : s.SameView s := ⟨rfl, rfl, rfl, rfl, rfl⟩

theorem putData_same : (s.putData data).2.buffer = s.buffer ↔
    data = [] ∨ s.buffer.left < data.length ∨ s.state ≠ .connected := by
  unfold putData
  by_cases hl : s.buffer.left < data.length
  · simp [hl]
  · by_cases hc : s.state = .connected
    · rw [if_neg hl, if_pos hc]
      constructor
      · intro h
        have hb : data.foldl SockRingBuffer.putByte s.buffer = s.buffer := h
        have hleft := SockRingBuffer.foldl_putByte_left s.buffer data
        rw [hb] at hleft
        have hz : data.length = 0 := by omega
        exact Or.inl (List.length_eq_zero_iff.mp hz)
      · rintro (rfl | h | h)
        · rfl
        · exact absurd h hl
        · exact absurd hc h
    · simp [hl, hc]

theorem putData_view (s : StreamSocket) (data : List Byte) (h : (s.putData data).2.buffer = s.buffer) :
    s.SameView (s.putData data).2 := by
  refine ⟨?_, ?_, ?_, h, ?_⟩ <;> unfold putData <;> split
  all_goals first | rfl | split <;> rfl

theorem sameView_setAckNo {n : Word} : s.SameView (s.setAckNo n) ↔ n = s.ackNo := by
  constructor
  · intro h
    exact h.ackNo
  · intro h
    exact ⟨rfl, h, rfl, rfl, rfl⟩

theorem netReceiveData_sameView (h : s.ackNo = ntohl hdr.seqNo + 1) :
    s.SameView (s.netReceiveData hdr data).2.1 ↔
      data = [] ∨ s.buffer.left < data.length ∨ s.state ≠ .connected := by
  by_cases hl : s.buffer.left < data.length
  · rw [netReceiveData_full hl]
    exact iff_of_true (sameView_refl s) (Or.inr (Or.inl hl))
  · rw [netReceiveData_room hl, ← putData_same]
    constructor
    · intro hv
      exact hv.buffer
    · intro hb
      obtain ⟨h1, -, h3, h4, h5⟩ := putData_view s data hb
      exact ⟨h1, h.symm, h3, h4, h5⟩

theorem netReceive_ackNo : (s.netReceive hdr srcIp (ntohs hdr.srcPort) data).2.1.ackNo = ntohl hdr.seqNo + 1 := by
  cases hfin : hdr.flags.fin
  · cases hack : hdr.flags.ack
    · rw [netReceive_data hfin hack]
      by_cases hl : (s.setAckNo (ntohl hdr.seqNo + 1)).buffer.left < data.length
      · rw [netReceiveData_full hl]
        rfl
      · rw [netReceiveData_room hl]
        rfl
    · rw [netReceive_ack hfin hack]
      unfold netReceiveAck
      split
      · rfl
      · split <;> rfl
  · rw [netReceive_fin hfin]
    unfold netReceiveFin
    split <;> rfl

theorem netReceive_sameView (hest : s.tcpState = .established) (hoff : s.OffPath hdr srcIp) :
    s.SameView (s.netReceive hdr srcIp (ntohs hdr.srcPort) data).2.1 ↔
      ntohl hdr.seqNo + 1 = s.ackNo ∧ hdr.flags.fin = false ∧
        (hdr.flags.ack = true ∨ data = [] ∨ s.buffer.left < data.length ∨ s.state ≠ .connected) := by
  by_cases hn : ntohl hdr.seqNo + 1 = s.ackNo
  swap
  · constructor
    · intro h
      exact absurd (netReceive_ackNo.symm.trans h.ackNo) hn
    · intro h
      exact absurd h.1 hn
  cases hfin : hdr.flags.fin
  · cases hack : hdr.flags.ack
    · rw [netReceive_data hfin hack, setAckNo_self hn, netReceiveData_sameView hn.symm]
      exact ⟨fun h => ⟨hn, rfl, Or.inr h⟩, fun h => h.2.2.resolve_left Bool.false_ne_true⟩
    · have hs : (s.netReceiveAck srcIp (ntohs hdr.srcPort)).2 = s := by
        unfold netReceiveAck
        rw [if_pos (show _ ∨ _ from hoff)]
      rw [netReceive_ack hfin hack, setAckNo_self hn, hs]
      exact ⟨fun _ => ⟨hn, rfl, Or.inl rfl⟩, fun _ => ⟨rfl, rfl, rfl, rfl, rfl⟩⟩
  · have hs : (s.netReceiveFin hdr).2.1.tcpState = .lastAck := by
      unfold netReceiveFin
      rw [hest]
      rfl
    rw [netReceive_fin hfin, setAckNo_self hn]
    constructor
    · intro h
      have ht := h.tcpState
      rw [hs, hest] at ht
      cases ht
    · intro h
      cases h.2.1

end

end StreamSocket

namespace StreamTable

open StreamSocket

structure Quiet (t : StreamTable) (i : StreamIx) (hdr : TcpHdr) (srcIp : Word) (data : List Byte) : Prop where
  own : t.Reached i hdr srcIp data → ntohl hdr.seqNo + 1 = (t i).ackNo ∧
    (hdr.flags.syn = true ∨ hdr.flags.fin = false ∧ (hdr.flags.ack = true ∨ data = [] ∨
      (t i).buffer.left < data.length ∨ (t i).state ≠ .connected))
  dup : ∀ j < i, t.Reached j hdr srcIp data → (t j).Addressed hdr → (t j).Accepts hdr srcIp data →
    hdr.flags.syn = true → hdr.flags.ack = false → (t j).dupSocket = some i →
      ntohl hdr.seqNo + 1 = (t i).ackNo

section

variable {t : StreamTable} {i j : StreamIx} {hdr : TcpHdr} {srcIp : Word} {data : List Byte}

theorem not_accepts_syn (hest : (t i).tcpState = .established) (hsyn : hdr.flags.syn = true) :
    ¬(t i).Accepts hdr srcIp data := by
  rw [Accepts, if_pos hsyn, hest]
  cases hdr.flags.ack <;> decide

variable {x : Int × StreamTable × List TcpSend}

theorem streamNetReceive_own (h : t.Reached i hdr srcIp data)
    (ha : (t i).Addressed hdr) (hest : (t i).tcpState = .established)
    (hx : t.streamNetReceive hdr srcIp data = some x) :
    x.2.1 i = if hdr.flags.syn then (t i).setAckNo (ntohl hdr.seqNo + 1)
      else ((t i).netReceive hdr srcIp (ntohs hdr.srcPort) data).2.1 := by
  obtain ⟨t', back, out, hb, hti, -, hs⟩ := streamNetReceive_reached h ha
  rw [hs] at hx
  obtain ⟨y, hy, rfl⟩ := map_eq_some_iff.mp hx
  cases hsyn : hdr.flags.syn
  · rw [netReceive_of_not_syn hsyn, bind_some, hti] at hy
    rw [if_neg Bool.false_ne_true]
    split at hy
    · cases some.inj hy
      exact set_self t' i _
    · obtain ⟨z, hz, rfl⟩ := map_eq_some_iff.mp hy
      exact receiveLoop_acked (x := z) hb netReceive_ackNo hz
  · rw [netReceive_syn_reject hsyn (by rw [hti]; exact not_accepts_syn hest hsyn), bind_some,
      if_neg (show ¬(-1 : Int) = 0 by decide), hti] at hy
    rw [if_pos rfl]
    obtain ⟨z, hz, rfl⟩ := map_eq_some_iff.mp hy
    exact receiveLoop_acked (x := z) hb rfl hz

theorem sameView_iff_quiet (hest : (t i).tcpState = .established)
    (ha : (t i).Addressed hdr) (hoff : (t i).OffPath hdr srcIp) (hx : t.streamNetReceive hdr srcIp data = some x) :
    (t i).SameView (x.2.1 i) ↔ t.Quiet i hdr srcIp data := by
  by_cases hr : t.Reached i hdr srcIp data
  · have hdup : ∀ {P : Prop}, ∀ j < i, (t j).Addressed hdr → (t j).Accepts hdr srcIp data → P :=
      fun j hj hja hjc => absurd hjc (hr j hj hja)
    rw [streamNetReceive_own hr ha hest hx]
    cases hsyn : hdr.flags.syn
    · rw [if_neg Bool.false_ne_true, netReceive_sameView hest hoff]
      constructor
      · intro h
        exact ⟨fun _ => ⟨h.1, Or.inr h.2⟩, fun j hj _ hja hjc => hdup j hj hja hjc⟩
      · intro h
        obtain ⟨h1, h2⟩ := h.own hr
        exact ⟨h1, h2.resolve_left (Bool.eq_false_iff.mp hsyn)⟩
    · rw [if_pos rfl, sameView_setAckNo]
      constructor
      · intro h
        exact ⟨fun _ => ⟨h, Or.inl hsyn⟩, fun j hj _ hja hjc => hdup j hj hja hjc⟩
      · intro h
        exact (h.own hr).1
  · obtain ⟨j, hj, hjr, hja, hjc⟩ := exists_taken hr
    rw [streamNetReceive_taken hjr hja hjc hj hx]
    split
    · next hd =>
      rw [sameView_setAckNo]
      constructor
      · intro h
        exact ⟨fun h' => absurd h' hr, fun _ _ _ _ _ _ _ _ => h⟩
      · intro h
        exact h.dup j hj hjr hja hjc hd.1 hd.2.1 hd.2.2
    · next hd =>
      refine iff_of_true (sameView_refl _) ⟨fun h' => absurd h' hr, ?_⟩
      intro k hk hkr hka hkc hsyn hack hkd
      have hkj : k = j := by
        rcases lt_trichotomy k j with hlt | heq | hgt
        · exact absurd hkc (hjr k hlt hka)
        · exact heq
        · exact absurd hjc (hkr j hgt hja)
      subst hkj
      exact absurd ⟨hsyn, hack, hkd⟩ hd

end

end StreamTable

def StreamSocket.Alike (s s' : StreamSocket) : Prop := ∃ n, s' = s.setSeqNo n

namespace StreamSocket

section

variable {s s' : StreamSocket} {hdr : TcpHdr} {srcIp : Word} {data : List Byte}

theorem Alike.refl (s : StreamSocket) : s.Alike s := ⟨s.seqNo, rfl⟩

theorem Alike.symm (h : s.Alike s') : s'.Alike s := by
  obtain ⟨n, rfl⟩ := h
  exact ⟨s.seqNo, rfl⟩

theorem Alike.trans {s'' : StreamSocket} (h : s.Alike s') (h' : s'.Alike s'') : s.Alike s'' := by
  obtain ⟨n, rfl⟩ := h
  obtain ⟨m, rfl⟩ := h'
  exact ⟨m, rfl⟩

theorem Alike.sameView (h : s.Alike s') : s.SameView s' := by
  obtain ⟨n, rfl⟩ := h
  exact ⟨rfl, rfl, rfl, rfl, rfl⟩

theorem SameRest.alike (h : s.SameRest s') (hv : s.SameView s') : s.Alike s' := by
  obtain ⟨h1, h2, h3, h4, h5⟩ := h
  obtain ⟨v1, v2, v3, v4, v5⟩ := hv
  refine ⟨s'.seqNo, ?_⟩
  cases s
  cases s'
  simp only at h1 h2 h3 h4 h5 v1 v2 v3 v4 v5
  subst h1 h2 h3 h4 h5 v1 v2 v3 v4 v5
  rfl

theorem putData_setSeqNo (s : StreamSocket) (n : Word) (data : List Byte) :
    (s.setSeqNo n).putData data = ((s.putData data).1, (s.putData data).2.setSeqNo n) := by
  unfold putData
  by_cases hl : s.buffer.left < data.length
  · rw [if_pos hl, if_pos (show (s.setSeqNo n).buffer.left < _ from hl)]
  · rw [if_neg hl, if_neg (show ¬(s.setSeqNo n).buffer.left < _ from hl)]
    by_cases hc : s.state = .connected
    · rw [if_pos hc, if_pos (show (s.setSeqNo n).state = _ from hc)]
      rfl
    · rw [if_neg hc, if_neg (show ¬(s.setSeqNo n).state = _ from hc)]

section

variable (h : s.Alike s')
include h

theorem Alike.netReceiveData : (s'.netReceiveData hdr data).1 = (s.netReceiveData hdr data).1 ∧
    (s.netReceiveData hdr data).2.1.Alike (s'.netReceiveData hdr data).2.1 := by
  obtain ⟨n, rfl⟩ := h
  unfold StreamSocket.netReceiveData
  rw [putData_setSeqNo]
  by_cases hput : (s.putData data).1 < 0
  · rw [if_pos hput, if_pos hput]
    exact ⟨rfl, n, rfl⟩
  · rw [if_neg hput, if_neg hput]
    exact ⟨rfl, n + 1, rfl⟩

theorem Alike.netReceiveAck {srcPort : Half} :
    (s'.netReceiveAck srcIp srcPort).1 = (s.netReceiveAck srcIp srcPort).1 ∧
      (s.netReceiveAck srcIp srcPort).2.Alike (s'.netReceiveAck srcIp srcPort).2 := by
  obtain ⟨n, rfl⟩ := h
  unfold StreamSocket.netReceiveAck
  by_cases hp : ntohl s.peerAddr.ip ≠ srcIp ∨ ntohs s.peerAddr.port ≠ srcPort
  · rw [if_pos hp, if_pos (by exact hp)]
    exact ⟨rfl, n, rfl⟩
  · rw [if_neg hp, if_neg (by exact hp), show (s.setSeqNo n).tcpState = s.tcpState from rfl]
    cases s.tcpState <;> exact ⟨rfl, n, rfl⟩

theorem Alike.setAckNo (n : Word) : (s.setAckNo n).Alike (s'.setAckNo n) := by
  obtain ⟨m, rfl⟩ := h
  exact ⟨m, rfl⟩

theorem Alike.netReceive :
    (s'.netReceive hdr srcIp (ntohs hdr.srcPort) data).1 = (s.netReceive hdr srcIp (ntohs hdr.srcPort) data).1 ∧
      (s.netReceive hdr srcIp (ntohs hdr.srcPort) data).2.1.Alike
        (s'.netReceive hdr srcIp (ntohs hdr.srcPort) data).2.1 := by
  have ha := h.setAckNo (ntohl hdr.seqNo + 1)
  cases hfin : hdr.flags.fin
  · cases hack : hdr.flags.ack
    · rw [netReceive_data hfin hack, netReceive_data hfin hack]
      exact ha.netReceiveData
    · rw [netReceive_ack hfin hack, netReceive_ack hfin hack]
      exact ha.netReceiveAck
  · rw [netReceive_fin hfin, netReceive_fin hfin]
    obtain ⟨n, hn⟩ := ha
    rw [hn]
    unfold StreamSocket.netReceiveFin
    rw [show ((s.setAckNo (ntohl hdr.seqNo + 1)).setSeqNo n).tcpState = s.tcpState from rfl,
      show (s.setAckNo (ntohl hdr.seqNo + 1)).tcpState = s.tcpState from rfl]
    cases s.tcpState <;> exact ⟨rfl, _, rfl⟩

theorem Alike.read {max : Nat} {x : Option (List Byte) × StreamSocket}
    (hx : s.read max = some x) : ∃ x', s'.read max = some x' ∧ x.2.Alike x'.2 := by
  obtain ⟨n, rfl⟩ := h
  unfold StreamSocket.read at hx
  split at hx
  · cases hx
  · next y hy =>
    cases some.inj hx
    refine ⟨(y.1, _), ?_, n, rfl⟩
    unfold StreamSocket.read
    split
    · next h0 => cases hy.symm.trans h0
    · next z hz =>
      cases some.inj (hy.symm.trans hz)
      rfl

theorem Alike.exec {c : SockStmt} {x : StreamSocket × List TcpSend}
    (hx : s.exec c = some x) : ∃ x', s'.exec c = some x' ∧ x.1.Alike x'.1 := by
  cases c with
  | get max =>
    obtain ⟨y, hy, rfl⟩ := map_eq_some_iff.mp hx
    obtain ⟨y', hy', ha⟩ := h.read hy
    exact ⟨_, by rw [StreamSocket.exec, hy']; rfl, ha⟩
  | send data | ack | fin | setState st | down pid | free =>
    obtain ⟨n, rfl⟩ := h
    cases some.inj hx
    exact ⟨_, rfl, _, rfl⟩

end

end

end StreamSocket

def StreamTable.Alike (t t' : StreamTable) : Prop := ∀ i, (t i).Alike (t' i)

namespace StreamTable

section

variable {t t' : StreamTable} {i : StreamIx} {hdr : TcpHdr} {srcIp : Word} {data : List Byte}

theorem Alike.set {s s' : StreamSocket} (h : t.Alike t') (i : StreamIx) (hs : s.Alike s') :
    (t.set i s).Alike (t'.set i s') := by
  intro j
  by_cases hj : j = i
  · subst hj
    rw [set_self, set_self]
    exact hs
  · rw [set_of_ne hj, set_of_ne hj]
    exact h j

theorem Alike.queueSyn {dup : StreamIx} {addr : SockAddr} {a : Word} (h : t.Alike t') :
    (t.queueSyn i dup addr a).Alike (t'.queueSyn i dup addr a) := by
  have hpush : ((t i).pushConnecting addr).Alike ((t' i).pushConnecting addr) := by
    obtain ⟨n, hn⟩ := h i
    exact ⟨n, by rw [hn]; rfl⟩
  have hserver := h.set i hpush
  have hdup := hserver.set dup ((hserver dup).setAckNo a)
  refine hdup.set i ?_
  obtain ⟨n, hn⟩ := hdup i
  exact ⟨n, by rw [hn]; rfl⟩

theorem Alike.netReceiveSyn {srcPort : Half} {x : Int × StreamTable} (h : t.Alike t')
    (hx : t.netReceiveSyn i hdr srcIp srcPort = some x) :
    ∃ x', t'.netReceiveSyn i hdr srcIp srcPort = some x' ∧ x'.1 = x.1 ∧ x.2.Alike x'.2 := by
  obtain ⟨n, hn⟩ := h i
  have hst : (t' i).tcpState = (t i).tcpState := by
    rw [hn]
    rfl
  by_cases hc : (t i).tcpState = if hdr.flags.ack then .synSent else .listen
  · cases hack : hdr.flags.ack
    · rw [hack, if_neg Bool.false_ne_true] at hc
      rw [netReceiveSyn_listen hack hc] at hx
      obtain ⟨dup, hd, rfl⟩ := map_eq_some_iff.mp hx
      have hd' : (t' i).dupSocket = some dup := by
        rw [hn]
        exact hd
      rw [netReceiveSyn_listen hack (hst.trans hc), hd']
      exact ⟨_, rfl, rfl, h.queueSyn⟩
    · rw [hack, if_pos rfl] at hc
      rw [netReceiveSyn_synSent hack hc] at hx
      cases some.inj hx
      rw [netReceiveSyn_synSent hack (hst.trans hc)]
      refine ⟨_, rfl, rfl, h.set i ⟨n, ?_⟩⟩
      rw [hn]
      rfl
  · rw [netReceiveSyn_reject hc] at hx
    cases some.inj hx
    rw [netReceiveSyn_reject (by rw [hst]; exact hc)]
    exact ⟨_, rfl, rfl, h⟩

variable {x : Int × StreamTable × List TcpSend}

theorem Alike.netReceive (h : t.Alike t') (hx : t.netReceive i hdr srcIp (ntohs hdr.srcPort) data = some x) :
    ∃ x', t'.netReceive i hdr srcIp (ntohs hdr.srcPort) data = some x' ∧ x'.1 = x.1 ∧ x.2.1.Alike x'.2.1 := by
  cases hsyn : hdr.flags.syn
  · rw [netReceive_of_not_syn hsyn] at hx
    cases some.inj hx
    rw [netReceive_of_not_syn hsyn]
    obtain ⟨h1, h2⟩ := (h i).netReceive
    exact ⟨_, rfl, h1, h.set i h2⟩
  · rw [netReceive_of_syn hsyn] at hx
    obtain ⟨y, hy, rfl⟩ := map_eq_some_iff.mp hx
    obtain ⟨y', hy', h1, h2⟩ := (h.set i ((h i).setAckNo (ntohl hdr.seqNo + 1))).netReceiveSyn hy
    rw [netReceive_of_syn hsyn, hy']
    exact ⟨_, rfl, h1, h2⟩

theorem Alike.receiveLoop {is : List StreamIx} (h : t.Alike t') (hx : receiveLoop hdr srcIp data is t = some x) :
    ∃ x', receiveLoop hdr srcIp data is t' = some x' ∧ x.2.1.Alike x'.2.1 := by
  induction is generalizing t t' x with
  | nil =>
    cases some.inj hx
    exact ⟨_, rfl, h⟩
  | cons i is ih =>
    have hadr : (t i).Addressed hdr ↔ (t' i).Addressed hdr := by
      obtain ⟨n, hn⟩ := h i
      rw [hn]
      exact Iff.rfl
    by_cases ha : (t i).Addressed hdr
    · rw [receiveLoop_addressed ha] at hx
      rw [receiveLoop_addressed (hadr.mp ha)]
      obtain ⟨y, hy, hxy⟩ := bind_eq_some_iff.mp hx
      obtain ⟨y', hy', h1, h2⟩ := h.netReceive hy
      rw [hy', bind_some, h1]
      by_cases h0 : y.1 = 0
      · rw [if_pos h0] at hxy
        cases some.inj hxy
        rw [if_pos h0]
        exact ⟨_, rfl, h2⟩
      · rw [if_neg h0] at hxy
        obtain ⟨z, hz, rfl⟩ := map_eq_some_iff.mp hxy
        obtain ⟨z', hz', h3⟩ := ih h2 hz
        rw [if_neg h0, hz']
        exact ⟨_, rfl, h3⟩
    · rw [receiveLoop_skip ha] at hx
      rw [receiveLoop_skip (mt hadr.mpr ha)]
      exact ih h hx

end

inductive Act where
  | segment (hdr : TcpHdr) (srcIp : Word) (data : List Byte)
  | stmt (i : StreamIx) (c : SockStmt)

def step (t : StreamTable) : Act → Option StreamTable
  | .segment hdr srcIp data => (t.streamNetReceive hdr srcIp data).map fun x => x.2.1
  | .stmt i c => ((t i).exec c).map fun x => t.set i x.1

/-- The second run is the first with quiet off-path segments added, which no other socket has the port for. -/
inductive Inserted (i : StreamIx) : StreamTable → List Act → List Act → Prop where
  | nil (t : StreamTable) : Inserted i t [] []
  | keep {t t' : StreamTable} {a : Act} {as bs : List Act} : t.step a = some t' → Inserted i t' as bs →
      Inserted i t (a :: as) (a :: bs)
  | insert {t t' : StreamTable} {hdr : TcpHdr} {srcIp : Word} {data : List Byte} {as bs : List Act} :
      (t i).tcpState = .established → (t i).Addressed hdr → (∀ j, j ≠ i → ¬(t j).Addressed hdr) →
      (t i).OffPath hdr srcIp → t.Quiet i hdr srcIp data → t.step (.segment hdr srcIp data) = some t' →
      Inserted i t' as bs → Inserted i t as (.segment hdr srcIp data :: bs)

section

variable {t t' u : StreamTable} {i : StreamIx} {hdr : TcpHdr} {srcIp : Word} {data : List Byte}

theorem Alike.step {a : Act} (h : t.Alike t') (hu : t.step a = some u) :
    ∃ u', t'.step a = some u' ∧ u.Alike u' := by
  cases a with
  | segment hdr srcIp data =>
    obtain ⟨x, hx, rfl⟩ := map_eq_some_iff.mp hu
    obtain ⟨x', hx', hl⟩ := h.receiveLoop hx
    exact ⟨x'.2.1, map_eq_some_iff.mpr ⟨x', hx', rfl⟩, hl⟩
  | stmt i c =>
    obtain ⟨x, hx, rfl⟩ := map_eq_some_iff.mp hu
    obtain ⟨x', hx', hl⟩ := (h i).exec hx
    exact ⟨t'.set i x'.1, map_eq_some_iff.mpr ⟨x', hx', rfl⟩, h.set i hl⟩

theorem Alike.symm (h : t.Alike t') : t'.Alike t := fun i => (h i).symm

theorem Alike.trans (h : t.Alike t') (h' : t'.Alike u) : t.Alike u := fun i => (h i).trans (h' i)

theorem alike_set {s : StreamSocket} (h : (t i).Alike s) : t.Alike (t.set i s) := by
  intro j
  by_cases hj : j = i
  · subst hj
    rw [set_self]
    exact h
  · rw [set_of_ne hj]
    exact StreamSocket.Alike.refl _

theorem quiet_alike (hest : (t i).tcpState = .established) (ha : (t i).Addressed hdr)
    (hsole : ∀ j, j ≠ i → ¬(t j).Addressed hdr) (hoff : (t i).OffPath hdr srcIp)
    (hq : t.Quiet i hdr srcIp data) (hu : t.step (.segment hdr srcIp data) = some u) : t.Alike u := by
  have hr : t.Reached i hdr srcIp data := fun j hj hja => absurd hja (hsole j (ne_of_lt hj))
  obtain ⟨hn, hc⟩ := hq.own hr
  obtain ⟨x, hx, rfl⟩ := map_eq_some_iff.mp hu
  cases hsyn : hdr.flags.syn
  · rw [streamNetReceive_sole ha hsole (netReceive_of_not_syn hsyn)] at hx
    cases some.inj hx
    rw [hsyn] at hc
    exact alike_set (StreamSocket.netReceive_rest.alike
      ((StreamSocket.netReceive_sameView hest hoff).mpr ⟨hn, hc.resolve_left Bool.false_ne_true⟩))
  · rw [streamNetReceive_sole ha hsole (netReceive_syn_reject hsyn (not_accepts_syn hest hsyn))] at hx
    cases some.inj hx
    rw [StreamSocket.setAckNo_self hn]
    exact alike_set (StreamSocket.Alike.refl _)

theorem Inserted.run_alike {as bs : List Act} (h : Inserted i t as bs) (ht : t.Alike t') :
    ∃ u v, run step t bs = some u ∧ run step t' as = some v ∧ v.Alike u := by
  induction h generalizing t' with
  | nil t => exact ⟨t, t', rfl, rfl, ht.symm⟩
  | keep hs _ ih =>
    obtain ⟨w, hw, hl⟩ := ht.step hs
    obtain ⟨u, v, hu, hv, huv⟩ := ih hl
    exact ⟨u, v, run_step hs hu, run_step hw hv, huv⟩
  | insert hest ha hsole hoff hq hs _ ih =>
    obtain ⟨u, v, hu, hv, huv⟩ := ih ((quiet_alike hest ha hsole hoff hq hs).symm.trans ht)
    exact ⟨u, v, run_step hs hu, hv, huv⟩

end

/-- A segment from elsewhere leaves an established socket as it is exactly when it is quiet, and a run with such
segments looks to the socket like the run without them. -/
theorem offPath_unfelt (i : StreamIx) :
    (∀ (t : StreamTable) (hdr : TcpHdr) (srcIp : Word) (data : List Byte) (x : Int × StreamTable × List TcpSend),
      (t i).tcpState = .established → (t i).Addressed hdr → (t i).OffPath hdr srcIp →
      t.streamNetReceive hdr srcIp data = some x →
        ((t i).SameView (x.2.1 i) ↔ t.Quiet i hdr srcIp data)) ∧
    ∀ (t : StreamTable) (as bs : List Act), Inserted i t as bs →
      ∃ u v, run step t bs = some u ∧ run step t as = some v ∧ (v i).SameView (u i) := by
  refine ⟨fun t hdr srcIp data x hest ha hoff hx => sameView_iff_quiet hest ha hoff hx, ?_⟩
  intro t as bs h
  obtain ⟨u, v, hu, hv, huv⟩ := h.run_alike fun j => StreamSocket.Alike.refl (t j)
  exact ⟨u, v, hu, hv, (huv i).sameView⟩

def oneConnected : StreamTable := fun i =>
  let s := StreamSocket.create fun _ => 0
  if i = 0 then
    { s with
      tcpState := .established
      state := .connected
      addr := ⟨htonl 0x0a000203, htons 4096⟩
      peerAddr := ⟨htonl 0x0a000204, htons 80⟩
      ackNo := 1 }
  else { s with ref := 0 }

def strayHdr (seqNo : Word) (flags : TcpFlags) : TcpHdr := ⟨htons 80, htons 4096, htonl seqNo, 0, flags⟩

theorem oneConnected_sole {hdr : TcpHdr} (j : StreamIx) (hj : j ≠ 0) : ¬(oneConnected j).Addressed hdr := by
  intro h
  apply h.1
  unfold oneConnected
  rw [if_neg hj]

theorem quiet_ack : oneConnected.Quiet 0 (strayHdr 0 { ack := true }) 0x0a000205 [] where
  own _ := ⟨by decide, Or.inr ⟨rfl, Or.inl rfl⟩⟩
  dup j hj := absurd hj (Nat.not_lt_zero j.val)

/-- An ACK with the right sequence number from 10.0.2.5 is not felt, at once or by a later `down`. -/
theorem offPath_unfelt_ack :
    (∃ x, oneConnected.streamNetReceive (strayHdr 0 { ack := true }) 0x0a000205 [] = some x ∧
      (oneConnected 0).SameView (x.2.1 0)) ∧
    ∃ u v, run step oneConnected [.segment (strayHdr 0 { ack := true }) 0x0a000205 [], .stmt 0 (.down 1)] = some u ∧
      run step oneConnected [.stmt 0 (.down 1)] = some v ∧ (v 0).SameView (u 0) := by
  have ha : (oneConnected 0).Addressed (strayHdr 0 { ack := true }) := ⟨by decide, by decide⟩
  have hoff : (oneConnected 0).OffPath (strayHdr 0 { ack := true }) 0x0a000205 := Or.inl (by decide)
  obtain ⟨hone, hrun⟩ := offPath_unfelt 0
  refine ⟨⟨_, rfl, (hone _ _ _ _ _ rfl ha hoff rfl).mpr quiet_ack⟩, hrun _ _ _ ?_⟩
  exact .insert rfl ha oneConnected_sole hoff quiet_ack rfl (.keep rfl (.nil _))

/-- A FIN from 10.0.2.5 ends the connection with 10.0.2.4. -/
theorem offPath_fin_closes : ∃ x, (oneConnected 0).tcpState = .established ∧
    (oneConnected 0).Addressed (strayHdr 7 { fin := true }) ∧
    (oneConnected 0).OffPath (strayHdr 7 { fin := true }) 0x0a000205 ∧
    oneConnected.streamNetReceive (strayHdr 7 { fin := true }) 0x0a000205 [] = some x ∧
    (x.2.1 0).tcpState = .lastAck ∧ (x.2.1 0).ackNo = 8 := by
  refine ⟨_, rfl, ⟨by decide, by decide⟩, Or.inl (by decide), rfl, ?_, ?_⟩
  · rfl
  · rfl

end StreamTable

end BabyOS
