import BabyOS.StreamSocket

open List

namespace BabyOS

namespace StreamSocket

def OffPath (s : StreamSocket) (hdr : TcpHdr) (srcIp : Word) : Prop :=
  ntohl s.peerAddr.ip ≠ srcIp ∨ ntohs s.peerAddr.port ≠ ntohs hdr.srcPort

def Addressed (s : StreamSocket) (hdr : TcpHdr) : Prop := s.ref ≠ 0 ∧ s.addr.port = hdr.dstPort

def Accepts (s : StreamSocket) (hdr : TcpHdr) (srcIp : Word) (data : List Byte) : Prop :=
  if hdr.flags.syn then s.tcpState = if hdr.flags.ack then .synSent else .listen
  else if hdr.flags.fin then s.tcpState = .closed ∨ s.tcpState = .finWait2 ∨ s.tcpState = .established
  else if hdr.flags.ack then ¬s.OffPath hdr srcIp
  else data.length ≤ s.buffer.left

structure SameRest (s s' : StreamSocket) : Prop where
  state : s'.state = s.state
  ref : s'.ref = s.ref
  addr : s'.addr = s.addr
  connectingList : s'.connectingList = s.connectingList
  dupSocket : s'.dupSocket = s.dupSocket

section

variable {s : StreamSocket} {hdr : TcpHdr} {srcIp : Word} {data : List Byte}

theorem setAckNo_self {n : Word} (h : n = s.ackNo) : s.setAckNo n = s := by
  subst h
  rfl

theorem putData_full (h : s.buffer.left < data.length) : s.putData data = (-1, s) := if_pos h

theorem putData_fst : (s.putData data).1 < 0 ↔ s.buffer.left < data.length := by
  by_cases h : s.buffer.left < data.length
  · simp [putData_full h, h]
  · unfold putData
    rw [if_neg h]
    split <;> simp [h]

theorem putData_rest (s : StreamSocket) (data : List Byte) : s.SameRest (s.putData data).2 := by
  unfold putData
  split
  · exact ⟨rfl, rfl, rfl, rfl, rfl⟩
  · split <;> exact ⟨rfl, rfl, rfl, rfl, rfl⟩

theorem netReceiveData_full (h : s.buffer.left < data.length) : s.netReceiveData hdr data = (-1, s, []) := by
  unfold netReceiveData
  rw [putData_full h]
  rfl

theorem netReceiveData_room (h : ¬s.buffer.left < data.length) : s.netReceiveData hdr data =
    (0, (((s.putData data).2.setAckNo (ntohl hdr.seqNo + 1)).tcpAck (ntohl hdr.seqNo + 1) false).1,
      [(((s.putData data).2.setAckNo (ntohl hdr.seqNo + 1)).tcpAck (ntohl hdr.seqNo + 1) false).2]) := by
  unfold netReceiveData
  rw [if_neg (mt putData_fst.mp h)]
  rfl

theorem netReceiveData_fst : (s.netReceiveData hdr data).1 = 0 ↔ data.length ≤ s.buffer.left := by
  by_cases h : s.buffer.left < data.length
  · simp [netReceiveData_full h, h]
  · simpa [netReceiveData_room h] using h

theorem netReceive_fin (hfin : hdr.flags.fin = true) : s.netReceive hdr srcIp (ntohs hdr.srcPort) data =
    (s.setAckNo (ntohl hdr.seqNo + 1)).netReceiveFin hdr :=
  if_pos hfin

theorem netReceive_ack (hfin : hdr.flags.fin = false) (hack : hdr.flags.ack = true) :
    s.netReceive hdr srcIp (ntohs hdr.srcPort) data =
      (((s.setAckNo (ntohl hdr.seqNo + 1)).netReceiveAck srcIp (ntohs hdr.srcPort)).1,
        ((s.setAckNo (ntohl hdr.seqNo + 1)).netReceiveAck srcIp (ntohs hdr.srcPort)).2, []) := by
  unfold netReceive
  rw [if_neg (Bool.eq_false_iff.mp hfin), if_pos hack]

theorem netReceive_data (hfin : hdr.flags.fin = false) (hack : hdr.flags.ack = false) :
    s.netReceive hdr srcIp (ntohs hdr.srcPort) data =
      (s.setAckNo (ntohl hdr.seqNo + 1)).netReceiveData hdr data := by
  unfold netReceive
  rw [if_neg (Bool.eq_false_iff.mp hfin), if_neg (Bool.eq_false_iff.mp hack)]

theorem netReceive_fst (hsyn : hdr.flags.syn = false) :
    (s.netReceive hdr srcIp (ntohs hdr.srcPort) data).1 = 0 ↔ s.Accepts hdr srcIp data := by
  unfold Accepts
  rw [if_neg (Bool.eq_false_iff.mp hsyn)]
  cases hfin : hdr.flags.fin
  · rw [if_neg Bool.false_ne_true]
    cases hack : hdr.flags.ack
    · rw [netReceive_data hfin hack, if_neg Bool.false_ne_true]
      exact netReceiveData_fst
    · rw [netReceive_ack hfin hack, if_pos rfl]
      unfold netReceiveAck OffPath
      unfold setAckNo
      by_cases hp : ntohl s.peerAddr.ip ≠ srcIp ∨ ntohs s.peerAddr.port ≠ ntohs hdr.srcPort
      · simp [hp]
      · rw [if_neg hp]
        cases s.tcpState <;> simpa using hp
  · rw [netReceive_fin hfin, if_pos rfl]
    unfold netReceiveFin setAckNo
    cases s.tcpState <;> simp

theorem netReceiveData_rest (s : StreamSocket) : s.SameRest (s.netReceiveData hdr data).2.1 := by
  by_cases h : s.buffer.left < data.length
  · rw [netReceiveData_full h]
    exact ⟨rfl, rfl, rfl, rfl, rfl⟩
  · rw [netReceiveData_room h]
    obtain ⟨h1, h2, h3, h4, h5⟩ := putData_rest s data
    exact ⟨h1, h2, h3, h4, h5⟩

theorem netReceive_rest : s.SameRest (s.netReceive hdr srcIp (ntohs hdr.srcPort) data).2.1 := by
  have hs : ∀ {u : StreamSocket}, (s.setAckNo (ntohl hdr.seqNo + 1)).SameRest u → s.SameRest u :=
    fun h => ⟨h.state, h.ref, h.addr, h.connectingList, h.dupSocket⟩
  cases hfin : hdr.flags.fin
  · cases hack : hdr.flags.ack
    · rw [netReceive_data hfin hack]
      exact hs (netReceiveData_rest _)
    · rw [netReceive_ack hfin hack]
      unfold netReceiveAck
      split
      · exact ⟨rfl, rfl, rfl, rfl, rfl⟩
      · split <;> exact ⟨rfl, rfl, rfl, rfl, rfl⟩
  · rw [netReceive_fin hfin]
    unfold netReceiveFin
    split <;> exact ⟨rfl, rfl, rfl, rfl, rfl⟩

end

end StreamSocket

namespace StreamTable

open StreamSocket

section

variable {t : StreamTable} {i j : StreamIx} {hdr : TcpHdr} {srcIp : Word} {data : List Byte}

theorem netReceive_of_not_syn (hsyn : hdr.flags.syn = false) :
    t.netReceive i hdr srcIp (ntohs hdr.srcPort) data =
      some (((t i).netReceive hdr srcIp (ntohs hdr.srcPort) data).1,
        t.set i ((t i).netReceive hdr srcIp (ntohs hdr.srcPort) data).2.1,
        ((t i).netReceive hdr srcIp (ntohs hdr.srcPort) data).2.2) :=
  if_neg (Bool.eq_false_iff.mp hsyn)

theorem netReceive_of_syn (hsyn : hdr.flags.syn = true) : t.netReceive i hdr srcIp (ntohs hdr.srcPort) data =
      (netReceiveSyn (t.set i ((t i).setAckNo (ntohl hdr.seqNo + 1))) i hdr srcIp (ntohs hdr.srcPort)).map
        fun x => (x.1, x.2, []) :=
  if_pos hsyn

variable {srcPort : Half} {x : Int × StreamTable × List TcpSend} {is : List StreamIx}

theorem netReceiveSyn_reject (h : (t i).tcpState ≠ if hdr.flags.ack then .synSent else .listen) :
    netReceiveSyn t i hdr srcIp srcPort = some (-1, t) := by
  unfold netReceiveSyn
  cases hack : hdr.flags.ack
  · rw [hack, if_neg Bool.false_ne_true] at h
    rw [if_pos rfl, if_pos h]
  · rw [hack, if_pos rfl] at h
    rw [if_neg Bool.true_eq_false.mp, if_pos h]

theorem netReceive_syn_reject (hsyn : hdr.flags.syn = true) (h : ¬(t i).Accepts hdr srcIp data) :
    t.netReceive i hdr srcIp (ntohs hdr.srcPort) data =
      some (-1, t.set i ((t i).setAckNo (ntohl hdr.seqNo + 1)), []) := by
  rw [Accepts, if_pos hsyn] at h
  rw [netReceive_of_syn hsyn, netReceiveSyn_reject]
  · rfl
  · rw [set_self]
    exact h

theorem netReceive_reject (h : ¬(t i).Accepts hdr srcIp data) : ∃ r s out, r ≠ 0 ∧
    t.netReceive i hdr srcIp (ntohs hdr.srcPort) data = some (r, t.set i s, out) := by
  cases hsyn : hdr.flags.syn
  · exact ⟨_, _, _, mt (netReceive_fst hsyn).mp h, netReceive_of_not_syn hsyn⟩
  · exact ⟨-1, _, _, by decide, netReceive_syn_reject hsyn h⟩

theorem netReceiveSyn_listen (hack : hdr.flags.ack = false) (h : (t i).tcpState = .listen) :
    netReceiveSyn t i hdr srcIp srcPort = (t i).dupSocket.map fun dup =>
      (0, t.queueSyn i dup ⟨ntohl srcIp, ntohs srcPort⟩ (ntohl hdr.seqNo + 1)) := by
  unfold netReceiveSyn
  rw [if_pos hack, if_neg (not_not_intro h)]
  cases (t i).dupSocket <;> rfl

theorem netReceiveSyn_synSent (hack : hdr.flags.ack = true) (h : (t i).tcpState = .synSent) :
    netReceiveSyn t i hdr srcIp srcPort = some (0, t.set i (((t i).setPeerAddr
      ⟨htonl srcIp, htons srcPort⟩).setAckNo (ntohl hdr.seqNo + 1)).upSem) := by
  unfold netReceiveSyn
  rw [if_neg (by rw [hack]; decide), if_neg (not_not_intro h)]

variable {dup : StreamIx} {addr : SockAddr} {a : Word}

theorem queueSyn_of_ne (hj : j ≠ i) : t.queueSyn i dup addr a j = if dup = j then (t j).setAckNo a else t j := by
  unfold queueSyn
  rw [set_of_ne hj]
  by_cases hd : dup = j
  · subst hd
    rw [if_pos rfl, set_self, set_of_ne hj]
  · rw [if_neg hd, set_of_ne (Ne.symm hd), set_of_ne hj]

theorem queueSyn_self (hd : dup ≠ i) : t.queueSyn i dup addr a i = ((t i).pushConnecting addr).upSem := by
  unfold queueSyn
  rw [set_self, set_of_ne hd.symm, set_self]

theorem netReceiveSyn_accept {x : Int × StreamTable}
    (h : (t i).tcpState = if hdr.flags.ack then .synSent else .listen)
    (hx : netReceiveSyn t i hdr srcIp srcPort = some x) : x.1 = 0 ∧ ∀ j, j ≠ i → x.2 j =
      if hdr.flags.ack = false ∧ (t i).dupSocket = some j then (t j).setAckNo (ntohl hdr.seqNo + 1) else t j := by
  cases hack : hdr.flags.ack
  · rw [hack, if_neg Bool.false_ne_true] at h
    rw [netReceiveSyn_listen hack h] at hx
    obtain ⟨dup, hd, rfl⟩ := Option.map_eq_some_iff.mp hx
    refine ⟨rfl, ?_⟩
    intro j hj
    refine (queueSyn_of_ne hj).trans ?_
    rw [hd]
    exact if_congr ⟨fun hc => ⟨rfl, congrArg some hc⟩, fun hc => Option.some.inj hc.2⟩ rfl rfl
  · rw [hack, if_pos rfl] at h
    rw [netReceiveSyn_synSent hack h] at hx
    cases Option.some.inj hx
    refine ⟨rfl, ?_⟩
    intro j hj
    rw [if_neg (fun hc => Bool.true_eq_false.mp hc.1)]
    exact set_of_ne hj t _

theorem netReceive_accept (h : (t i).Accepts hdr srcIp data)
    (hx : t.netReceive i hdr srcIp (ntohs hdr.srcPort) data = some x) : x.1 = 0 ∧ ∀ j, j ≠ i → x.2.1 j =
      if hdr.flags.syn = true ∧ hdr.flags.ack = false ∧ (t i).dupSocket = some j then
        (t j).setAckNo (ntohl hdr.seqNo + 1) else t j := by
  cases hsyn : hdr.flags.syn
  · rw [netReceive_of_not_syn hsyn] at hx
    cases Option.some.inj hx
    refine ⟨(netReceive_fst hsyn).mpr h, ?_⟩
    intro j hj
    rw [if_neg (fun hc => Bool.false_ne_true hc.1)]
    exact set_of_ne hj t _
  · rw [netReceive_of_syn hsyn] at hx
    obtain ⟨y, hy, rfl⟩ := Option.map_eq_some_iff.mp hx
    rw [Accepts, if_pos hsyn] at h
    obtain ⟨h0, hj⟩ := netReceiveSyn_accept (by rw [set_self]; exact h) hy
    refine ⟨h0, ?_⟩
    intro j hji
    refine (hj j hji).trans ?_
    rw [set_self, set_of_ne hji]
    exact if_congr ⟨fun hc => ⟨rfl, hc⟩, fun hc => hc.2⟩ rfl rfl

theorem receiveLoop_skip (h : ¬(t i).Addressed hdr) :
    receiveLoop hdr srcIp data (i :: is) t = receiveLoop hdr srcIp data is t := by
  rw [receiveLoop]
  split
  · rfl
  · next hr =>
    rw [if_neg]
    intro hp
    exact h ⟨hr, hp⟩

theorem receiveLoop_addressed (h : (t i).Addressed hdr) : receiveLoop hdr srcIp data (i :: is) t =
      (t.netReceive i hdr srcIp (ntohs hdr.srcPort) data).bind fun x =>
        if x.1 = 0 then some (0, x.2.1, x.2.2)
        else (receiveLoop hdr srcIp data is x.2.1).map fun y => (y.1, y.2.1, x.2.2 ++ y.2.2) := by
  rw [receiveLoop, if_neg h.1, if_pos h.2]

theorem receiveLoop_reject (rest : List StreamIx) (hn : is.Nodup)
    (h : ∀ j ∈ is, (t j).Addressed hdr → ¬(t j).Accepts hdr srcIp data) :
    ∃ t' out, receiveLoop hdr srcIp data (is ++ rest) t =
        ((receiveLoop hdr srcIp data rest t').map fun y => (y.1, y.2.1, out ++ y.2.2)) ∧
      ∀ j, j ∉ is → t' j = t j := by
  induction is generalizing t with
  | nil =>
    refine ⟨t, [], ?_, fun _ _ => rfl⟩
    simp
  | cons i is ih =>
    obtain ⟨hi, hn'⟩ := nodup_cons.mp hn
    by_cases ha : (t i).Addressed hdr
    · obtain ⟨r, s, out, hr, hx⟩ := netReceive_reject (h i mem_cons_self ha)
      have hs : ∀ j ∈ is, (t.set i s j).Addressed hdr → ¬(t.set i s j).Accepts hdr srcIp data := by
        intro j hj
        have hji : j ≠ i := by
          rintro rfl
          exact hi hj
        rw [set_of_ne hji]
        exact h j (mem_cons_of_mem i hj)
      obtain ⟨t', out', hl, hf⟩ := ih hn' hs
      refine ⟨t', out ++ out', ?_, ?_⟩
      · rw [cons_append, receiveLoop_addressed ha, hx, Option.bind_some, if_neg hr, hl, Option.map_map]
        simp [Function.comp_def]
      · intro j hj
        rw [mem_cons, not_or] at hj
        rw [hf j hj.2, set_of_ne hj.1]
    · obtain ⟨t', out, hl, hf⟩ := ih hn' fun j hj => h j (mem_cons_of_mem i hj)
      refine ⟨t', out, ?_, fun j hj => hf j fun hm => hj (mem_cons_of_mem i hm)⟩
      rw [cons_append, receiveLoop_skip ha, hl]

theorem receiveLoop_other (hi : i ∉ is) (hx : receiveLoop hdr srcIp data is t = some x) :
    x.2.1 i = t i ∨ x.2.1 i = (t i).setAckNo (ntohl hdr.seqNo + 1) := by
  induction is generalizing t x with
  | nil =>
    cases Option.some.inj hx
    exact Or.inl rfl
  | cons j is ih =>
    rw [mem_cons, not_or] at hi
    by_cases ha : (t j).Addressed hdr
    · rw [receiveLoop_addressed ha] at hx
      by_cases hc : (t j).Accepts hdr srcIp data
      · obtain ⟨y, hy, hxy⟩ := Option.bind_eq_some_iff.mp hx
        obtain ⟨h0, hf⟩ := netReceive_accept hc hy
        rw [if_pos h0] at hxy
        cases Option.some.inj hxy
        have hs := hf i hi.1
        split at hs
        · exact Or.inr hs
        · exact Or.inl hs
      · obtain ⟨r, s, out, hr, hy⟩ := netReceive_reject hc
        rw [hy, Option.bind_some, if_neg hr] at hx
        obtain ⟨z, hz, rfl⟩ := Option.map_eq_some_iff.mp hx
        rw [← set_of_ne hi.1 t s]
        exact ih (x := z) hi.2 hz
    · rw [receiveLoop_skip ha] at hx
      exact ih hi.2 hx

theorem receiveLoop_acked {s : StreamSocket} (hi : i ∉ is) (hs : s.ackNo = ntohl hdr.seqNo + 1)
    (hx : receiveLoop hdr srcIp data is (t.set i s) = some x) : x.2.1 i = s := by
  have h := receiveLoop_other hi hx
  rw [set_self, setAckNo_self hs.symm, or_self] at h
  exact h

theorem finRange_split (i : StreamIx) : ∃ front back, List.finRange 128 = front ++ i :: back ∧
    (front ++ i :: back).Nodup ∧ ∀ j, j ∈ front ↔ j < i := by
  obtain ⟨front, back, h⟩ := append_of_mem (mem_finRange i)
  have hp := pairwise_lt_finRange 128
  rw [h] at hp
  obtain ⟨-, hib, hf⟩ := pairwise_append.mp hp
  refine ⟨front, back, h, h ▸ nodup_finRange 128, ?_⟩
  intro j
  constructor
  · intro hj
    exact hf j hj i mem_cons_self
  · intro hj
    have hm := mem_finRange j
    rw [h, mem_append, mem_cons] at hm
    rcases hm with hm | rfl | hm
    · exact hm
    · exact absurd hj (lt_irrefl j)
    · exact absurd hj (lt_asymm ((pairwise_cons.mp hib).1 j hm))

end

def Reached (t : StreamTable) (i : StreamIx) (hdr : TcpHdr) (srcIp : Word) (data : List Byte) : Prop :=
  ∀ j < i, (t j).Addressed hdr → ¬(t j).Accepts hdr srcIp data

section

variable {t : StreamTable} {i j : StreamIx} {hdr : TcpHdr} {srcIp : Word} {data : List Byte}

theorem streamNetReceive_reached (h : t.Reached i hdr srcIp data) (ha : (t i).Addressed hdr) :
    ∃ (t' : StreamTable) (back : List StreamIx) (out : List TcpSend), i ∉ back ∧ t' i = t i ∧ (∀ j, i < j → t' j = t j) ∧
      t.streamNetReceive hdr srcIp data = ((t'.netReceive i hdr srcIp (ntohs hdr.srcPort) data).bind fun x =>
          if x.1 = 0 then some (0, x.2.1, x.2.2)
          else (receiveLoop hdr srcIp data back x.2.1).map fun y => (y.1, y.2.1, x.2.2 ++ y.2.2)).map
            fun y => (y.1, y.2.1, out ++ y.2.2) := by
  obtain ⟨front, back, hs, hn, hf⟩ := finRange_split i
  have hn' := nodup_append.mp hn
  obtain ⟨t', out, hl, ht⟩ := receiveLoop_reject (i :: back) hn'.1 fun j hj => h j ((hf j).mp hj)
  have hti : t' i = t i := ht i fun hm => lt_irrefl i ((hf i).mp hm)
  refine ⟨t', back, out, (nodup_cons.mp hn'.2.1).1, hti, ?_, ?_⟩
  · intro j hj
    exact ht j fun hm => lt_asymm hj ((hf j).mp hm)
  · unfold streamNetReceive
    rw [hs, hl, receiveLoop_addressed (by rw [hti]; exact ha)]

theorem streamNetReceive_taken {x : Int × StreamTable × List TcpSend} (hj : t.Reached j hdr srcIp data)
    (ha : (t j).Addressed hdr) (hc : (t j).Accepts hdr srcIp data) (hji : j < i)
    (hx : t.streamNetReceive hdr srcIp data = some x) :
    x.2.1 i = if hdr.flags.syn = true ∧ hdr.flags.ack = false ∧ (t j).dupSocket = some i then
      (t i).setAckNo (ntohl hdr.seqNo + 1) else t i := by
  obtain ⟨t', back, out, -, htj, ht, hs⟩ := streamNetReceive_reached hj ha
  rw [hs] at hx
  obtain ⟨y, hy, rfl⟩ := Option.map_eq_some_iff.mp hx
  obtain ⟨z, hz, hzy⟩ := Option.bind_eq_some_iff.mp hy
  obtain ⟨h0, hf⟩ := netReceive_accept (by rw [htj]; exact hc) hz
  rw [if_pos h0] at hzy
  cases Option.some.inj hzy
  have hfi := hf i (ne_of_gt hji)
  rw [htj, ht i hji] at hfi
  exact hfi

theorem exists_taken (h : ¬t.Reached i hdr srcIp data) :
    ∃ j < i, t.Reached j hdr srcIp data ∧ (t j).Addressed hdr ∧ (t j).Accepts hdr srcIp data := by
  have hne : {j | j < i ∧ (t j).Addressed hdr ∧ (t j).Accepts hdr srcIp data}.Nonempty := by
    by_contra hemp
    apply h
    intro j hj ha hc
    exact hemp ⟨j, hj, ha, hc⟩
  obtain ⟨j, ⟨hj, ha, hc⟩, hmin⟩ := wellFounded_lt.has_min _ hne
  refine ⟨j, hj, ?_, ha, hc⟩
  intro k hk hka hkc
  exact hmin k ⟨lt_trans hk hj, hka, hkc⟩ hk

theorem receiveLoop_skips {is : List StreamIx} (rest : List StreamIx) (h : ∀ j ∈ is, ¬(t j).Addressed hdr) :
    receiveLoop hdr srcIp data (is ++ rest) t = receiveLoop hdr srcIp data rest t := by
  induction is with
  | nil => rfl
  | cons j is ih =>
    rw [cons_append, receiveLoop_skip (h j mem_cons_self), ih fun i hi => h i (mem_cons_of_mem j hi)]

theorem streamNetReceive_only (srcIp : Word) (data : List Byte) (hsole : ∀ j, j ≠ i → ¬(t j).Addressed hdr) :
    ∃ back, i ∉ back ∧ t.streamNetReceive hdr srcIp data = receiveLoop hdr srcIp data (i :: back) t := by
  obtain ⟨front, back, hs, hn, -⟩ := finRange_split i
  obtain ⟨-, hib, hd⟩ := nodup_append.mp hn
  refine ⟨back, (nodup_cons.mp hib).1, ?_⟩
  unfold streamNetReceive
  rw [hs, receiveLoop_skips]
  intro j hj
  refine hsole j ?_
  rintro rfl
  exact hd j hj j mem_cons_self rfl

theorem streamNetReceive_sole_taken {t' : StreamTable} {out : List TcpSend} (ha : (t i).Addressed hdr)
    (hsole : ∀ j, j ≠ i → ¬(t j).Addressed hdr)
    (h : t.netReceive i hdr srcIp (ntohs hdr.srcPort) data = some (0, t', out)) :
    t.streamNetReceive hdr srcIp data = some (0, t', out) := by
  obtain ⟨back, -, hloop⟩ := streamNetReceive_only srcIp data hsole
  rw [hloop, receiveLoop_addressed ha, h]
  rfl

theorem streamNetReceive_sole {r : Int} {s : StreamSocket} {out : List TcpSend} (ha : (t i).Addressed hdr)
    (hsole : ∀ j, j ≠ i → ¬(t j).Addressed hdr)
    (h : t.netReceive i hdr srcIp (ntohs hdr.srcPort) data = some (r, t.set i s, out)) :
    t.streamNetReceive hdr srcIp data = some (if r = 0 then 0 else -1, t.set i s, out) := by
  obtain ⟨back, hib, hloop⟩ := streamNetReceive_only srcIp data hsole
  have hnone : ∀ j ∈ back, ¬(t.set i s j).Addressed hdr := by
    intro j hj
    have hji : j ≠ i := by
      rintro rfl
      exact hib hj
    rw [set_of_ne hji t s]
    exact hsole j hji
  have hback : receiveLoop hdr srcIp data (back ++ []) (t.set i s) = _ := receiveLoop_skips [] hnone
  rw [append_nil] at hback
  rw [hloop, receiveLoop_addressed ha, h, Option.bind_some]
  split
  · rfl
  · rw [hback]
    simp [receiveLoop]

def Takes (t : StreamTable) (hdr : TcpHdr) (srcIp : Word) (data : List Byte) : Prop :=
  ∃ i, t.Reached i hdr srcIp data ∧ (t i).Addressed hdr ∧ (t i).Accepts hdr srcIp data

/-- The segment is a SYN at a listening socket whose `m_dup_socket` is null. -/
def NullDup (t : StreamTable) (hdr : TcpHdr) (srcIp : Word) (data : List Byte) : Prop :=
  ∃ i, t.Reached i hdr srcIp data ∧ (t i).Addressed hdr ∧ (t i).Accepts hdr srcIp data ∧ hdr.flags.syn = true ∧
    hdr.flags.ack = false ∧ (t i).dupSocket = none

theorem netReceive_eq_none (h : (t i).Accepts hdr srcIp data) :
    t.netReceive i hdr srcIp (ntohs hdr.srcPort) data = none ↔
      hdr.flags.syn = true ∧ hdr.flags.ack = false ∧ (t i).dupSocket = none := by
  cases hsyn : hdr.flags.syn
  · rw [netReceive_of_not_syn hsyn]
    exact ⟨fun hn => absurd hn (Option.some_ne_none _), fun hn => absurd hn.1 Bool.false_ne_true⟩
  · rw [Accepts, if_pos hsyn] at h
    rw [netReceive_of_syn hsyn]
    cases hack : hdr.flags.ack
    · rw [hack, if_neg Bool.false_ne_true] at h
      rw [netReceiveSyn_listen hack (by rw [set_self]; exact h), set_self, Option.map_map, Option.map_eq_none_iff]
      exact ⟨fun hn => ⟨rfl, rfl, hn⟩, fun hn => hn.2.2⟩
    · rw [hack, if_pos rfl] at h
      rw [netReceiveSyn_synSent hack (by rw [set_self]; exact h)]
      exact ⟨fun hn => absurd hn (Option.some_ne_none _), fun hn => absurd hn.2.1.symm Bool.false_ne_true⟩

theorem streamNetReceive_nullDup (h : t.NullDup hdr srcIp data) : t.streamNetReceive hdr srcIp data = none := by
  obtain ⟨i, hr, ha, hc, hnull⟩ := h
  obtain ⟨t', back, out, -, hti, -, hs⟩ := streamNetReceive_reached hr ha
  rw [hs, (netReceive_eq_none (by rw [hti]; exact hc)).mpr (by rw [hti]; exact hnull)]
  rfl

theorem streamNetReceive_takes (h : t.Takes hdr srcIp data) (hn : ¬t.NullDup hdr srcIp data) :
    ∃ x, t.streamNetReceive hdr srcIp data = some x ∧ x.1 = 0 := by
  obtain ⟨i, hr, ha, hc⟩ := h
  obtain ⟨t', back, out, -, hti, -, hs⟩ := streamNetReceive_reached hr ha
  have hc' : (t' i).Accepts hdr srcIp data := by
    rw [hti]
    exact hc
  cases hx : t'.netReceive i hdr srcIp (ntohs hdr.srcPort) data with
  | none =>
    have hnull := (netReceive_eq_none hc').mp hx
    rw [hti] at hnull
    exact absurd ⟨i, hr, ha, hc, hnull⟩ hn
  | some x =>
    rw [hs, hx, Option.bind_some, if_pos (netReceive_accept hc' hx).1]
    exact ⟨_, rfl, rfl⟩

theorem streamNetReceive_not_takes (h : ¬t.Takes hdr srcIp data) :
    ∃ x, t.streamNetReceive hdr srcIp data = some x ∧ x.1 = -1 := by
  have hnone : ∀ j, (t j).Addressed hdr → ¬(t j).Accepts hdr srcIp data := by
    intro j ha hc
    by_cases hr : t.Reached j hdr srcIp data
    · exact h ⟨j, hr, ha, hc⟩
    · obtain ⟨k, -, hk⟩ := exists_taken hr
      exact h ⟨k, hk⟩
  obtain ⟨t', out, hl, -⟩ := receiveLoop_reject [] (nodup_finRange 128) fun j _ => hnone j
  rw [append_nil] at hl
  unfold streamNetReceive
  rw [hl]
  exact ⟨_, rfl, rfl⟩

end

end StreamTable

end BabyOS
