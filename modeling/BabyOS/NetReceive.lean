import BabyOS.NetOwn
import BabyOS.StreamReceive
import BabyOS.Tally

open Function

namespace BabyOS

section

variable {σ : Type} (wants full : σ → Bool)

/-- The slots that take a buffer offered to a table: those that want it, up to the first full one. -/
def takers (is : List (Fin 128)) (t : Fin 128 → σ) : List (Fin 128) :=
  (is.filter fun i => wants (t i)).takeWhile fun i => !full (t i)

def refused (is : List (Fin 128)) (t : Fin 128 → σ) : Bool := (is.filter fun i => wants (t i)).any fun i => full (t i)

variable (netReceive : σ → Int × σ) (q : σ → Multiset Nat) {b : Nat}

theorem takers_congr {is : List (Fin 128)} {t t' : Fin 128 → σ} (h : ∀ i ∈ is, t' i = t i) :
    takers wants full is t' = takers wants full is t ∧ refused wants full is t' = refused wants full is t := by
  have hf : (is.filter fun i => wants (t' i)) = is.filter fun i => wants (t i) :=
    List.filter_congr fun i hi => by rw [h i hi]
  have hm : ∀ i ∈ is.filter fun i => wants (t i), t' i = t i := fun i hi => h i (List.mem_of_mem_filter hi)
  unfold takers refused
  rw [hf]
  generalize (is.filter fun i => wants (t i)) = js at hm
  induction js with
  | nil => exact ⟨rfl, rfl⟩
  | cons j js ih =>
    obtain ⟨h1, h2⟩ := ih fun i hi => hm i (List.mem_cons_of_mem j hi)
    rw [List.takeWhile_cons, List.takeWhile_cons, List.any_cons, List.any_cons, hm j List.mem_cons_self, h1, h2]
    exact ⟨rfl, rfl⟩

theorem offerLoop_spec (hfull : ∀ k, full k = true → (netReceive k).1 ≠ 0 ∧ (netReceive k).2 = k)
    (hroom : ∀ k, full k = false → (netReceive k).1 = 0 ∧ q (netReceive k).2 = q k + {b})
    {is : List (Fin 128)} (hn : is.Nodup) (t : Fin 128 → σ) :
    (offerLoop wants netReceive is t).1 = (if refused wants full is t then 0 else -1) ∧
      ∑ i, q ((offerLoop wants netReceive is t).2 i) =
        ∑ i, q (t i) + Multiset.replicate (takers wants full is t).length b := by
  induction is generalizing t with
  | nil => exact ⟨rfl, (add_zero _).symm⟩
  | cons i is ih =>
    obtain ⟨hi, hn⟩ := List.nodup_cons.mp hn
    unfold offerLoop
    cases hw : wants (t i) with
    | false =>
      rw [if_neg Bool.false_ne_true]
      have ht : takers wants full (i :: is) t = takers wants full is t := by
        unfold takers
        rw [List.filter_cons_of_neg (by rw [hw]; exact Bool.false_ne_true)]
      have hr : refused wants full (i :: is) t = refused wants full is t := by
        unfold refused
        rw [List.filter_cons_of_neg (by rw [hw]; exact Bool.false_ne_true)]
      rw [ht, hr]
      exact ih hn t
    | true =>
      rw [if_pos rfl]
      have hfilter : ((i :: is).filter fun i => wants (t i)) = i :: is.filter fun i => wants (t i) :=
        List.filter_cons_of_pos hw
      cases hf : full (t i) with
      | true =>
        obtain ⟨h1, h2⟩ := hfull (t i) hf
        rw [if_pos h1, h2, update_eq_self]
        unfold takers refused
        rw [hfilter, List.any_cons, hf, List.takeWhile_cons_of_neg (by rw [hf]; exact Bool.false_ne_true)]
        exact ⟨rfl, (add_zero _).symm⟩
      | false =>
        obtain ⟨h1, h2⟩ := hroom (t i) hf
        rw [if_neg (by rw [h1]; exact fun h => h rfl)]
        obtain ⟨ih1, ih2⟩ := ih hn (update t i (netReceive (t i)).2)
        have hkeep : ∀ j ∈ is, update t i (netReceive (t i)).2 j = t j := by
          intro j hj
          apply update_of_ne
          rintro rfl
          exact hi hj
        obtain ⟨ht, hr⟩ := takers_congr wants full hkeep
        have hsum := sum_update q t i (netReceive (t i)).2
        rw [h2, ← add_assoc, add_right_comm] at hsum
        rw [ih1, ih2, ht, hr, add_right_cancel hsum]
        unfold takers refused
        rw [hfilter, List.any_cons, hf, List.takeWhile_cons_of_pos (by rw [hf]; rfl), List.length_cons,
          Multiset.replicate_succ, ← Multiset.singleton_add, add_assoc]
        exact ⟨rfl, rfl⟩

end

def Sockets.queued (k : Sockets) : Multiset Nat :=
  ∑ i, ((k.raws i).buffers : Multiset Nat) + ∑ i, ((k.dgrams i).buffers.map DgramBuf.buf : Multiset Nat)

def Sockets.rawTakers (k : Sockets) (protocol : Word) : List (Fin 128) :=
  takers (fun x => x.ref ≠ 0 ∧ x.protocol = protocol) (fun x => 32 ≤ x.buffers.length) (List.finRange 128) k.raws

def Sockets.dgramTakers (k : Sockets) (port : Half) : List (Fin 128) :=
  takers (fun x => x.ref ≠ 0 ∧ x.addr.port = port) (fun x => 32 ≤ x.buffers.length) (List.finRange 128) k.dgrams

def Sockets.dgramRefused (k : Sockets) (port : Half) : Bool :=
  refused (fun x => x.ref ≠ 0 ∧ x.addr.port = port) (fun x => 32 ≤ x.buffers.length) (List.finRange 128) k.dgrams

section

variable {s : Net} {b : Nat} {E : NetErr → Prop}

theorem ends_rawNetReceive (s : Net) (b : Nat) (protocol : Word) : Ends E (rawNetReceive b protocol)
    (fun _ t => ∃ k, t = s.setSocks k ∧ k.dgrams = s.socks.dgrams ∧ k.streams = s.socks.streams ∧
      k.queued = s.socks.queued + Multiset.replicate (s.socks.rawTakers protocol).length b) s := by
  refine ⟨_, rfl, rfl, rfl, ?_⟩
  have hspec := (offerLoop_spec (fun x : RawSocket => x.ref ≠ 0 ∧ x.protocol = protocol)
    (fun x => 32 ≤ x.buffers.length) (·.netReceive b) (fun x => (x.buffers : Multiset Nat)) (b := b) ?_ ?_
    (List.nodup_finRange 128) s.socks.raws).2
  · unfold Sockets.queued Sockets.rawTakers
    rw [hspec]
    abel
  · intro k hk
    unfold RawSocket.netReceive
    rw [if_pos (of_decide_eq_true hk)]
    exact ⟨Int.negSucc_ne_zero 11, rfl⟩
  · intro k hk
    unfold RawSocket.netReceive
    rw [if_neg (of_decide_eq_false hk)]
    exact ⟨rfl, (Multiset.coe_add _ _).symm⟩

theorem ends_dgramNetReceive (s : Net) (b : Nat) (srcIp : Word) (srcPort dstPort : Half) :
    Ends E (dgramNetReceive b srcIp srcPort dstPort) (fun r t => r = (if s.socks.dgramRefused dstPort then 0 else -1) ∧
      ∃ k, t = s.setSocks k ∧
        k.queued = s.socks.queued + Multiset.replicate (s.socks.dgramTakers dstPort).length b) s := by
  have hspec := offerLoop_spec (fun x : DgramSocket => x.ref ≠ 0 ∧ x.addr.port = dstPort)
    (fun x => 32 ≤ x.buffers.length) (·.netReceive srcIp srcPort b) (fun x => (x.buffers.map DgramBuf.buf : Multiset Nat))
    (b := b) ?_ ?_ (List.nodup_finRange 128) s.socks.dgrams
  · refine ⟨hspec.1, _, rfl, ?_⟩
    unfold Sockets.queued Sockets.dgramTakers
    rw [hspec.2, add_assoc]
  · intro k hk
    unfold DgramSocket.netReceive
    rw [if_pos (of_decide_eq_true hk)]
    exact ⟨Int.negSucc_ne_zero 11, rfl⟩
  · intro k hk
    unfold DgramSocket.netReceive
    rw [if_neg (of_decide_eq_false hk)]
    refine ⟨rfl, ?_⟩
    rw [List.map_append, ← Multiset.coe_add]
    rfl

end

open Net

section

variable {cfg : NetCfg} {s t : Net} {b c len : Nat} {p : Packet} {held all exts : Multiset Nat}

/-- The checksum over the pseudo header and the data, of which nothing is taken when it does not fit. -/
def transportSum (cfg : NetCfg) (p : Packet) (ip : Word) (protocol : Byte) (total : Half) : Half :=
  checkSum (pseudoHdr (htonl ip) (htonl cfg.ipaddr) protocol (htons total) ++
    if total.toNat ≤ (if 240 < 12 + p.len then 2048 else 240) - 12 then bytes p.data total.toNat else [])

theorem Net.Took.content (h : Took s len b t) : t.content b = [] := by
  have hlen : (t.bufs b).dataLen = 0 := by
    rw [h.buf]
    cases (t.bufs b).ext <;> rfl
  unfold Net.content
  rw [hlen]
  rfl

theorem Net.Holds.took (h : s.Holds c p) (ht : Took s len b t) (hc : c ≠ b) : t.Holds c p := by
  have hb := ht.bufs c hc
  refine ⟨?_, by rw [hb]; exact h.dataLen⟩
  rw [← h.view]
  unfold Net.view area
  rw [hb, ht.inner, ht.outer]

theorem Net.Holds.append {bs : List Byte} (h : s.Holds c p) (ha : Apart s b c) : (s.append b bs).2.Holds c p := by
  obtain ⟨hb, hv⟩ := append_of_apart bs ha
  exact ⟨hv.trans h.view, by rw [hb]; exact h.dataLen⟩

theorem Net.Holds.freed (h : s.Holds c p) : (s.freeNetBuffer b).Holds c p := by
  obtain ⟨-, hb, hi, ho, -⟩ := freeNetBuffer_rest s b
  refine ⟨?_, by rw [hb]; exact h.dataLen⟩
  rw [← h.view]
  unfold Net.view area
  rw [hb, hi, ho]

theorem ends_receiveSum (h : Own s (b ::ₘ held) all exts) (hp : s.Holds b p) (ip : Word) (protocol : Byte) (total : Half) :
    Ends (fun _ => False) (receiveSum cfg b ip protocol total) (fun r t => Own t (b ::ₘ held) all exts ∧
      t.socks = s.socks ∧ t.Holds b p ∧
      r = if s.Alloc (12 + p.len) then some (transportSum cfg p ip protocol total) else none) s := by
  unfold receiveSum
  rw [ends_bind, ends_get, hp.dataLen, hp.view]
  refine ends_alloc (fun hn => ⟨h, rfl, hp, (if_neg hn).symm⟩) fun c t ha ht => ?_
  have ho := h.took ht
  have hbc := ho.apart (Multiset.mem_cons_self b held)
  generalize hps : pseudoHdr (htonl ip) (htonl cfg.ipaddr) protocol (htons total) = ps
  have hlen : ps.length = 12 := by
    rw [← hps]
    rfl
  have hfit : ps.length ≤ (t.bufs c).left := by
    rw [hlen, ht.left]
    split <;> decide
  have ho1 := ho.still (still_append t c ps)
  have hbc1 := ho1.apart (Multiset.mem_cons_self b held)
  have hleft : ((t.append c ps).2.bufs c).left = (if 240 < 12 + p.len then 2048 else 240) - 12 := by
    rw [append_bufs hfit, ht.left, hlen]
  have hcont : (t.append c ps).2.content c = ps := by
    rw [append_content hfit, ht.content]
    rfl
  have hsum : checkSum (((t.append c ps).2.append c (bytes p.data total.toNat)).2.content c) =
      transportSum cfg p ip protocol total := by
    unfold transportSum
    rw [hps, ← hleft]
    congr 1
    by_cases hroom : total.toNat ≤ ((t.append c ps).2.bufs c).left
    · rw [if_pos hroom, append_content (by rw [length_bytes]; exact hroom), hcont]
    · rw [if_neg hroom, append_full (by rw [length_bytes]; exact Nat.lt_of_not_le hroom), hcont, List.append_nil]
  have ho2 := ho1.still (still_append (t.append c ps).2 c (bytes p.data total.toNat))
  have hp2 : ((t.append c ps).2.append c (bytes p.data total.toNat)).2.Holds b p :=
    ((hp.took ht hbc.ne.symm).append hbc).append hbc1
  refine ends_append.mpr (ends_append.mpr (ends_get_bind.mpr ?_))
  rw [ends_bind, hsum]
  refine (ends_free (ho2.not_mem_netBuffers ?_)).mpr ?_
  · exact Multiset.mem_add.mpr (Or.inr (Multiset.mem_cons_self c _))
  · exact ⟨ho2.freed,
      by rw [(freeNetBuffer_rest _ c).2.2.2.2.2.2.1, (still_append _ c _).socks, (still_append t c ps).socks, ht.socks],
      hp2.freed, (if_pos ha).symm⟩

/-- `udp_t::receive` or `tcp_t::receive` finds a buffer for the checksum, and the checksum is right. -/
def Net.SumRight (cfg : NetCfg) (s : Net) (p : Packet) (ip : Word) (protocol : Byte) (total : Half) : Prop :=
  s.Alloc (12 + p.len) ∧ transportSum cfg p ip protocol total = 0

instance sumRightDecidable (cfg : NetCfg) (s : Net) (p : Packet) (ip : Word) (protocol : Byte) (total : Half) :
    Decidable (s.SumRight cfg p ip protocol total) := inferInstanceAs (Decidable (_ ∧ _))

def Net.UdpRight (cfg : NetCfg) (s : Net) (p : Packet) (ip : Word) : Prop :=
  s.SumRight cfg p ip 17 (ntohs (getHalf p.data 4))

instance udpRightDecidable (cfg : NetCfg) (s : Net) (p : Packet) (ip : Word) : Decidable (s.UdpRight cfg p ip) :=
  inferInstanceAs (Decidable (s.SumRight cfg p ip _ _))

def Net.TcpRight (cfg : NetCfg) (s : Net) (p : Packet) (ip : Word) : Prop :=
  s.SumRight cfg p ip 6 (.ofNat 16 p.len)

/-- Where a received buffer is: freed or not, and in a number of socket queues; some buffers may be lost. -/
structure Settled (held all exts : Multiset Nat) (b : Nat) (freed : Prop) (k : Nat) (t : Net) : Prop where
  own : (freed ∧ b ∈ t.netBuffers ∧ ∃ lost, Own t (lost + held) all exts) ∨
    (¬freed ∧ ∃ lost, Own t (lost + b ::ₘ held) all exts)
  queued : t.socks.queued = held + Multiset.replicate k b

variable {k : Nat} {ip : Word} {hdr : Packet} {frame : List Byte}

theorem ends_free_if {r : Int} (lost : Multiset Nat) (h : Own s (lost + b ::ₘ held) all exts)
    (hq : s.socks.queued = held + Multiset.replicate k b) :
    Ends (fun _ => False) (if r = 0 then freeNetBuffer b else pure () : NetProg Unit)
      (fun _ t => Settled held all exts b (r = 0) k t) s := by
  split
  · next hr =>
    rw [Multiset.add_cons] at h
    refine (ends_own_free h).imp fun _ t ht => ⟨Or.inl ⟨hr, ht.2.2, lost, ht.1⟩, ?_⟩
    rw [ht.2.1]
    exact hq
  · next hr => exact ⟨Or.inr ⟨hr, lost, h⟩, hq⟩

theorem Settled.congr {freed freed' : Prop} {k' : Nat} (h : Settled held all exts b freed k t) (hf : freed ↔ freed')
    (hk : k = k') : Settled held all exts b freed' k' t := by
  cases propext hf
  cases hk
  exact h

theorem ends_free_settled (h : Own s (b ::ₘ held) all exts) (hq : s.socks.queued = held + Multiset.replicate k b) :
    Ends (fun _ => False) (freeNetBuffer b) (fun _ t => Settled held all exts b True k t) s := by
  refine (ends_own_free h).imp fun _ t ht => ⟨Or.inl ⟨trivial, ht.2.2, 0, by rw [zero_add]; exact ht.1⟩, ?_⟩
  rw [ht.2.1]
  exact hq

theorem own_setSocks {x : Sockets} (h : Own s held all exts) : Own (s.setSocks x) held all exts :=
  h.congr rfl rfl rfl fun _ _ => rfl

theorem ends_udpReceive (h : Own s (b ::ₘ held) all exts) (hp : s.Holds b p)
    (hq : s.socks.queued = held + Multiset.replicate k b) : Ends (fun _ => False) (udpReceive cfg b ip) (fun r t =>
      (r = 0 ↔ s.UdpRight cfg p ip ∧ s.socks.dgramRefused (ntohs (getHalf p.data 2)) = true) ∧
      Own t (b ::ₘ held) all exts ∧ t.socks.queued = held + Multiset.replicate (k +
        if s.UdpRight cfg p ip then (s.socks.dgramTakers (ntohs (getHalf p.data 2))).length else 0) b) s := by
  unfold udpReceive
  rw [ends_get_bind, hp.view, ends_bind]
  refine (ends_receiveSum h hp ip 17 _).imp ?_
  rintro r t ⟨ho, hs, hpt, rfl⟩
  by_cases hright : s.UdpRight cfg p ip
  · rw [if_pos hright.1]
    dsimp only
    rw [if_neg (not_not.mpr hright.2), ends_popFront]
    refine (ends_dgramNetReceive _ b ip _ _).imp ?_
    rintro r u ⟨hr, x, rfl, hx⟩
    have hsocks : (t.popFront b 8).2.socks = s.socks := (still_popFront t b 8).socks.trans hs
    rw [hsocks] at hr hx
    refine ⟨?_, own_setSocks (ho.still (still_popFront t b 8)), ?_⟩
    · rw [hr]
      split
      · next hf => exact ⟨fun _ => ⟨hright, hf⟩, fun _ => rfl⟩
      · next hf => exact ⟨fun h => absurd h (by decide), fun h => absurd h.2 hf⟩
    · change x.queued = _
      rw [if_pos hright, hx, hq, add_assoc, ← Multiset.replicate_add]
  · by_cases ha : s.Alloc (12 + p.len)
    on_goal 1 =>
      rw [if_pos ha]
      dsimp only
      rw [if_pos fun hsum => hright ⟨ha, hsum⟩]
    on_goal 2 => rw [if_neg ha]
    all_goals
      refine ⟨⟨fun h => absurd h (by decide), fun h => absurd h.1 hright⟩, ho, ?_⟩
      rw [if_neg hright, hs]
      exact hq

def Net.Packet.segment (p : Packet) : List Byte := bytes (p.pop 20).data (p.pop 20).len

theorem ends_streamReceive {hdr : TcpHdr} {x : Int × StreamTable × List TcpSend} (h : Own s (b ::ₘ held) all exts)
    (hx : s.socks.streams.streamNetReceive hdr ip (s.content b) = some x) :
    Ends (fun _ => False) (streamReceive cfg hdr b ip) (fun r t => r = x.1 ∧
      (∃ lost, Own t (lost + b ::ₘ held) all exts) ∧ t.socks.queued = s.socks.queued) s := by
  unfold streamReceive
  rw [ends_get_bind, hx]
  rw [ends_bind]
  change Ends _ (tcpTransmits cfg x.2.2 >>= fun _ => pure x.1) _ (s.setSocks { s.socks with streams := x.2.1 })
  rw [ends_bind]
  refine (loses_tcpTransmits x.2.2 (own_setSocks h)).imp fun _ t ht => ⟨rfl, ht.1, ?_⟩
  rw [ht.2]
  rfl

theorem ends_tcpReceive (h : Own s (b ::ₘ held) all exts) (hp : s.Holds b p)
    (hq : s.socks.queued = held + Multiset.replicate k b)
    (hnull : s.TcpRight cfg p ip → ¬s.socks.streams.NullDup (.read p.data) ip p.segment) :
    Ends (fun _ => False) (tcpReceive cfg b ip) (fun r t =>
      (r = 0 ↔ s.TcpRight cfg p ip ∧ s.socks.streams.Takes (.read p.data) ip p.segment) ∧
      (∃ lost, Own t (lost + b ::ₘ held) all exts) ∧ t.socks.queued = held + Multiset.replicate k b) s := by
  unfold tcpReceive
  rw [ends_get_bind, hp.view, hp.dataLen, ends_bind]
  refine (ends_receiveSum h hp ip 6 _).imp ?_
  rintro r t ⟨ho, hs, hpt, rfl⟩
  by_cases hright : s.TcpRight cfg p ip
  · have hstill := still_popFront t b 20
    have hsocks : (t.popFront b 20).2.socks = s.socks := hstill.socks.trans hs
    have hcont : (t.popFront b 20).2.content b = p.segment := (hpt.popFront 20).content
    have hqueued : (t.popFront b 20).2.socks.queued = held + Multiset.replicate k b := by
      rw [hsocks]
      exact hq
    rw [if_pos hright.1]
    dsimp only
    rw [if_neg (not_not.mpr hright.2), ends_popFront]
    by_cases htakes : s.socks.streams.Takes (.read p.data) ip p.segment
    · obtain ⟨x, hx, hx0⟩ := StreamTable.streamNetReceive_takes htakes (hnull hright)
      rw [← hcont, ← hsocks] at hx
      refine (ends_streamReceive (ho.still hstill) hx).imp ?_
      rintro r u ⟨rfl, hu, hk⟩
      exact ⟨⟨fun _ => ⟨hright, htakes⟩, fun _ => hx0⟩, hu, hk.trans hqueued⟩
    · obtain ⟨x, hx, hx1⟩ := StreamTable.streamNetReceive_not_takes htakes
      rw [← hcont, ← hsocks] at hx
      refine (ends_streamReceive (ho.still hstill) hx).imp ?_
      rintro r u ⟨rfl, hu, hk⟩
      refine ⟨⟨fun h => ?_, fun h => absurd h.2 htakes⟩, hu, hk.trans hqueued⟩
      rw [hx1] at h
      exact absurd h (by decide)
  · by_cases ha : s.Alloc (12 + p.len)
    on_goal 1 =>
      rw [if_pos ha]
      dsimp only
      rw [if_pos fun hsum => hright ⟨ha, hsum⟩]
    on_goal 2 => rw [if_neg ha]
    all_goals
      refine ⟨⟨fun h => absurd h (by decide), fun h => absurd h.1 hright⟩, ⟨0, by rw [zero_add]; exact ho⟩, ?_⟩
      rw [hs]
      exact hq

def Net.Packet.srcIp (p : Packet) : Word := ntohl (getWord p.data 12)

/-- `ip_t::receive` frees a packet with the right checksum that is no datagram or segment, a datagram a full
socket refused, or a segment a socket took. -/
def Net.PacketFreed (cfg : NetCfg) (s : Net) (p : Packet) : Prop :=
  checkSum (bytes p.data 20) = 0 ∧
    (p.data 9 = 17 → s.UdpRight cfg (p.pop 20) p.srcIp ∧
      s.socks.dgramRefused (ntohs (getHalf (p.pop 20).data 2)) = true) ∧
    (p.data 9 = 6 → s.TcpRight cfg (p.pop 20) p.srcIp ∧
      s.socks.streams.Takes (.read (p.pop 20).data) p.srcIp (p.pop 20).segment)

def Net.packetQueued (cfg : NetCfg) (s : Net) (p : Packet) : Nat :=
  if checkSum (bytes p.data 20) = 0 then
    (s.socks.rawTakers ((p.data 9).setWidth 32)).length +
      if p.data 9 = 17 ∧ s.UdpRight cfg (p.pop 20) p.srcIp then
        (s.socks.dgramTakers (ntohs (getHalf (p.pop 20).data 2))).length
      else 0
  else 0

def Net.PacketNullDup (cfg : NetCfg) (s : Net) (p : Packet) : Prop :=
  checkSum (bytes p.data 20) = 0 ∧ p.data 9 = 6 ∧ s.TcpRight cfg (p.pop 20) p.srcIp ∧
    s.socks.streams.NullDup (.read (p.pop 20).data) p.srcIp (p.pop 20).segment

theorem sumRight_congr (hn : t.netBuffers = s.netBuffers) (he : t.extBuffers = s.extBuffers) (ip : Word)
    (protocol : Byte) (total : Half) : t.SumRight cfg p ip protocol total ↔ s.SumRight cfg p ip protocol total := by
  refine and_congr_left' ?_
  unfold Alloc
  rw [hn, he]

theorem ends_ipReceive_rest (h : Own s (b ::ₘ held) all exts) (hp : s.Holds b (hdr.pop 20))
    (hq : s.socks.queued = held + Multiset.replicate k b) (hsum : checkSum (bytes hdr.data 20) = 0)
    (hnull : ¬s.PacketNullDup cfg hdr) : Ends (fun _ => False)
      (if hdr.data 9 = 1 then do
        icmpReceive cfg b hdr.srcIp
        freeNetBuffer b
      else if hdr.data 9 = 17 then do
        if (← udpReceive cfg b hdr.srcIp) = 0 then freeNetBuffer b
      else if hdr.data 9 = 6 then do
        if (← tcpReceive cfg b hdr.srcIp) = 0 then freeNetBuffer b
      else freeNetBuffer b : NetProg Unit)
      (fun _ t => Settled held all exts b (s.PacketFreed cfg hdr) (k +
        if hdr.data 9 = 17 ∧ s.UdpRight cfg (hdr.pop 20) hdr.srcIp then
          (s.socks.dgramTakers (ntohs (getHalf (hdr.pop 20).data 2))).length
        else 0) t) s := by
  by_cases h1 : hdr.data 9 = 1
  · rw [if_pos h1, ends_bind]
    refine (conserves_icmpReceive b hdr.srcIp h).imp fun _ t ht => ?_
    refine (ends_free_settled ht.1 (ht.2 ▸ hq)).imp fun _ u hu => hu.congr ?_ ?_
    · refine ⟨fun _ => ⟨hsum, fun h => ?_, fun h => ?_⟩, fun _ => trivial⟩
      all_goals
        rw [h1] at h
        exact absurd h (by decide)
    · rw [if_neg fun h => absurd (h1.symm.trans h.1) (by decide)]
      rfl
  · rw [if_neg h1]
    by_cases h17 : hdr.data 9 = 17
    · rw [if_pos h17, ends_bind]
      refine (ends_udpReceive h hp hq).imp ?_
      rintro r t ⟨hr, ho, hk⟩
      refine (ends_free_if 0 (by rw [zero_add]; exact ho) hk).imp fun _ u hu => hu.congr ?_ ?_
      · rw [hr]
        refine ⟨fun hf => ⟨hsum, fun _ => hf, fun h => absurd (h17.symm.trans h) (by decide)⟩, fun hf => hf.2.1 h17⟩
      · by_cases hu' : s.UdpRight cfg (hdr.pop 20) hdr.srcIp
        · rw [if_pos hu', if_pos ⟨h17, hu'⟩]
        · rw [if_neg hu', if_neg fun h => hu' h.2]
    · rw [if_neg h17]
      have hno : (if hdr.data 9 = 17 ∧ s.UdpRight cfg (hdr.pop 20) hdr.srcIp then
          (s.socks.dgramTakers (ntohs (getHalf (hdr.pop 20).data 2))).length else 0) = 0 := if_neg fun h => h17 h.1
      rw [hno, Nat.add_zero]
      by_cases h6 : hdr.data 9 = 6
      · rw [if_pos h6, ends_bind]
        refine (ends_tcpReceive h hp hq fun hright hnd => hnull ⟨hsum, h6, hright, hnd⟩).imp ?_
        rintro r t ⟨hr, ⟨lost, ho⟩, hk⟩
        refine (ends_free_if lost ho hk).imp fun _ u hu => hu.congr ?_ rfl
        rw [hr]
        exact ⟨fun hf => ⟨hsum, fun h => absurd h h17, fun _ => hf⟩, fun hf => hf.2.2 h6⟩
      · rw [if_neg h6]
        refine (ends_free_settled h hq).imp fun _ u hu => hu.congr ?_ rfl
        exact ⟨fun _ => ⟨hsum, fun h => absurd h h17, fun h => absurd h h6⟩, fun _ => trivial⟩

structure SameInput (s t : Net) : Prop where
  netBuffers : t.netBuffers = s.netBuffers
  extBuffers : t.extBuffers = s.extBuffers
  dgrams : t.socks.dgrams = s.socks.dgrams
  streams : t.socks.streams = s.socks.streams

theorem SameInput.packetFreed (h : SameInput s t) (hdr : Packet) : t.PacketFreed cfg hdr ↔ s.PacketFreed cfg hdr := by
  have hsum : ∀ protocol total, t.SumRight cfg (hdr.pop 20) hdr.srcIp protocol total ↔
      s.SumRight cfg (hdr.pop 20) hdr.srcIp protocol total :=
    fun protocol total => sumRight_congr h.netBuffers h.extBuffers _ protocol total
  unfold PacketFreed UdpRight TcpRight Sockets.dgramRefused
  rw [hsum, hsum, h.dgrams, h.streams]

theorem SameInput.packetNullDup (h : SameInput s t) (hdr : Packet) :
    t.PacketNullDup cfg hdr ↔ s.PacketNullDup cfg hdr := by
  unfold PacketNullDup TcpRight
  rw [sumRight_congr h.netBuffers h.extBuffers, h.streams]

theorem SameInput.dgramQueued (h : SameInput s t) (hdr : Packet) (port : Half) :
    (if hdr.data 9 = 17 ∧ t.UdpRight cfg (hdr.pop 20) hdr.srcIp then (t.socks.dgramTakers port).length else 0) =
      if hdr.data 9 = 17 ∧ s.UdpRight cfg (hdr.pop 20) hdr.srcIp then (s.socks.dgramTakers port).length else 0 := by
  have hsum : t.UdpRight cfg (hdr.pop 20) hdr.srcIp ↔ s.UdpRight cfg (hdr.pop 20) hdr.srcIp :=
    sumRight_congr h.netBuffers h.extBuffers _ _ _
  unfold Sockets.dgramTakers
  rw [h.dgrams]
  exact if_congr (and_congr_right' hsum) rfl rfl

section

variable (h : Own s (b ::ₘ held) all exts)
include h

theorem ends_ipReceive (hp : s.Holds b hdr)
    (hq : s.socks.queued = held) (hnull : ¬s.PacketNullDup cfg hdr) : Ends (fun _ => False) (ipReceive cfg b)
      (fun _ t => Settled held all exts b (s.PacketFreed cfg hdr) (s.packetQueued cfg hdr) t) s := by
  have hstill := still_popFront s b 20
  have ho := h.still hstill
  unfold ipReceive
  rw [ends_get_bind, hp.view, ends_popFront]
  by_cases hsum : checkSum (bytes hdr.data 20) = 0
  · rw [if_neg (not_not_intro hsum), ends_bind, ends_discard]
    refine (ends_rawNetReceive _ b _).imp ?_
    rintro _ t ⟨x, rfl, hd, hst, hx⟩
    have hin : SameInput s ((s.popFront b 20).2.setSocks x) :=
      ⟨hstill.netBuffers, hstill.extBuffers, hd.trans (by rw [hstill.socks]), hst.trans (by rw [hstill.socks])⟩
    rw [hstill.socks, hq] at hx
    refine (ends_ipReceive_rest (own_setSocks ho) (k := (s.socks.rawTakers ((hdr.data 9).setWidth 32)).length) ?_ hx hsum
      (mt (hin.packetNullDup hdr).mp hnull)).imp fun _ t ht => ht.congr (hin.packetFreed hdr) ?_
    · exact ⟨(hp.popFront 20).view, (hp.popFront 20).dataLen⟩
    · unfold packetQueued
      rw [if_pos hsum, hin.dgramQueued]
  · rw [if_pos hsum]
    refine ⟨Or.inr ⟨fun hf => hsum hf.1, 0, by rw [zero_add]; exact ho⟩, ?_⟩
    unfold packetQueued
    rw [if_neg hsum, hstill.socks, hq, Multiset.replicate_zero, add_zero]

theorem tcpReceive_nullDup (hp : s.Holds b p)
    (hright : s.TcpRight cfg p ip) (hnull : s.socks.streams.NullDup (.read p.data) ip p.segment) :
    Ends (fun _ => True) (tcpReceive cfg b ip) (fun _ _ => False) s := by
  unfold tcpReceive
  rw [ends_get_bind, hp.view, hp.dataLen, ends_bind]
  refine (ends_receiveSum h hp ip 6 _).mono (fun _ _ => trivial) ?_
  rintro r t ⟨ho, hs, hpt, rfl⟩
  rw [if_pos hright.1]
  dsimp only
  rw [if_neg (not_not_intro hright.2), ends_popFront]
  have hsocks : (t.popFront b 20).2.socks = s.socks := (still_popFront t b 20).socks.trans hs
  have hcont : (t.popFront b 20).2.content b = p.segment := (hpt.popFront 20).content
  have hnone := StreamTable.streamNetReceive_nullDup hnull
  rw [← hcont, ← hsocks] at hnone
  unfold streamReceive
  rw [ends_get_bind, hnone]
  trivial

theorem ipReceive_nullDup (hp : s.Holds b hdr)
    (hnull : s.PacketNullDup cfg hdr) : Ends (fun _ => True) (ipReceive cfg b) (fun _ _ => False) s := by
  obtain ⟨hsum, h6, hright, hnd⟩ := hnull
  have hstill := still_popFront s b 20
  unfold ipReceive
  rw [ends_get_bind, hp.view, ends_popFront, if_neg (not_not_intro hsum), ends_bind, ends_discard]
  refine (ends_rawNetReceive _ b _).imp ?_
  rintro _ t ⟨x, rfl, -, hst, -⟩
  rw [if_neg (by rw [h6]; decide), if_neg (by rw [h6]; decide), if_pos h6, ends_bind]
  refine Ends.imp (tcpReceive_nullDup (p := hdr.pop 20) (own_setSocks (h.still hstill)) ?_ ?_ ?_) fun _ _ hf => hf.elim
  · exact ⟨(hp.popFront 20).view, (hp.popFront 20).dataLen⟩
  · exact (sumRight_congr hstill.netBuffers hstill.extBuffers _ _ _).mpr hright
  · change x.streams.NullDup _ _ _
    rw [hst, hstill.socks]
    exact hnd

end

/-- The bytes that the buffer of a received frame then has: the frame, and what its storage held before. -/
def Net.landed (s : Net) (frame : List Byte) : Packet where
  data := write (if 240 < frame.length then s.outer (s.extBuffers.headD 0) else s.inner (s.netBuffers.headD 0)) 0 frame
  len := frame.length

theorem Net.Took.landed (h : Took s frame.length b t) (ha : s.Alloc frame.length) :
    (t.append b frame).2.Holds b (s.landed frame) := by
  have hfit : frame.length ≤ (t.bufs b).left := by
    rw [h.left]
    split
    · exact ha.1
    · next hl => exact Nat.le_of_not_lt hl
  have hbuf := h.buf
  have hdata : (t.bufs b).data = 0 := by
    rw [hbuf]
    cases (t.bufs b).ext <;> rfl
  have hlen : (t.bufs b).dataLen = 0 := by
    rw [hbuf]
    cases (t.bufs b).ext <;> rfl
  have harea : t.area b = if 240 < frame.length then s.outer (s.extBuffers.headD 0) else s.inner (s.netBuffers.headD 0) := by
    have hleft := h.left
    unfold area
    rw [h.inner, h.outer, h.extBuffers, h.netBuffers]
    cases hx : (t.bufs b).ext with
    | none =>
      rw [hbuf, hx] at hleft
      split at hleft
      · cases hleft
      · next hl =>
        rw [if_neg hl]
        rfl
    | some e =>
      rw [hbuf, hx] at hleft
      split at hleft
      · next hl =>
        rw [if_pos hl]
        rfl
      · cases hleft
  refine ⟨?_, ?_⟩
  · rw [append_view hfit, hlen]
    unfold Net.view Net.landed
    rw [harea, hdata]
    simp only [Nat.zero_add]
  · rw [append_bufs hfit, hlen]
    exact Nat.zero_add _

/-- The state in which a frame that has a buffer is looked at: without that buffer in the pools. -/
def Net.without (s : Net) (len : Nat) : Net := (s.allocNetBuffer len).2

def Net.IpFrame (s : Net) (frame : List Byte) : Prop := htons (getHalf (s.landed frame).data 12) = protoIp

instance ipFrameDecidable (s : Net) (frame : List Byte) : Decidable (s.IpFrame frame) := inferInstanceAs (Decidable (_ = _))

/-- The frame is freed, at the end of `ethernet_t::receive` or of `ip_t::receive`. -/
def Net.FrameFreed (cfg : NetCfg) (s : Net) (frame : List Byte) : Prop :=
  s.IpFrame frame → (s.without frame.length).PacketFreed cfg ((s.landed frame).pop 14)

def Net.frameQueued (cfg : NetCfg) (s : Net) (frame : List Byte) : Nat :=
  if s.IpFrame frame then (s.without frame.length).packetQueued cfg ((s.landed frame).pop 14) else 0

def Net.FrameNullDup (cfg : NetCfg) (s : Net) (frame : List Byte) : Prop :=
  s.IpFrame frame ∧ (s.without frame.length).PacketNullDup cfg ((s.landed frame).pop 14)

theorem Net.Own.not_mem_held (h : Own s (b ::ₘ held) all exts) : b ∉ held := by
  have hn := h.nodup
  rw [← h.bufs, Multiset.nodup_add] at hn
  exact (Multiset.nodup_cons.mp hn.2.1).1

theorem ends_ethernetReceive_of_took (h : Own s held all exts) (hq : s.socks.queued = held)
    (ha : s.Alloc frame.length) (ht : Took s frame.length b t) (hs : s.without frame.length = t)
    (hnull : ¬s.FrameNullDup cfg frame) : Ends (fun _ => False) (do
      append b frame
      let s ← get
      let hdr := s.view b
      if htons (getHalf hdr 12) = protoArp then do
        popFront b 14
        arpReceive cfg (readMac hdr 6) b
        freeNetBuffer b
      else if htons (getHalf hdr 12) = protoIp then do
        popFront b 14
        ipReceive cfg b
      else freeNetBuffer b)
      (fun _ u => Settled held all exts b (s.FrameFreed cfg frame) (s.frameQueued cfg frame) u) t := by
  have hstill := still_append t b frame
  have ho := (h.took ht).still hstill
  have hland := ht.landed ha
  have hqueue : (t.append b frame).2.socks.queued = held + Multiset.replicate 0 b := by
    rw [hstill.socks, ht.socks, hq, Multiset.replicate_zero, add_zero]
  have hother : ¬s.IpFrame frame → ∀ u, Settled held all exts b True 0 u →
      Settled held all exts b (s.FrameFreed cfg frame) (s.frameQueued cfg frame) u := by
    intro hip u hu
    exact hu.congr ⟨fun _ hi => absurd hi hip, fun _ => trivial⟩ (if_neg hip).symm
  rw [ends_append, ends_get_bind, hland.view]
  by_cases harp : htons (getHalf (s.landed frame).data 12) = protoArp
  · have hip : ¬s.IpFrame frame := fun hi => absurd (harp.symm.trans hi) (by decide)
    rw [if_pos harp, ends_popFront, ends_bind]
    refine (conserves_arpReceive _ b (ho.still (still_popFront _ b 14))).imp fun _ u hu => ?_
    refine (ends_free_settled hu.1 (k := 0) ?_).imp fun _ v hv => hother hip v hv
    rw [hu.2, (still_popFront _ b 14).socks]
    exact hqueue
  · rw [if_neg harp]
    by_cases hip : htons (getHalf (s.landed frame).data 12) = protoIp
    · have hpop := still_popFront (t.append b frame).2 b 14
      have hin : SameInput (s.without frame.length) ((t.append b frame).2.popFront b 14).2 := by
        rw [hs]
        exact ⟨hpop.netBuffers.trans hstill.netBuffers, hpop.extBuffers.trans hstill.extBuffers,
          by rw [hpop.socks, hstill.socks], by rw [hpop.socks, hstill.socks]⟩
      have hraw : ((t.append b frame).2.popFront b 14).2.socks = (s.without frame.length).socks := by
        rw [hpop.socks, hstill.socks, hs]
      rw [if_pos hip, ends_popFront]
      refine (ends_ipReceive (ho.still hpop) (hland.popFront 14) ?_ ?_).imp fun _ u hu => hu.congr ?_ ?_
      · rw [hpop.socks, hqueue, Multiset.replicate_zero, add_zero]
      · exact mt (hin.packetNullDup _).mp fun hn => hnull ⟨hip, hn⟩
      · rw [hin.packetFreed]
        exact ⟨fun hf _ => hf, fun hf => hf hip⟩
      · unfold frameQueued packetQueued
        rw [if_pos (show s.IpFrame frame from hip), hin.dgramQueued, hraw]
    · rw [if_neg hip]
      exact (ends_free_settled ho hqueue).imp fun _ v hv => hother hip v hv

end

end BabyOS
