import BabyOS.NetStack
import Mathlib.Data.Multiset.Bind
import Mathlib.Data.Multiset.UnionInter

open Function List Multiset

namespace BabyOS

namespace Net

def extsOf (s : Net) (m : Multiset Nat) : Multiset Nat := m.bind fun b => ((s.bufs b).ext.toList : Multiset Nat)

/-- Every buffer is free, waits for an ARP reply or is held, and each is in one place; `all` and `exts` are all
there are. -/
structure Own (s : Net) (held all exts : Multiset Nat) : Prop where
  bufs : (s.netBuffers : Multiset Nat) + s.arp.waiting + held = all
  extBufs : (s.extBuffers : Multiset Nat) + s.extsOf (s.arp.waiting + held) = exts
  nodup : all.Nodup
  extNodup : exts.Nodup

section

variable {s t : Net} {held all exts : Multiset Nat} {b len : Nat}

theorem extsOf_add (m m' : Multiset Nat) : s.extsOf (m + m') = s.extsOf m + s.extsOf m' := add_bind _ _ _

theorem extsOf_cons (b : Nat) (m : Multiset Nat) : s.extsOf (b ::ₘ m) = ((s.bufs b).ext.toList : Multiset Nat) + s.extsOf m :=
  cons_bind _ _ _

theorem extsOf_congr {m : Multiset Nat} (h : ∀ b ∈ m, (t.bufs b).ext = (s.bufs b).ext) : t.extsOf m = s.extsOf m :=
  bind_congr fun b hb => by rw [h b hb]

theorem Own.not_mem_netBuffers (h : Own s held all exts) (hb : b ∈ (s.arp.waiting : Multiset Nat) + held) :
    b ∉ s.netBuffers := by
  intro hm
  have hn := h.nodup
  rw [← h.bufs, add_assoc, nodup_add] at hn
  exact disjoint_left.mp hn.2.2 (mem_coe.mpr hm) hb

theorem Own.netBuffers_nodup (h : Own s held all exts) : s.netBuffers.Nodup := by
  have hn := h.nodup
  rw [← h.bufs, add_assoc, nodup_add] at hn
  exact coe_nodup.mp hn.1

theorem Own.congr (h : Own s held all exts) (hn : t.netBuffers = s.netBuffers) (he : t.extBuffers = s.extBuffers)
    (ha : t.arp.waiting = s.arp.waiting) (hx : ∀ b, b ∉ s.netBuffers → (t.bufs b).ext = (s.bufs b).ext) :
    Own t held all exts := by
  refine ⟨?_, ?_, h.nodup, h.extNodup⟩
  · rw [hn, ha]
    exact h.bufs
  · rw [he, ha, extsOf_congr fun b hb => hx b (h.not_mem_netBuffers hb)]
    exact h.extBufs

/-- What `alloc_net_buffer` does when it gives a buffer. -/
structure Took (s : Net) (len b : Nat) (t : Net) : Prop where
  netBuffers : s.netBuffers = b :: t.netBuffers
  extBuffers : s.extBuffers = (t.bufs b).ext.toList ++ t.extBuffers
  buf : t.bufs b = NetBuf.init (t.bufs b).ext
  left : (t.bufs b).left = if 240 < len then 2048 else 240
  bufs : ∀ c, c ≠ b → t.bufs c = s.bufs c
  inner : t.inner = s.inner
  outer : t.outer = s.outer
  arp : t.arp = s.arp
  nextId : t.nextId = s.nextId
  socks : t.socks = s.socks
  frames : t.frames = s.frames

def Alloc (s : Net) (len : Nat) : Prop := len ≤ 2048 ∧ s.netBuffers ≠ [] ∧ (240 < len → s.extBuffers ≠ [])

instance allocDecidable (s : Net) (len : Nat) : Decidable (s.Alloc len) :=
  inferInstanceAs (Decidable (_ ∧ _ ∧ (_ → _)))

theorem takeBuffer_took {bs : List Nat} {ext : Option Nat} {s' : Net} (hs : s.netBuffers = b :: bs)
    (he : s.extBuffers = ext.toList ++ s'.extBuffers) (hs' : s' = { s with extBuffers := s'.extBuffers })
    (hl : (NetBuf.init ext).left = if 240 < len then 2048 else 240) : Took s len b (s'.takeBuffer b bs ext) := by
  have hext : (NetBuf.init ext).ext = ext := by cases ext <;> rfl
  have hself : (s'.takeBuffer b bs ext).bufs b = NetBuf.init ext := by
    simp only [takeBuffer, update_self]
  refine ⟨hs, ?_, ?_, ?_, ?_, ?_, ?_, ?_, ?_, ?_, ?_⟩
  · rw [hself, hext]
    exact he
  · rw [hself, hext]
  · rw [hself]
    exact hl
  · intro c hc
    rw [hs']
    simp only [takeBuffer, update_of_ne hc]
  all_goals
    rw [hs']
    rfl

theorem allocNetBuffer_cases (s : Net) (len : Nat) : (¬s.Alloc len ∧ s.allocNetBuffer len = (none, s)) ∨
    (s.Alloc len ∧ ∃ b t, s.allocNetBuffer len = (some b, t) ∧ Took s len b t) := by
  unfold allocNetBuffer
  by_cases hlen : 2048 < len
  · rw [if_pos hlen]
    exact Or.inl ⟨fun h => Nat.not_lt.mpr h.1 hlen, rfl⟩
  · rw [if_neg hlen]
    cases hb : s.netBuffers with
    | nil => exact Or.inl ⟨fun h => h.2.1 hb, rfl⟩
    | cons b bs =>
      by_cases hext : 240 < len
      · simp only [if_pos hext, allocExtBuffer]
        cases he : s.extBuffers with
        | nil => exact Or.inl ⟨fun h => h.2.2 hext he, rfl⟩
        | cons e es =>
          refine Or.inr ⟨⟨Nat.le_of_not_lt hlen, by rw [hb]; exact cons_ne_nil b bs,
            fun _ => by rw [he]; exact cons_ne_nil e es⟩,
            b, _, rfl, takeBuffer_took hb he rfl (if_pos hext).symm⟩
      · simp only [if_neg hext]
        exact Or.inr ⟨⟨Nat.le_of_not_lt hlen, by rw [hb]; exact List.cons_ne_nil b bs, fun h => absurd h hext⟩,
          b, _, rfl, takeBuffer_took hb rfl rfl (if_neg hext).symm⟩

theorem Own.ext_apart (h : Own s (b ::ₘ held) all exts) {e : Nat} (he : (s.bufs b).ext = some e) :
    e ∉ s.extBuffers ∧ e ∉ s.extsOf (s.arp.waiting + held) := by
  have hn := h.extNodup
  rw [← h.extBufs, Multiset.add_cons, extsOf_cons, he, add_left_comm, Multiset.nodup_add] at hn
  have hd := Multiset.disjoint_left.mp hn.2.2 (Multiset.mem_coe.mpr (List.mem_singleton_self e))
  exact ⟨fun hm => hd (Multiset.mem_add.mpr (Or.inl (Multiset.mem_coe.mpr hm))),
    fun hm => hd (Multiset.mem_add.mpr (Or.inr hm))⟩

theorem Own.apart {c : Nat} (h : Own s (b ::ₘ held) all exts) (hc : c ∈ held) : Apart s b c := by
  refine ⟨?_, fun e hb hce => ?_⟩
  · rintro rfl
    have hn := h.nodup
    rw [← h.bufs, Multiset.nodup_add] at hn
    exact (Multiset.nodup_cons.mp hn.2.1).1 hc
  · refine (h.ext_apart hb).2 (Multiset.mem_bind.mpr ⟨c, Multiset.mem_add.mpr (Or.inr hc), ?_⟩)
    rw [hce]
    exact Multiset.mem_coe.mpr (List.mem_singleton_self e)

theorem Own.took (h : Own s held all exts) (ht : Took s len b t) : Own t (b ::ₘ held) all exts := by
  have hb : b ∉ (s.arp.waiting : Multiset Nat) + held := by
    intro hb
    refine h.not_mem_netBuffers hb ?_
    rw [ht.netBuffers]
    exact mem_cons_self
  have hx : t.extsOf (s.arp.waiting + held) = s.extsOf (s.arp.waiting + held) := by
    refine extsOf_congr fun c hc => ?_
    rw [ht.bufs c]
    rintro rfl
    exact hb hc
  refine ⟨?_, ?_, h.nodup, h.extNodup⟩
  · rw [← h.bufs, ht.netBuffers, ht.arp, ← cons_coe, ← singleton_add, ← singleton_add b]
    abel
  · rw [← h.extBufs, ht.extBuffers, ht.arp, add_cons, extsOf_cons, hx, ← coe_add]
    abel

theorem freeNetBuffer_ext (s : Net) (b : Nat) : (s.freeNetBuffer b).extBuffers = (s.bufs b).ext.toList ++ s.extBuffers := by
  unfold freeNetBuffer
  cases (s.bufs b).ext <;> rfl

theorem freeNetBuffer_rest (s : Net) (b : Nat) : (s.freeNetBuffer b).netBuffers = b :: s.netBuffers ∧
    (s.freeNetBuffer b).bufs = s.bufs ∧ (s.freeNetBuffer b).inner = s.inner ∧ (s.freeNetBuffer b).outer = s.outer ∧
    (s.freeNetBuffer b).arp = s.arp ∧ (s.freeNetBuffer b).nextId = s.nextId ∧ (s.freeNetBuffer b).socks = s.socks ∧
    (s.freeNetBuffer b).frames = s.frames := by
  unfold freeNetBuffer
  cases (s.bufs b).ext <;> exact ⟨rfl, rfl, rfl, rfl, rfl, rfl, rfl, rfl⟩

theorem Own.freed (h : Own s (b ::ₘ held) all exts) : Own (s.freeNetBuffer b) held all exts := by
  obtain ⟨hn, hb, -, -, ha, -⟩ := freeNetBuffer_rest s b
  have hx : ∀ m, (s.freeNetBuffer b).extsOf m = s.extsOf m := fun m => extsOf_congr fun c _ => by rw [hb]
  refine ⟨?_, ?_, h.nodup, h.extNodup⟩
  · rw [hn, ha, ← h.bufs, ← cons_coe, ← singleton_add, ← singleton_add b]
    abel
  · rw [freeNetBuffer_ext, ha, hx, ← h.extBufs, add_cons, extsOf_cons, ← coe_add]
    abel

end

structure Still (s t : Net) : Prop where
  netBuffers : t.netBuffers = s.netBuffers
  extBuffers : t.extBuffers = s.extBuffers
  arp : t.arp = s.arp
  socks : t.socks = s.socks
  ext : ∀ b, (t.bufs b).ext = (s.bufs b).ext

theorem Still.refl (s : Net) : Still s s := ⟨rfl, rfl, rfl, rfl, fun _ => rfl⟩

theorem still_setArea (s : Net) (b : Nat) (f : Nat → Byte) : Still s (s.setArea b f) ∧ (s.setArea b f).bufs = s.bufs := by
  unfold setArea
  cases (s.bufs b).ext <;> exact ⟨⟨rfl, rfl, rfl, rfl, fun _ => rfl⟩, rfl⟩

theorem still_setBuf {s : Net} {b : Nat} {x : NetBuf} (h : x.ext = (s.bufs b).ext) : Still s (s.setBuf b x) := by
  refine ⟨rfl, rfl, rfl, rfl, fun c => ?_⟩
  by_cases hc : c = b
  · subst hc
    simp only [setBuf, update_self]
    exact h
  · simp only [setBuf, update_of_ne hc]

theorem still_append (s : Net) (b : Nat) (bs : List Byte) : Still s (s.append b bs).2 := by
  unfold append
  dsimp only
  split
  · exact Still.refl s
  · obtain ⟨ha, hb⟩ := still_setArea s b (write (s.area b) ((s.bufs b).data + (s.bufs b).dataLen) bs)
    have hs := still_setBuf (s := s.setArea b (write (s.area b) ((s.bufs b).data + (s.bufs b).dataLen) bs)) (b := b)
      (x := ⟨(s.bufs b).dataLen + bs.length, (s.bufs b).data, (s.bufs b).ext, (s.bufs b).left - bs.length⟩)
      (by rw [hb])
    exact ⟨hs.netBuffers.trans ha.netBuffers, hs.extBuffers.trans ha.extBuffers, hs.arp.trans ha.arp,
      hs.socks.trans ha.socks, fun c => (hs.ext c).trans (ha.ext c)⟩

theorem still_popFront (s : Net) (b n : Nat) : Still s (s.popFront b n).2 := by
  unfold popFront
  dsimp only
  split
  · exact Still.refl s
  · exact still_setBuf rfl

theorem Own.still {s t : Net} {held all exts : Multiset Nat} (h : Own s held all exts) (hs : Still s t) :
    Own t held all exts :=
  h.congr hs.netBuffers hs.extBuffers (by rw [hs.arp]) fun b _ => hs.ext b

end Net

open Net

section

variable {α β : Type} {s : Net} {held all exts : Multiset Nat} {b len : Nat}

/-- The program returns, leaves every buffer in the place it was in or in the pools, and keeps the sockets. -/
def Conserves (m : NetProg α) : Prop := ∀ ⦃s held all exts⦄, Own s held all exts →
  Ends (fun _ => False) m (fun _ t => Own t held all exts ∧ t.socks = s.socks) s

theorem conserves_pure (a : α) : Conserves (pure a : NetProg α) := fun _ _ _ _ h => ⟨h, rfl⟩

theorem conserves_get : Conserves (get : NetProg Net) := fun _ _ _ _ h => ⟨h, rfl⟩

variable {m : NetProg α} {f : α → NetProg β}

theorem Conserves.bind (hm : Conserves m) (hf : ∀ a, Conserves (f a)) : Conserves (m >>= f) := by
  intro s held all exts h
  rw [ends_bind]
  refine (hm h).imp fun a t ht => ?_
  exact (hf a ht.1).imp fun _ u hu => ⟨hu.1, hu.2.trans ht.2⟩

theorem Conserves.discard (hm : Conserves m) : Conserves (discard m) := by
  intro s held all exts h
  rw [ends_discard]
  exact (hm h).imp fun _ _ ht => ht

theorem conserves_still {f : Net → Net} (h : ∀ s, Still s (f s)) : Conserves (modify f : NetProg Unit) :=
  fun s _ _ _ ho => ⟨ho.still (h s), (h s).socks⟩

theorem conserves_append (b : Nat) (bs : List Byte) : Conserves (append b bs) :=
  conserves_still fun s => still_append s b bs

theorem conserves_appendZero (b n : Nat) : Conserves (appendZero b n) :=
  conserves_still fun s => still_append s b _

theorem conserves_popFront (b n : Nat) : Conserves (popFront b n) :=
  conserves_still fun s => still_popFront s b n

theorem conserves_store (b off : Nat) (bs : List Byte) : Conserves (store b off bs) :=
  conserves_still fun s => (still_setArea s b _).1

theorem conserves_cardTransmit (b : Nat) : Conserves (cardTransmit b) :=
  conserves_still fun _ => ⟨rfl, rfl, rfl, rfl, fun _ => rfl⟩

variable {E : NetErr → Prop} {k : Option Nat → NetProg α}

theorem ends_alloc {Q : α → Net → Prop}
    (hnone : ¬s.Alloc len → Ends E (k none) Q s) (hsome : ∀ b t, s.Alloc len → Took s len b t → Ends E (k (some b)) Q t) :
    Ends E (allocNetBuffer len >>= k) Q s := by
  rw [ends_bind]
  rcases allocNetBuffer_cases s len with ⟨hn, hs⟩ | ⟨ha, b, t, hs, ht⟩
  · refine (ends_of_ok (a := none) (t := s) ?_).mpr (hnone hn)
    exact congrArg Except.ok hs
  · refine (ends_of_ok (a := some b) (t := t) ?_).mpr (hsome b t ha ht)
    exact congrArg Except.ok hs

theorem ends_append {E : NetErr → Prop} {k : Unit → NetProg α} {Q : α → Net → Prop} {bs : List Byte} :
    Ends E (append b bs >>= k) Q s ↔ Ends E (k ()) Q (s.append b bs).2 := ends_bind

theorem ends_popFront {E : NetErr → Prop} {k : Unit → NetProg α} {Q : α → Net → Prop} :
    Ends E (popFront b len >>= k) Q s ↔ Ends E (k ()) Q (s.popFront b len).2 := ends_bind

theorem ends_get_bind {E : NetErr → Prop} {k : Net → NetProg α} {Q : α → Net → Prop} :
    Ends E (get >>= k) Q s ↔ Ends E (k s) Q s := ends_bind

theorem ends_free {Q : Unit → Net → Prop} (h : b ∉ s.netBuffers) :
    Ends E (freeNetBuffer b) Q s ↔ Q () (s.freeNetBuffer b) := by
  refine ends_of_ok ?_
  unfold freeNetBuffer
  rw [bind_ok (a := s) (t := s) rfl, if_neg h]
  rfl

theorem ends_own_free (h : Own s (b ::ₘ held) all exts) : Ends (fun _ => False) (freeNetBuffer b)
    (fun _ t => Own t held all exts ∧ t.socks = s.socks ∧ b ∈ t.netBuffers) s := by
  refine (ends_free (h.not_mem_netBuffers ?_)).mpr ⟨h.freed, ?_, ?_⟩
  · exact mem_add.mpr (Or.inr (mem_cons_self b held))
  · exact (freeNetBuffer_rest s b).2.2.2.2.2.2.1
  · rw [(freeNetBuffer_rest s b).1]
    exact mem_cons_self

/-- The program takes a buffer out of the hands it is in and puts it into the pools or the ARP wait queue. -/
def Frees (b : Nat) (m : NetProg α) : Prop := ∀ ⦃s held all exts⦄, Own s (b ::ₘ held) all exts →
  Ends (fun _ => False) m (fun _ t => Own t held all exts ∧ t.socks = s.socks) s

theorem frees_free (b : Nat) : Frees b (freeNetBuffer b) :=
  fun _ _ _ _ h => (ends_own_free h).imp fun _ _ ht => ⟨ht.1, ht.2.1⟩

theorem Conserves.frees (hm : Conserves m) (hf : ∀ a, Frees b (f a)) : Frees b (m >>= f) := by
  intro s held all exts h
  rw [ends_bind]
  refine (hm h).imp fun a t ht => ?_
  exact (hf a ht.1).imp fun _ u hu => ⟨hu.1, hu.2.trans ht.2⟩

theorem Frees.bind (hm : Frees b m) (hf : ∀ a, Conserves (f a)) : Frees b (m >>= f) := by
  intro s held all exts h
  rw [ends_bind]
  refine (hm h).imp fun a t ht => ?_
  exact (hf a ht.1).imp fun _ u hu => ⟨hu.1, hu.2.trans ht.2⟩

theorem conserves_alloc (hnone : Conserves (k none)) (hsome : ∀ b, Frees b (k (some b))) :
    Conserves (allocNetBuffer len >>= k) := by
  intro s held all exts h
  refine ends_alloc (fun _ => hnone h) fun b t _ ht => ?_
  exact (hsome b (h.took ht)).imp fun _ u hu => ⟨hu.1, hu.2.trans ht.socks⟩

end

section

variable {cfg : NetCfg} {α : Type}

variable {m : NetProg α} {s : Net} {held all exts : Multiset Nat}

variable {p : Prop} {m' : NetProg α} {f : Arp → Arp × List ArpCall}

theorem conserves_ite [Decidable p] (hm : Conserves m) (hm' : Conserves m') : Conserves (if p then m else m') := by
  split
  · exact hm
  · exact hm'

theorem frees_ite {b : Nat} [Decidable p] (hm : Frees b m) (hm' : Frees b m') : Frees b (if p then m else m') := by
  split
  · exact hm
  · exact hm'

theorem conserves_ethernetTransmit (mac : Mac) (protocol : Half) (data : List Byte) :
    Conserves (ethernetTransmit cfg mac protocol data) := by
  unfold ethernetTransmit
  refine conserves_ite (conserves_pure ()) (conserves_alloc (conserves_pure ()) fun b => ?_)
  refine (conserves_append b _).frees fun _ => (conserves_append b _).frees fun _ => ?_
  have hsend : Frees b (do cardTransmit b; freeNetBuffer b) := (conserves_cardTransmit b).frees fun _ => frees_free b
  exact frees_ite ((conserves_appendZero b _).frees fun _ => hsend) hsend

theorem conserves_arpRequest (ip : Word) : Conserves (arpRequest cfg ip) := by
  unfold arpRequest
  refine conserves_alloc (conserves_pure ()) fun b => ?_
  refine (conserves_append b _).frees fun _ => conserves_get.frees fun s => ?_
  exact (conserves_ethernetTransmit _ _ _).frees fun _ => frees_free b

theorem own_setArp {held' : Multiset Nat} {a : Arp} (h : Own s held all exts)
    (ha : (a.waiting : Multiset Nat) + held' = s.arp.waiting + held) : Own (s.setArp a) held' all exts := by
  refine ⟨?_, ?_, h.nodup, h.extNodup⟩
  · rw [← h.bufs, add_assoc, add_assoc]
    exact congrArg _ ha
  · rw [← h.extBufs]
    change _ + (s.setArp a).extsOf (a.waiting + held') = _
    rw [ha]
    rfl

theorem ends_arpCalls (cs : List ArpCall) (h : Own s (held + Arp.freedBy cs) all exts) :
    Ends (fun _ => False) (arpCalls cfg cs) (fun _ t => Own t held all exts ∧ t.socks = s.socks) s := by
  induction cs generalizing s with
  | nil => exact ⟨by rw [← add_zero held]; exact h, rfl⟩
  | cons c cs ih =>
    have hrest : ∀ t, Own t (held + Arp.freedBy cs) all exts ∧ t.socks = s.socks →
        Ends (fun _ => False) (arpCalls cfg cs) (fun _ u => Own u held all exts ∧ u.socks = s.socks) t :=
      fun t ht => (ih ht.1).imp fun _ u hu => ⟨hu.1, hu.2.trans ht.2⟩
    unfold arpCalls
    rw [ends_bind]
    cases c with
    | transmit mac b => exact ((conserves_get.bind fun _ => conserves_ethernetTransmit _ _ _) h).imp fun _ t ht => hrest t ht
    | request ip => exact (conserves_arpRequest ip h).imp fun _ t ht => hrest t ht
    | free b =>
      have hb : Own s (b ::ₘ (held + Arp.freedBy cs)) all exts := by
        rw [← add_cons]
        exact h
      exact (frees_free b hb).imp fun _ t ht => hrest t ht

theorem ends_runArp (given : Multiset Nat) (h : Own s (given + held) all exts)
    (hf : ((f s.arp).1.waiting : Multiset Nat) + Arp.freedBy (f s.arp).2 = s.arp.waiting + given) :
    Ends (fun _ => False) (runArp cfg f) (fun _ t => Own t held all exts ∧ t.socks = s.socks) s := by
  unfold runArp
  rw [ends_bind]
  change Ends _ (set (s.setArp (f s.arp).1) >>= fun _ => arpCalls cfg (f s.arp).2) _ s
  rw [ends_bind]
  change Ends _ (arpCalls cfg (f s.arp).2) _ (s.setArp (f s.arp).1)
  refine ends_arpCalls _ (own_setArp h ?_)
  rw [← add_assoc, ← add_assoc, ← hf]
  abel

theorem conserves_runArp
    (hf : ∀ a, ((f a).1.waiting : Multiset Nat) + Arp.freedBy (f a).2 = a.waiting) : Conserves (runArp cfg f) := by
  intro s held all exts h
  refine ends_runArp 0 (by rw [zero_add]; exact h) ?_
  rw [hf, add_zero]

theorem frees_addToWaitQueue (ip : Word) (b : Nat) : Frees b (runArp cfg fun a => a.addToWaitQueue ip b) := by
  intro s held all exts h
  have hb : b ∉ s.arp.waiting := by
    intro hb
    have hn := h.nodup
    rw [← h.bufs, nodup_add] at hn
    exact disjoint_left.mp hn.2.2 (mem_add.mpr (Or.inr (mem_coe.mpr hb)))
      (mem_cons_self b held)
  obtain ⟨hw, hfree⟩ := Arp.waiting_addToWaitQueue ip hb
  refine ends_runArp {b} (by rw [singleton_add]; exact h) ?_
  rw [hw, hfree, coe_nil, add_zero, add_comm, singleton_add]

theorem conserves_takeId : Conserves takeId :=
  fun _ _ _ _ h => ⟨h.still ⟨rfl, rfl, rfl, rfl, fun _ => rfl⟩, rfl⟩

theorem conserves_ipTransmit (ip : Word) (data : List Byte) (protocol : Byte) :
    Conserves (ipTransmit cfg ip data protocol) := by
  unfold ipTransmit
  refine conserves_ite (conserves_pure ()) (conserves_alloc (conserves_pure ()) fun b => ?_)
  refine conserves_takeId.frees fun id => (conserves_append b _).frees fun _ => (conserves_append b _).frees fun _ => ?_
  refine conserves_get.frees fun s => ?_
  split
  · exact (conserves_ethernetTransmit _ _ _).frees fun _ => frees_free b
  · exact frees_addToWaitQueue _ b

theorem conserves_arpReceive (etherAddr : Mac) (b : Nat) : Conserves (arpReceive cfg etherAddr b) := by
  unfold arpReceive
  refine conserves_get.bind fun s => conserves_ite (conserves_pure ()) (conserves_ite ?_ (conserves_ite ?_ ?_))
  · refine conserves_ite ?_ (conserves_pure ())
    exact (conserves_store b 0 _).bind fun _ => conserves_get.bind fun _ => conserves_ethernetTransmit _ _ _
  · refine conserves_runArp fun a => ?_
    rw [Arp.waiting_processWaitQueue, Arp.waiting_addToCache]
  · exact conserves_pure ()

theorem conserves_echo (type : Byte) (ip : Word) (id seq : Half) (null : Bool) (data : List Byte) :
    Conserves (echo cfg type ip id seq null data) := by
  unfold echo
  refine conserves_alloc (conserves_pure false) fun b => (conserves_append b _).frees fun _ => ?_
  have hsend : Frees b (do
      let s ← get
      ipTransmit cfg ip (Net.bytes (s.view b) ((data.length + 8) % 0x100000000)) 1
      freeNetBuffer b
      pure true) := by
    refine conserves_get.frees fun s => (conserves_ipTransmit _ _ _).frees fun _ => ?_
    exact (frees_free b).bind fun _ => conserves_pure true
  exact frees_ite ((conserves_append b _).frees fun _ => hsend) hsend

theorem conserves_icmpReceive (b : Nat) (ip : Word) : Conserves (icmpReceive cfg b ip) := by
  unfold icmpReceive echoRequestReceive
  refine conserves_get.bind fun s => conserves_ite ?_ (conserves_pure ())
  refine conserves_get.bind fun s => conserves_ite (conserves_pure ()) ?_
  exact (conserves_echo _ _ _ _ _ _).discard

/-- The program returns and moves no buffer, but some of them may be in nobody's hands afterwards. -/
def Loses (m : NetProg α) : Prop := ∀ ⦃s held all exts⦄, Own s held all exts →
  Ends (fun _ => False) m (fun _ t => (∃ lost, Own t (lost + held) all exts) ∧ t.socks = s.socks) s

theorem Conserves.loses (hm : Conserves m) : Loses m :=
  fun _ _ _ _ h => (hm h).imp fun _ _ ht => ⟨⟨0, by rw [zero_add]; exact ht.1⟩, ht.2⟩

theorem Loses.bind {β : Type} {f : α → NetProg β} (hm : Loses m) (hf : ∀ a, Loses (f a)) : Loses (m >>= f) := by
  intro s held all exts h
  rw [ends_bind]
  refine (hm h).imp ?_
  rintro a t ⟨⟨lost, ht⟩, hs⟩
  refine (hf a ht).imp ?_
  rintro _ u ⟨⟨lost', hu⟩, hs'⟩
  refine ⟨⟨lost' + lost, ?_⟩, hs'.trans hs⟩
  rw [add_assoc]
  exact hu

theorem Loses.discard (hm : Loses m) : Loses (discard m) := by
  intro s held all exts h
  rw [ends_discard]
  exact (hm h).imp fun _ _ ht => ht

theorem loses_alloc {len : Nat} {k : Option Nat → NetProg α} (hnone : Loses (k none)) (hsome : ∀ b, Loses (k (some b))) :
    Loses (allocNetBuffer len >>= k) := by
  intro s held all exts h
  refine ends_alloc (fun _ => hnone h) fun b t _ ht => ?_
  refine (hsome b (h.took ht)).imp ?_
  rintro _ u ⟨⟨lost, hu⟩, hs⟩
  refine ⟨⟨b ::ₘ lost, ?_⟩, hs.trans ht.socks⟩
  rw [cons_add, ← add_cons]
  exact hu

theorem conserves_sealed (cfg : NetCfg) (b off : Nat) (dstIp : Word) (protocol : Byte) : Conserves (do
      let s ← get
      store b off (le16 (checkSum (s.content b)))
      popFront b 12
      let s ← get
      ipTransmit cfg dstIp (s.content b) protocol
      pure (0 : Int)) := by
  refine conserves_get.bind fun s => (conserves_store b _ _).bind fun _ => (conserves_popFront b _).bind fun _ => ?_
  exact conserves_get.bind fun s => (conserves_ipTransmit _ _ _).bind fun _ => conserves_pure _

theorem conserves_udpBody (b : Nat) (dstIp : Word) (srcPort dstPort : Half) (data : List Byte) (total : Nat) :
    Conserves (do
      append b (pseudoHdr (htonl cfg.ipaddr) (htonl dstIp) 17 (htons (.ofNat 16 total)))
      append b (udpHdr (htons srcPort) (htons dstPort) (htons (.ofNat 16 total)) 0)
      append b data
      let s ← get
      store b 18 (le16 (checkSum (s.content b)))
      popFront b 12
      let s ← get
      ipTransmit cfg dstIp (s.content b) 17
      pure (0 : Int)) := by
  refine (conserves_append b _).bind fun _ => (conserves_append b _).bind fun _ => (conserves_append b _).bind fun _ => ?_
  exact conserves_sealed cfg b 18 dstIp 17

theorem conserves_tcpBody (b : Nat) (p : TcpSend) : Conserves (do
      append b (pseudoHdr (htonl cfg.ipaddr) (htonl p.dstIp) 6 (htons (.ofNat 16 p.total)))
      append b p.hdr.toBytes
      if p.data ≠ [] then append b p.data
      if p.tcpLen < p.total then appendZero b (p.total - p.tcpLen)
      let s ← get
      store b 28 (le16 (checkSum (s.content b)))
      popFront b 12
      let s ← get
      ipTransmit cfg p.dstIp (s.content b) 6
      pure (0 : Int)) := by
  refine (conserves_append b _).bind fun _ => (conserves_append b _).bind fun _ => ?_
  have hsend := conserves_sealed cfg b 28 p.dstIp 6
  have hpad := conserves_ite (p := p.tcpLen < p.total) ((conserves_appendZero b (p.total - p.tcpLen)).bind fun _ => hsend)
    hsend
  exact conserves_ite ((conserves_append b _).bind fun _ => hpad) hpad

theorem loses_udpTransmit (dstIp : Word) (srcPort dstPort : Half) (data : List Byte) :
    Loses (udpTransmit cfg dstIp srcPort dstPort data) :=
  loses_alloc (conserves_pure _).loses fun b => (conserves_udpBody b dstIp srcPort dstPort data _).loses

theorem loses_tcpTransmit (p : TcpSend) : Loses (tcpTransmit cfg p) :=
  loses_alloc (conserves_pure _).loses fun b => (conserves_tcpBody b p).loses

theorem loses_tcpTransmits (ps : List TcpSend) : Loses (tcpTransmits cfg ps) := by
  induction ps with
  | nil => exact (conserves_pure ()).loses
  | cons p ps ih => exact (loses_tcpTransmit p).discard.bind fun _ => ih

theorem conserves_parseName (b : Nat) (label name : List Byte) : Conserves (parseName b label name) := by
  induction name generalizing label with
  | nil =>
    unfold parseName
    refine conserves_ite (conserves_pure _) (conserves_ite (conserves_pure _) ?_)
    refine (conserves_append b _).bind fun _ => (conserves_append b _).bind fun _ => ?_
    exact (conserves_append b _).bind fun _ => conserves_pure _
  | cons c name ih =>
    unfold parseName
    refine conserves_ite (ih _) (conserves_ite (conserves_pure _) ?_)
    exact (conserves_append b _).bind fun _ => (conserves_append b _).bind fun _ => ih _

theorem loses_dnsBody (b : Nat) (name : List Byte) : Loses (do
      append b dnsHdr
      discard (parseName b [] name)
      append b (le16 (htons 1))
      append b (le16 (htons 1))
      let s ← get
      discard (udpTransmit cfg cfg.dnsAddr 50150 53 (s.content b))
      pure (0 : Int)) := by
  refine (conserves_append b _).loses.bind fun _ => (conserves_parseName b [] name).discard.loses.bind fun _ => ?_
  refine (conserves_append b _).loses.bind fun _ => (conserves_append b _).loses.bind fun _ => ?_
  exact conserves_get.loses.bind fun s => (loses_udpTransmit _ _ _ _).discard.bind fun _ => (conserves_pure _).loses

theorem loses_dnsQuery (name : List Byte) : Loses (dnsQuery cfg name) :=
  loses_alloc (conserves_pure _).loses fun b => loses_dnsBody b name

end

end BabyOS
