import BabyOS.MmRefine

open Function

namespace BabyOS

namespace Mm

/-- The allocator is laid out as boot left it and holds a well-formed buddy system. -/
structure Ok (mm : Mm) (b : Buddy) : Prop where
  layout : Layout mm
  rep : Rep mm b
  wf : b.Wf maxOrder mm.pages

section

variable {mm mm' : Mm} {b b' : Buddy}

theorem Rep.of_eq (h : Rep mm b) (hlinks : mm'.links = mm.links) (hbits : mm'.bits = mm.bits)
    (hfixed : mm'.fixed = mm.fixed) : Rep mm' b := by
  have hmap : mm'.map = mm.map := by
    simp only [fixed, Prod.mk.injEq] at hfixed
    exact hfixed.2.2
  refine ⟨?_, ?_⟩
  · rw [hlinks, pageAddr_of_fixed hfixed]
    exact h.rings
  · rw [hbits, hmap, pages_of_fixed hfixed]
    exact h.bits

theorem Ok.of_eq (h : Ok mm b) (hlinks : mm'.links = mm.links) (hbits : mm'.bits = mm.bits)
    (hfixed : mm'.fixed = mm.fixed) : Ok mm' b :=
  ⟨h.layout.of_fixed hfixed, h.rep.of_eq hlinks hbits hfixed, pages_of_fixed hfixed ▸ h.wf⟩

variable {o n order : Nat} {ns : List Nat}

section

variable (h : Ok mm b) (ho : o ≤ maxOrder)
include h ho

theorem Ok.next_nil (hfree : b.free o = []) : mm.links.next (.head o) = .head o := by
  have hr := h.rep.rings o ho
  rw [hfree] at hr
  exact hr.2.1

theorem Ok.next_cons (hfree : b.free o = n :: ns) : mm.links.next (.head o) = .block (mm.pageAddr n) := by
  have hr := h.rep.rings o ho
  rw [hfree] at hr
  exact hr.next_head

theorem Ok.pop (hfree : b.free o = n :: ns) :
    Ok ({ mm with links := mm.links.popAfter (.head o) (.block (mm.pageAddr n)) }.markUsed
      (mm.pageAddr n) o) ((b.drop o n).toggle o (n / 2 ^ (o + 1))) := by
  have hm : n ∈ b.free o := by simp [hfree]
  have hpos := Nat.two_pow_pos o
  have hbound := h.wf.bound o n hm
  have hindex := toNat_index (o := o) (show n ≤ mm.pages by omega)
  have hlt := h.layout.index_lt ho (show n < mm.pages by omega)
  have hpop : mm.links.popAfter (.head o) (.block (mm.pageAddr n)) =
      mm.links.unlink (.block (mm.pageAddr n)) := by
    have hr := h.rep.rings o ho
    rw [hfree] at hr
    exact hr.popAfter_eq
  have htog := h.rep.toggle h.layout ho (hindex.trans_lt hlt)
  rw [hindex] at htog
  rw [hpop]
  exact ⟨⟨h.layout.1, h.layout.2, h.layout.3, h.layout.4⟩,
    ⟨(h.rep.drop h.wf ho hm).rings, htog.bits⟩, h.wf.drop hm⟩

end

theorem Ok.expand (h : Ok mm b) {low i : Nat} (ho : low + i ≤ maxOrder)
    (ha : 2 ^ (low + i) ∣ n) (hb : n + 2 ^ (low + i) ≤ mm.pages) (hc : b.Clear (low + i) n) :
    Ok (mm.expand (mm.pageAddr n) low (low + i)).1 (b.split low i n).1 ∧
      (mm.expand (mm.pageAddr n) low (low + i)).2 = mm.pageAddr (b.split low i n).2 ∧
      (mm.expand (mm.pageAddr n) low (low + i)).1.fixed = mm.fixed ∧
      ∀ j, (mm.expand (mm.pageAddr n) low (low + i)).1.ref (mm.frame j) = mm.ref (mm.frame j) +
        (if (b.split low i n).2 ≤ j ∧ j < (b.split low i n).2 + 2 ^ low then 1 else 0) := by
  obtain ⟨hrep, haddr⟩ := h.rep.expandLoop h.layout h.wf ho ha hb hc
  obtain ⟨hwf, _, _, hle, _⟩ := h.wf.split ho ha hb hc
  obtain ⟨hfixed, href, -⟩ := fixed_expandLoop mm low i (pageSize <<< (low + i)) (mm.pageAddr n)
  have hsub : low + i - low = i := by omega
  have hpow : (mathPow 2 low).toNat = 2 ^ low := toNat_mathPow (by unfold maxOrder at ho; omega)
  unfold Mm.expand
  simp only [hsub, hpow, haddr]
  have hsplit : (b.split low i n).2 + 2 ^ low ≤
      (mm.expandLoop low i (pageSize <<< (low + i)) (mm.pageAddr n)).1.pages := by
    rw [pages_of_fixed hfixed]
    omega
  obtain ⟨h1, h2, h3, h4⟩ := incPages_spec (h.layout.of_fixed hfixed) hsplit
  have hok : Ok (mm.expandLoop low i (pageSize <<< (low + i)) (mm.pageAddr n)).1
      (b.split low i n).1 := ⟨h.layout.of_fixed hfixed, hrep, pages_of_fixed hfixed ▸ hwf⟩
  rw [frame_of_fixed hfixed, href] at h4
  rw [pageAddr_of_fixed hfixed] at h1 h2 h3 h4
  exact ⟨hok.of_eq h1 h2 h3, trivial, h3.trans hfixed, h4⟩

theorem Ok.allocLoop (h : Ok mm b) {fuel i : Nat} (hf : order + i + fuel = maxOrder + 1) :
    (b.take order fuel i = none ∧ mm.allocLoop order fuel (order + i) = (mm, none)) ∨
      ∃ b' m mm', b.take order fuel i = some (b', m) ∧
        mm.allocLoop order fuel (order + i) = (mm', some (mm.pageAddr m)) ∧ Ok mm' b' ∧
        mm'.fixed = mm.fixed ∧ ∀ j, mm'.ref (mm.frame j) = mm.ref (mm.frame j) +
          (if m ≤ j ∧ j < m + 2 ^ order then 1 else 0) := by
  induction fuel generalizing i with
  | zero => exact Or.inl ⟨rfl, rfl⟩
  | succ fuel ih =>
    have ho : order + i ≤ maxOrder := by omega
    cases hfree : b.free (order + i) with
    | nil =>
      have hnext := h.next_nil ho hfree
      simp only [Buddy.take, hfree, Mm.allocLoop, hnext]
      exact ih (by omega)
    | cons n ns =>
      have hnext := h.next_cons ho hfree
      have hm : n ∈ b.free (order + i) := by simp [hfree]
      have hpop := h.pop ho hfree
      obtain ⟨hok, haddr, hfixed, href⟩ := hpop.expand ho (h.wf.aligned _ _ hm)
        (h.wf.bound _ _ hm) (h.wf.clear_of_mem hm)
      right
      simp only [Buddy.take, hfree, Mm.allocLoop, hnext, Option.some.injEq, Prod.mk.injEq]
      exact ⟨_, _, _, rfl, ⟨rfl, haddr⟩, hok, hfixed, href⟩

theorem Ok.allocPages (h : Ok mm b) (ho : order ≤ maxOrder) :
    (∃ mm', mm.allocPages order = (mm', none) ∧ Ok mm' b ∧ mm'.fixed = mm.fixed ∧
      mm'.ref = mm.ref ∧ ∀ o, order ≤ o → b.free o = []) ∨
      ∃ b' m mm', mm.allocPages order = (mm', some (mm.pageAddr m)) ∧ Ok mm' b' ∧
        mm'.fixed = mm.fixed ∧ 2 ^ order ∣ m ∧ m + 2 ^ order ≤ mm.pages ∧
        (∀ p, m ≤ p → p < m + 2 ^ order → b.Covers p) ∧
        (∀ p, b'.Covers p ↔ b.Covers p ∧ ¬(m ≤ p ∧ p < m + 2 ^ order)) ∧
        ∀ j, mm'.ref (mm.frame j) = mm.ref (mm.frame j) + (if m ≤ j ∧ j < m + 2 ^ order then 1 else 0) := by
  have hok : Ok { mm with freePageNum := mm.freePageNum - mathPow 2 order } b :=
    h.of_eq rfl rfl rfl
  have hf : order + 0 + (maxOrder - order + 1) = maxOrder + 1 := by omega
  rcases hok.allocLoop hf with ⟨ht, hnone⟩ | ⟨b', m, mm', ht, hsome, hok', hfixed, href⟩
  · refine Or.inl ⟨_, hnone, hok, rfl, rfl, ?_⟩
    intro o hoo
    by_cases hot : o ≤ maxOrder
    · have := Buddy.take_eq_none ht (o - order) (by omega) (by omega)
      rwa [show order + (o - order) = o by omega] at this
    · apply List.eq_nil_iff_forall_not_mem.mpr
      intro n hn
      exact hot (h.wf.order o n hn)
  · obtain ⟨_, hal, hle, hall, hcov⟩ := h.wf.take hf ht
    exact Or.inr ⟨b', m, mm', hsome, hok', hfixed, hal, hle, hall, hcov, href⟩

theorem allocLoop_none {fuel newOrder : Nat}
    (h : ∀ o, newOrder ≤ o → o < newOrder + fuel → mm.links.next (.head o) = .head o) :
    mm.allocLoop order fuel newOrder = (mm, none) := by
  induction fuel generalizing newOrder with
  | zero => rfl
  | succ fuel ih =>
    rw [Mm.allocLoop, h newOrder (Nat.le_refl _) (by omega)]
    exact ih fun o h1 h2 => h o (by omega) (by omega)

theorem exists_block (ho : order ≤ maxOrder) (h : (mm.allocPages order).2 ≠ none) :
    ∃ o, order ≤ o ∧ o ≤ maxOrder ∧ mm.links.next (.head o) ≠ .head o := by
  by_contra hno
  refine h ?_
  unfold Mm.allocPages
  rw [allocLoop_none]
  intro o h1 h2
  by_contra hne
  exact hno ⟨o, h1, by omega, hne⟩

theorem Ok.allocTop (h : Ok mm b) (hfree : b.free maxOrder = n :: ns) :
    ∃ mm' b', mm.allocPages maxOrder = (mm', some (mm.pageAddr n)) ∧ Ok mm' b' ∧ mm'.fixed = mm.fixed ∧
      b'.free maxOrder = ns := by
  have hok : Ok { mm with freePageNum := mm.freePageNum - mathPow 2 maxOrder } b := h.of_eq rfl rfl rfl
  have htake : b.take maxOrder 1 0 = some ((b.drop maxOrder n).toggle maxOrder (n / 2 ^ (maxOrder + 1)), n) := by
    unfold Buddy.take
    rw [Nat.add_zero, hfree]
    rfl
  rcases hok.allocLoop (show maxOrder + 0 + 1 = maxOrder + 1 from rfl) with ⟨ht, -⟩ | ⟨b', m, mm', ht, hsome, hok', hfixed, -⟩
  · rw [htake] at ht
    cases ht
  · rw [htake] at ht
    cases ht
    refine ⟨mm', _, hsome, hok', hfixed, ?_⟩
    rw [Buddy.toggle_free]
    unfold Buddy.drop
    rw [hfree]
    simp only [update_self, List.erase_cons_head]

theorem Ok.freePages (h : Ok mm b) (ho : order ≤ maxOrder) (ha : 2 ^ order ∣ n)
    (hb : n + 2 ^ order ≤ mm.pages) (hc : b.Clear order n) (hpos : 0 < (mm.ref (mm.frame n)).toInt) :
    ∃ mm' b', mm.freePages (mm.pageAddr n) order = some mm' ∧ Ok mm' b' ∧ mm'.fixed = mm.fixed ∧
      mm'.ref = update mm.ref (mm.frame n) (mm.ref (mm.frame n) - 1) ∧ ∀ p, b'.Covers p ↔ b.Covers p ∨
        (mm.ref (mm.frame n) = 1 ∧ n ≤ p ∧ p < n + 2 ^ order) := by
  have hframe := h.layout.frame_eq (show n ≤ mm.pages by omega)
  have hdec : mm.decPageRef (va2pa (mm.pageAddr n)) = some
      ({ mm with ref := update mm.ref (mm.frame n) (mm.ref (mm.frame n) - 1) },
        mm.ref (mm.frame n) - 1 == 0) := by
    unfold decPageRef
    simp only [hframe, show ¬(mm.ref (mm.frame n)).toInt ≤ 0 by omega, if_false]
  unfold Mm.freePages
  rw [hdec]
  by_cases hone : mm.ref (mm.frame n) = 1
  · have hzero : (mm.ref (mm.frame n) - 1 == 0) = true := by rw [hone]; decide
    rw [hzero]
    have hindex := toNat_index (o := order) (show n ≤ mm.pages by omega)
    have hround : mm.pageAddr n &&& pageMask <<< order = mm.pageAddr n := by
      rw [pageMask_eq, highMask_shiftLeft, h.layout.pageAddr_and (by omega) (by unfold maxOrder at ho; omega)]
      rw [Nat.div_mul_cancel ha]
    have hfuel : maxOrder - order + order = maxOrder := by omega
    obtain ⟨hwf, hcov⟩ := h.wf.release hfuel ha hb hc
    have hok : Ok { mm with ref := update mm.ref (mm.frame n) (mm.ref (mm.frame n) - 1)
                            freePageNum := mm.freePageNum + mathPow 2 order } b :=
      h.of_eq rfl rfl rfl
    have hrep := hok.rep.freeLoop hok.layout hok.wf hfuel ha hb hc hindex
    obtain ⟨hfixed, href, -⟩ := fixed_freeLoop
      { mm with ref := update mm.ref (mm.frame n) (mm.ref (mm.frame n) - 1)
                freePageNum := mm.freePageNum + mathPow 2 order }
      (maxOrder - order) order (mm.pageAddr n) (highMask (12 + order))
      (mapNr (mm.pageAddr n - mm.base) >>> (1 + order))
    rw [← highMask_shiftLeft, ← pageMask_eq] at hrep hfixed href
    refine ⟨_, b.release (maxOrder - order) order n, rfl, ?_⟩
    simp only [hround]
    refine ⟨⟨h.layout.of_fixed hfixed, hrep, ?_⟩, hfixed, href, fun p => ?_⟩
    · rw [pages_of_fixed hfixed]
      exact hwf
    · simp [hcov, hone]
  · have hzero : (mm.ref (mm.frame n) - 1 == 0) = false := by
      have hne : mm.ref (mm.frame n) - 1 ≠ 0 := by
        intro he
        exact hone (by bv_omega)
      simpa using hne
    rw [hzero]
    exact ⟨_, b, rfl, h.of_eq rfl rfl rfl, rfl, rfl,
      fun p => ⟨Or.inl, fun hp => hp.resolve_right (fun hr => hone hr.1)⟩⟩

end

end Mm

end BabyOS
