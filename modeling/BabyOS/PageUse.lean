import BabyOS.PageWalk
import BabyOS.VmSys

namespace BabyOS

namespace Machine

variable {m m' : Machine} {own : Slot → Option Nat} {wr : Slot → Bool} {p n : Nat} {pgDir va : Word}

theorem pteOf_some (hl : m.mm.Layout) (hn : n < m.mm.pages) (w : Bool) :
    m.pteOf w (some n) ≠ 0 ∧ m.pteOf w (some n) &&& pageMask = m.page n ∧
      m.pteOf w (some n) &&& pteP ≠ 0 ∧ m.pteOf w (some n) &&& pteU ≠ 0 ∧
      (m.pteOf w (some n) &&& pteW = 0 ↔ w = false) := by
  have hp := paged_page hl hn
  cases w <;> simp only [pteOf, Bool.false_eq_true, if_false, if_true]
  all_goals
    refine ⟨hp.or_ne_zero (by decide), hp.or_and_pageMask (by decide), ?_, ?_, ?_⟩ <;>
      rw [hp.or_and_low (by decide)] <;> decide

theorem pdeOf_some (hl : m.mm.Layout) (hn : n < m.mm.pages) :
    m.pdeOf (some n) &&& pteU ≠ 0 ∧ m.pdeOf (some n) &&& pteW ≠ 0 := by
  have hp := paged_page hl hn
  refine ⟨?_, ?_⟩ <;> rw [pdeOf, hp.or_and_low (by decide)] <;> decide

section

variable (hw : Walks m own wr p (va2pa pgDir) ∅) (h : Owned m own) (hva : va < kernelBase)
include hw h hva

theorem Walks.cases : (m.entry (va2pa pgDir) (pdIndex va) = 0 ∧ own (.of p va) = none) ∨
      ∃ t, t < m.mm.pages ∧ own (.table p (pdIndex va)) = some t ∧
        m.entry (va2pa pgDir) (pdIndex va) = m.pdeOf (some t) ∧
        m.entry (m.page t) (ptIndex va) = m.pteOf (wr (.of p va)) (own (.of p va)) := by
  have hpde := hw.pde _ (pdIndex_lt hva)
  cases ht : own (.table p (pdIndex va)) with
  | none =>
    left
    refine ⟨by rw [hpde, ht]; rfl, ?_⟩
    cases hu : own (.of p va) with
    | none => rfl
    | some n =>
      obtain ⟨t, ht'⟩ := h.shape.backed _ _ _ _ hu
      simp [ht] at ht'
  | some t =>
    exact Or.inr ⟨t, h.holds.inside _ _ ht, rfl, by rw [hpde, ht],
      hw.pte _ t ht _ (ptIndex_lt va) (Set.notMem_empty _)⟩

theorem Walks.va2paOf : m.va2paOf pgDir va =
      match own (.of p va) with
      | none => -1
      | some n => m.page n + (va - (va &&& pageMask)) := by
  have hk : ¬va ≥ kernelBase := by rw [ge_iff_le, BitVec.not_le]; exact hva
  unfold Machine.va2paOf
  rw [if_neg hk]
  rcases hw.cases h hva with ⟨hz, hu⟩ | ⟨t, hlt, _, hpde, hpte⟩
  · simp only [hz, hu]
    rfl
  · simp only [hpde, if_neg (pdeOf_and_pteP h.layout hlt), pdeOf_and_pageMask h.layout hlt, hpte]
    cases hu : own (.of p va) with
    | none => rfl
    | some n =>
      obtain ⟨h1, h2, -⟩ := pteOf_some h.layout (h.holds.inside _ _ hu)
        (wr (.of p va))
      simp only [if_neg h1, h2]

theorem Walks.translate (write : Bool) : m.translate pgDir va write =
      match own (.of p va) with
      | none => none
      | some n => if write ∧ wr (.of p va) = false then none
          else some (m.page n) := by
  have hk : ¬va ≥ kernelBase := by rw [ge_iff_le, BitVec.not_le]; exact hva
  unfold Machine.translate
  rw [if_neg hk]
  rcases hw.cases h hva with ⟨hz, hu⟩ | ⟨t, hlt, _, hpde, hpte⟩
  · simp only [hz, hu]
    rfl
  · obtain ⟨hU, hW⟩ := pdeOf_some h.layout hlt
    simp only [hpde, pdeOf_and_pteP h.layout hlt, hU, hW, and_false, or_false, if_false,
      pdeOf_and_pageMask h.layout hlt, hpte]
    cases hu : own (.of p va) with
    | none => exact if_pos (Or.inl (by rw [pteOf]; decide))
    | some n =>
      obtain ⟨-, h2, h3, h4, h5⟩ := pteOf_some h.layout (h.holds.inside _ _ hu)
        (wr (.of p va))
      simp only [h2, h3, h4, h5, false_or]

theorem Walks.present : Sys.present m pgDir va = (own (.of p va)).isSome := by
  unfold Sys.present
  rcases hw.cases h hva with ⟨hz, hu⟩ | ⟨t, hlt, _, hpde, hpte⟩
  · simp only [hz, hu]
    rfl
  · simp only [hpde, pdeOf_and_pageMask h.layout hlt, hpte]
    cases hu : own (.of p va) with
    | none => simp [pteOf]
    | some n =>
      obtain ⟨-, -, h3, -⟩ := pteOf_some h.layout (h.holds.inside _ _ hu)
        (wr (.of p va))
      simpa using ⟨pdeOf_and_pteP h.layout hlt, h3⟩

end

end Machine

end BabyOS
