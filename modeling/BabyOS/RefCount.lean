import Mathlib.Data.Set.Card

namespace BabyOS

section

variable {σ ν : Type} {own : σ → Option ν} {s t : σ} {n m : ν}

def holders (own : σ → Option ν) (n : ν) : Set σ := {s | own s = some n}

noncomputable def holdCount (own : σ → Option ν) (n : ν) : Nat := (holders own n).ncard

def FinitelyHeld (own : σ → Option ν) : Prop := {s | own s ≠ none}.Finite

section

variable (h : FinitelyHeld own)
include h

theorem FinitelyHeld.holders (n : ν) : (holders own n).Finite :=
  h.subset fun s hs => by
    have hs' : own s = some n := hs
    simp [hs']

theorem FinitelyHeld.pos_iff : 0 < holdCount own n ↔ ∃ s, own s = some n :=
  Set.ncard_pos (h.holders n)

theorem FinitelyHeld.pos (hs : own s = some n) : 0 < holdCount own n :=
  h.pos_iff.mpr ⟨s, hs⟩

theorem FinitelyHeld.eq_zero_iff : holdCount own n = 0 ↔ ∀ s, own s ≠ some n := by
  rw [← not_iff_not, ← ne_eq, ← Nat.pos_iff_ne_zero, h.pos_iff]
  simp

end

theorem holdCount_one (hs : own s = some n) (honly : ∀ t, own t = some n → t = s) : holdCount own n = 1 := by
  have he : BabyOS.holders own n = {s} := by
    ext t
    exact ⟨honly t, fun ht => by rw [Set.mem_singleton_iff.mp ht]; exact hs⟩
  rw [holdCount, he, Set.ncard_singleton]

variable [DecidableEq σ]

theorem FinitelyHeld.update (h : FinitelyHeld own) (s : σ) (o : Option ν) :
    FinitelyHeld (Function.update own s o) := by
  refine (h.insert s).subset fun t ht => ?_
  by_cases hts : t = s
  · exact Set.mem_insert_iff.mpr (Or.inl hts)
  · refine Set.mem_insert_iff.mpr (Or.inr ?_)
    simpa [Function.update_of_ne hts] using ht

theorem held_take (hs : own s = none) :
    (∃ t, Function.update own s (some n) t = some m) ↔ (∃ t, own t = some m) ∨ m = n := by
  constructor
  · rintro ⟨t, ht⟩
    by_cases hts : t = s
    · rw [hts, Function.update_self] at ht
      exact Or.inr (Option.some.inj ht).symm
    · rw [Function.update_of_ne hts] at ht
      exact Or.inl ⟨t, ht⟩
  · rintro (⟨t, ht⟩ | rfl)
    · refine ⟨t, ?_⟩
      rwa [Function.update_of_ne]
      rintro rfl
      rw [hs] at ht
      cases ht
    · exact ⟨s, Function.update_self _ _ _⟩

variable [DecidableEq ν]

theorem FinitelyHeld.count_take (h : FinitelyHeld own) (hs : own s = none) :
    holdCount (Function.update own s (some n)) m = holdCount own m + if m = n then 1 else 0 := by
  by_cases hmn : m = n
  · subst m
    have he : BabyOS.holders (Function.update own s (some n)) n = insert s (BabyOS.holders own n) := by
      ext t
      by_cases hts : t = s
      · simp [BabyOS.holders, hts]
      · simp [BabyOS.holders, hts]
    have hnot : s ∉ BabyOS.holders own n := by simp [BabyOS.holders, hs]
    rw [holdCount, he, Set.ncard_insert_of_notMem hnot (h.holders n), if_pos rfl]
    rfl
  · have he : BabyOS.holders (Function.update own s (some n)) m = BabyOS.holders own m := by
      ext t
      by_cases hts : t = s
      · simp [BabyOS.holders, hts, hs, Ne.symm hmn]
      · simp [BabyOS.holders, Function.update_of_ne hts]
    rw [holdCount, he, if_neg hmn]
    rfl

theorem FinitelyHeld.count_drop (h : FinitelyHeld own) (hs : own s = some n) :
    holdCount own m = holdCount (Function.update own s none) m + if m = n then 1 else 0 := by
  have htake := (h.update s none).count_take (m := m) (n := n) (Function.update_self s none own)
  rwa [Function.update_idem, ← hs, Function.update_eq_self] at htake

end

end BabyOS
