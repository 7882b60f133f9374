import Mathlib.Data.List.Basic

open List

namespace BabyOS

section

variable {α : Type} (lo hi : α → Nat)

def Spans (xs : List α) : Prop :=
  (∀ a ∈ xs, lo a < hi a) ∧ xs.Pairwise fun a b => hi a ≤ lo b

def Covered (xs : List α) (x : Nat) : Prop := ∃ a ∈ xs, lo a ≤ x ∧ x < hi a

variable {lo hi}

variable {xs ys : List α} {x : Nat} {a : α}

theorem covered_append : Covered lo hi (xs ++ ys) x ↔ Covered lo hi xs x ∨ Covered lo hi ys x := by
  simp only [Covered, mem_append, or_and_right, exists_or]

theorem covered_cons : Covered lo hi (a :: xs) x ↔ (lo a ≤ x ∧ x < hi a) ∨ Covered lo hi xs x := by
  simp only [Covered, mem_cons, or_and_right, exists_or, exists_eq_left]

theorem Spans.insert {v : α} (h : Spans lo hi (xs ++ ys)) (hv : lo v < hi v)
    (hx : ∀ a ∈ xs, hi a ≤ lo v) (hy : ∀ b ∈ ys, hi v ≤ lo b) : Spans lo hi (xs ++ v :: ys) := by
  obtain ⟨hne, hpair⟩ := h
  obtain ⟨hpx, hpy, hcross⟩ := pairwise_append.mp hpair
  refine ⟨?_, pairwise_append.mpr ⟨hpx, pairwise_cons.mpr ⟨hy, hpy⟩, ?_⟩⟩
  · intro a ha
    rcases mem_append.mp ha with ha | ha
    · exact hne a (mem_append_left _ ha)
    · rcases mem_cons.mp ha with rfl | ha
      · exact hv
      · exact hne a (mem_append_right _ ha)
  · intro a ha b hb
    rcases mem_cons.mp hb with rfl | hb
    · exact hx a ha
    · exact hcross a ha b hb

theorem Spans.merge {b c : α} (h : Spans lo hi (xs ++ a :: b :: ys))
    (hlo : lo c = lo a) (hhi : hi c = hi b) : Spans lo hi (xs ++ c :: ys) := by
  obtain ⟨hne, hpair⟩ := h
  obtain ⟨hpx, hpy, hcross⟩ := pairwise_append.mp hpair
  have ha := hne a (by simp)
  have hb := hne b (by simp)
  obtain ⟨hab, hbys⟩ := pairwise_cons.mp hpy
  obtain ⟨hby, hys⟩ := pairwise_cons.mp hbys
  have hmeet := hab b (by simp)
  refine Spans.insert ⟨?_, pairwise_append.mpr ⟨hpx, hys, ?_⟩⟩ (by omega) ?_ ?_
  · intro d hd
    refine hne d ?_
    simp only [mem_append, mem_cons] at hd ⊢
    tauto
  · intro d hd e he
    exact hcross d hd e (by simp [he])
  · intro d hd
    rw [hlo]
    exact hcross d hd a (by simp)
  · intro d hd
    rw [hhi]
    exact hby d hd

theorem covered_merge {b c : α} (hmeet : hi a = lo b)
    (ha : lo a < hi a) (hb : lo b < hi b) (hlo : lo c = lo a) (hhi : hi c = hi b) :
    Covered lo hi (xs ++ c :: ys) x ↔ Covered lo hi (xs ++ a :: b :: ys) x := by
  simp only [covered_append, covered_cons]
  have : (lo c ≤ x ∧ x < hi c) ↔ (lo a ≤ x ∧ x < hi a) ∨ (lo b ≤ x ∧ x < hi b) := by omega
  rw [this]
  tauto

theorem Spans.dropWhile_le (h : Spans lo hi xs) {m : Nat} {P : α → Bool}
    (hP : ∀ a, P a = true ↔ lo a < m) : ∀ b ∈ xs.dropWhile P, m ≤ lo b := by
  induction xs with
  | nil => simp
  | cons a xs ih =>
    obtain ⟨hne, hpair⟩ := h
    obtain ⟨hax, hxs⟩ := pairwise_cons.mp hpair
    intro b hb
    by_cases ha : P a = true
    · rw [dropWhile_cons_of_pos ha] at hb
      exact ih ⟨fun d hd => hne d (mem_cons_of_mem a hd), hxs⟩ b hb
    · rw [dropWhile_cons_of_neg ha] at hb
      have := hne a (by simp)
      have : ¬lo a < m := fun hlt => ha ((hP a).mpr hlt)
      rcases mem_cons.mp hb with rfl | hb
      · omega
      · have := hax b hb
        omega

end

end BabyOS
