import Mathlib.Data.List.Infix
import Mathlib.Logic.Function.Basic

open Function

namespace BabyOS

/-- A ring written and read in turn: what was read is what was written first, and the rest is still in its cells.
-/
structure RingLog {α : Type} (cell : Nat → α) (size : Nat) (written taken : List α) : Prop where
  pref : taken <+: written
  room : written.length ≤ taken.length + size
  held : ∀ k x, taken.length ≤ k → written[k]? = some x → cell (k % size) = x

namespace RingLog

variable {α : Type} {cell : Nat → α} {size : Nat} {written taken : List α}

theorem empty (cell : Nat → α) (size : Nat) : RingLog cell size [] [] :=
  ⟨List.prefix_refl [], Nat.zero_le _, fun k x _ hx => by cases hx⟩

theorem mod_ne {m k size : Nat} (hk : k < m) (hm : m < k + size) : k % size ≠ m % size := by
  intro heq
  have hmod : (m - k) % size = 0 := Nat.sub_mod_eq_zero_of_mod_eq heq.symm
  rw [Nat.mod_eq_of_lt (by omega)] at hmod
  omega

section

variable (h : RingLog cell size written taken)
include h

theorem write (hr : written.length < taken.length + size) (x : α) :
    RingLog (update cell (written.length % size) x) size (written ++ [x]) taken := by
  refine ⟨h.pref.trans (List.prefix_append _ _), ?_, fun k y hk hy => ?_⟩
  · rw [List.length_append, List.length_singleton]
    omega
  · by_cases hlt : k < written.length
    · rw [List.getElem?_append_left hlt] at hy
      rw [update_of_ne (mod_ne hlt (by omega))]
      exact h.held k y hk hy
    · obtain ⟨hlen, hval⟩ := List.getElem?_eq_some_iff.mp hy
      rw [List.length_append, List.length_singleton] at hlen
      obtain rfl : k = written.length := by omega
      rw [update_self]
      rw [List.getElem_append_right (le_refl _)] at hval
      simpa using hval

theorem next (hl : taken.length < written.length) : written[taken.length]? = some (cell (taken.length % size)) := by
  rw [List.getElem?_eq_getElem hl]
  exact congrArg some (h.held _ _ (le_refl _) (List.getElem?_eq_getElem hl)).symm

theorem read (hl : taken.length < written.length) :
    RingLog cell size written (taken ++ [cell (taken.length % size)]) := by
  have hnext := h.next hl
  refine ⟨?_, ?_, fun k x hk hx => ?_⟩
  · obtain ⟨rest, hrest⟩ := h.pref
    cases rest with
    | nil =>
      rw [List.append_nil] at hrest
      rw [hrest] at hl
      exact absurd hl (Nat.lt_irrefl _)
    | cons y rest =>
      rw [← hrest, List.getElem?_append_right (le_refl _), Nat.sub_self] at hnext
      cases hnext
      exact ⟨rest, by rw [List.append_assoc]; exact hrest⟩
  · have hroom := h.room
    rw [List.length_append]
    omega
  · rw [List.length_append, List.length_singleton] at hk
    exact h.held k x (by omega) hx

theorem length_le : taken.length ≤ written.length := h.pref.length_le

end

end RingLog

end BabyOS
