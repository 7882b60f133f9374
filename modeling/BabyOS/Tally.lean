import Mathlib.Algebra.BigOperators.Group.Finset.Piecewise
import Mathlib.Algebra.Order.BigOperators.Group.Finset
import Mathlib.Algebra.BigOperators.Fin
import Mathlib.Data.Fintype.Basic
import Mathlib.Tactic.Abel

open Function

namespace BabyOS

section

variable {ι σ M : Type} [Fintype ι] [DecidableEq ι] [AddCommMonoid M]

theorem sum_update (q : σ → M) (t : ι → σ) (i : ι) (x : σ) :
    ∑ j, q (update t i x j) + q (t i) = ∑ j, q (t j) + q x := by
  have hcomp : (fun j => q (update t i x j)) = update (fun j => q (t j)) i (q x) :=
    Function.comp_update q t i x
  rw [hcomp, Finset.sum_update_of_mem (Finset.mem_univ i), ← Finset.add_sum_erase _ _ (Finset.mem_univ i),
    Finset.sdiff_singleton_eq_erase]
  abel

end

section

variable {ι σ : Type} [Fintype ι]

def tally (P : σ → Prop) [DecidablePred P] (t : ι → σ) : Nat := ∑ i, if P (t i) then 1 else 0

variable {P : σ → Prop} [DecidablePred P] {t : ι → σ} {i : ι} {x : σ}

theorem tally_eq_zero (h : ∀ i, ¬P (t i)) : tally P t = 0 :=
  Finset.sum_eq_zero fun i _ => if_neg (h i)

theorem tally_pos (h : P (t i)) : 0 < tally P t := by
  have hle : (if P (t i) then 1 else 0) ≤ tally P t :=
    Finset.single_le_sum (f := fun j => if P (t j) then 1 else 0) (fun j _ => Nat.zero_le _) (Finset.mem_univ i)
  rw [if_pos h] at hle
  exact hle

variable [DecidableEq ι]

theorem tally_update (t : ι → σ) (i : ι) (x : σ) :
    tally P (update t i x) + (if P (t i) then 1 else 0) = tally P t + if P x then 1 else 0 :=
  sum_update (fun y => if P y then 1 else 0) t i x

theorem tally_fin {n : Nat} (P : σ → Prop) [DecidablePred P] (t : Fin n → σ) :
    tally P t = (List.finRange n).countP fun i => P (t i) := by
  rw [tally, Fin.sum_univ_def]
  induction List.finRange n with
  | nil => rfl
  | cons i l ih =>
    rw [List.map_cons, List.sum_cons, ih, List.countP_cons]
    by_cases h : P (t i)
    · simp [h, Nat.add_comm]
    · simp [h]

end

end BabyOS
