import Mathlib.Data.Nat.Bitwise
import Mathlib.Tactic.Ring

open BitVec

namespace BabyOS

/-- The word with its low `k` bits clear and all other bits set. -/
def highMask (k : Nat) : BitVec 32 := BitVec.allOnes 32 <<< k

theorem and_highMask (x : BitVec 32) (k : Nat) : x &&& highMask k = (x >>> k) <<< k := by
  apply eq_of_getLsbD_eq
  intro i hi
  simp only [highMask, getLsbD_and, getLsbD_shiftLeft, getLsbD_allOnes,
    getLsbD_ushiftRight, hi, decide_true, Bool.true_and]
  by_cases hk : i < k
  · simp [hk]
  · simp [hk, show i - k < 32 by omega, show k + (i - k) = i by omega]

theorem toNat_and_highMask (x : BitVec 32) (k : Nat) :
    (x &&& highMask k).toNat = x.toNat / 2 ^ k * 2 ^ k := by
  rw [and_highMask, toNat_shiftLeft, toNat_ushiftRight, Nat.shiftRight_eq_div_pow,
    Nat.shiftLeft_eq, Nat.mod_eq_of_lt]
  exact lt_of_le_of_lt (Nat.div_mul_le_self _ _) x.isLt

theorem toNat_highMask {k : Nat} (hk : k ≤ 32) : (highMask k).toNat = 2 ^ 32 - 2 ^ k := by
  have h := toNat_and_highMask (BitVec.allOnes 32) k
  rw [allOnes_and, toNat_allOnes] at h
  rw [h]
  have hd : 2 ^ k ∣ 2 ^ 32 := pow_dvd_pow 2 hk
  obtain ⟨c, hc⟩ := hd
  have hpos : 0 < 2 ^ k := Nat.two_pow_pos k
  have hcpos : 0 < c := by
    rcases Nat.eq_zero_or_pos c with h0 | h0
    · subst h0; simp at hc
    · exact h0
  obtain ⟨d, rfl⟩ : ∃ d, c = d + 1 := ⟨c - 1, by omega⟩
  have hdiv : (2 ^ 32 - 1) / 2 ^ k = d := by
    rw [hc]
    apply Nat.div_eq_of_lt_le
    · rw [Nat.mul_comm d, Nat.mul_add]
      omega
    · rw [Nat.mul_comm (d + 1)]
      omega
  rw [hdiv, hc, Nat.mul_comm d, Nat.mul_add]
  omega

theorem neg_highMask {k : Nat} (hk : k < 32) : -highMask k = BitVec.ofNat 32 (2 ^ k) := by
  apply eq_of_toNat_eq
  have hlt : 2 ^ k < 2 ^ 32 := Nat.pow_lt_pow_right (by decide) hk
  have hpos : 0 < 2 ^ k := Nat.two_pow_pos k
  rw [toNat_neg, toNat_highMask (by omega), toNat_ofNat, Nat.mod_eq_of_lt hlt,
    Nat.mod_eq_of_lt (by omega)]
  omega

theorem highMask_shiftLeft (k m : Nat) : highMask k <<< m = highMask (k + m) := by
  rw [highMask, highMask, shiftLeft_add]

theorem highMask_add_self (k : Nat) : highMask k + highMask k = highMask (k + 1) := by
  rw [← highMask_shiftLeft]
  apply eq_of_toNat_eq
  simp only [toNat_add, toNat_shiftLeft, Nat.shiftLeft_eq, Nat.pow_one]
  congr 1
  ring

theorem not_highMask {k : Nat} (hk : k < 32) : (~~~highMask k).toNat = 2 ^ k - 1 := by
  have hlt : 2 ^ k < 2 ^ 32 := Nat.pow_lt_pow_right (by decide) hk
  rw [toNat_not, toNat_highMask (by omega)]
  omega

theorem not_highMask_and (x : BitVec 32) (k : Nat) (hk : k < 32) :
    (x &&& ~~~highMask k).toNat = x.toNat % 2 ^ k := by
  rw [toNat_and, not_highMask hk, Nat.and_two_pow_sub_one_eq_mod]

end BabyOS
