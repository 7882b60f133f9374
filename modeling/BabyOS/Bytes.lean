import Mathlib.Data.BitVec
import Mathlib.Logic.Function.Basic

namespace BabyOS

abbrev Byte := BitVec 8

def getWord (f : Nat → Byte) (a : Nat) : BitVec 32 := f (a + 3) ++ f (a + 2) ++ f (a + 1) ++ f a

def setWord (f : Nat → Byte) (a : Nat) (w : BitVec 32) : Nat → Byte :=
  fun i => if a ≤ i ∧ i < a + 4 then w.extractLsb' (8 * (i - a)) 8 else f i

def getHalf (f : Nat → Byte) (a : Nat) : BitVec 16 := f (a + 1) ++ f a

def setHalf (f : Nat → Byte) (a : Nat) (w : BitVec 16) : Nat → Byte :=
  fun i => if a ≤ i ∧ i < a + 2 then w.extractLsb' (8 * (i - a)) 8 else f i

def setWords {n : Nat} (f : Nat → Byte) (a : Nat) (ws : Fin n → BitVec 32) : Nat → Byte :=
  fun i => if h : a ≤ i ∧ (i - a) / 4 < n then (ws ⟨(i - a) / 4, h.2⟩).extractLsb' (8 * ((i - a) % 4)) 8 else f i

def setBytes (f : Nat → Byte) (a : Nat) (src : Nat → Byte) (n : Nat) : Nat → Byte :=
  fun i => if a ≤ i ∧ i < a + n then src (i - a) else f i

section

variable {f g : Nat → Byte} {a b : Nat} {w : BitVec 32}

theorem getWord_congr (h : ∀ i, a ≤ i → i < a + 4 → f i = g i) : getWord f a = getWord g a := by
  unfold getWord
  rw [h a (by omega) (by omega), h (a + 1) (by omega) (by omega), h (a + 2) (by omega) (by omega),
    h (a + 3) (by omega) (by omega)]

theorem setWord_of_not_mem {i : Nat} (h : ¬(a ≤ i ∧ i < a + 4)) : setWord f a w i = f i := if_neg h

theorem setHalf_of_not_mem {w : BitVec 16} {i : Nat} (h : ¬(a ≤ i ∧ i < a + 2)) : setHalf f a w i = f i :=
  if_neg h

theorem setWords_of_not_mem {n i : Nat} {ws : Fin n → BitVec 32} (h : ¬(a ≤ i ∧ i < a + 4 * n)) :
    setWords f a ws i = f i :=
  dif_neg fun hi => h ⟨hi.1, by omega⟩

theorem getWord_setWord_self : getWord (setWord f a w) a = w := by
  have hbyte : ∀ k < 4, setWord f a w (a + k) = w.extractLsb' (8 * k) 8 := by
    intro k hk
    unfold setWord
    rw [if_pos (by omega), Nat.add_sub_cancel_left]
  have hlow : setWord f a w a = w.extractLsb' (8 * 0) 8 := hbyte 0 (by omega)
  unfold getWord
  rw [hbyte 3 (by omega), hbyte 2 (by omega), hbyte 1 (by omega), hlow]
  apply BitVec.eq_of_getLsbD_eq
  intro i hi
  simp only [BitVec.getLsbD_append, BitVec.getLsbD_extractLsb']
  by_cases h1 : i < 8
  · simp [h1]
  · by_cases h2 : i < 16
    · simp [h1, show i - 8 < 8 by omega, show 8 + (i - 8) = i by omega]
    · by_cases h3 : i < 24
      · simp [h1, show ¬i - 8 < 8 by omega, show i - 8 - 8 < 8 by omega,
          show 16 + (i - 8 - 8) = i by omega]
      · simp [h1, show ¬i - 8 < 8 by omega, show ¬i - 8 - 8 < 8 by omega,
          show i - 8 - 8 - 8 < 8 by omega, show 24 + (i - 8 - 8 - 8) = i by omega]

theorem getWord_eq (h : ∀ k < 4, f (a + k) = w.extractLsb' (8 * k) 8) : getWord f a = w := by
  have hset : getWord f a = getWord (setWord f a w) a := by
    refine getWord_congr fun i h1 h2 => ?_
    obtain ⟨k, rfl⟩ := Nat.exists_eq_add_of_le h1
    unfold setWord
    rw [if_pos ⟨h1, h2⟩, Nat.add_sub_cancel_left, h k (by omega)]
  rw [hset, getWord_setWord_self]

theorem getWord_setWord_ne (h : a + 4 ≤ b ∨ b + 4 ≤ a) : getWord (setWord f a w) b = getWord f b :=
  getWord_congr fun i h1 h2 => setWord_of_not_mem (by omega)

theorem getHalf_congr (h : ∀ i, a ≤ i → i < a + 2 → f i = g i) : getHalf f a = getHalf g a := by
  unfold getHalf
  rw [h a (by omega) (by omega), h (a + 1) (by omega) (by omega)]

theorem getHalf_setHalf_self {w : BitVec 16} : getHalf (setHalf f a w) a = w := by
  have hbyte : ∀ k < 2, setHalf f a w (a + k) = w.extractLsb' (8 * k) 8 := by
    intro k hk
    unfold setHalf
    rw [if_pos (by omega), Nat.add_sub_cancel_left]
  have hlow : setHalf f a w a = w.extractLsb' (8 * 0) 8 := hbyte 0 (by omega)
  unfold getHalf
  rw [hbyte 1 (by omega), hlow]
  apply BitVec.eq_of_getLsbD_eq
  intro i hi
  simp only [BitVec.getLsbD_append, BitVec.getLsbD_extractLsb']
  by_cases h1 : i < 8
  · simp [h1]
  · simp [h1, show i - 8 < 8 by omega, show 8 + (i - 8) = i by omega]

theorem getHalf_eq {w : BitVec 16} (h : ∀ k < 2, f (a + k) = w.extractLsb' (8 * k) 8) : getHalf f a = w := by
  have hset : getHalf f a = getHalf (setHalf f a w) a := by
    refine getHalf_congr fun i h1 h2 => ?_
    obtain ⟨k, rfl⟩ := Nat.exists_eq_add_of_le h1
    unfold setHalf
    rw [if_pos ⟨h1, h2⟩, Nat.add_sub_cancel_left, h k (by omega)]
  rw [hset, getHalf_setHalf_self]

theorem getWord_setWords {n : Nat} {ws : Fin n → BitVec 32} (k : Fin n) :
    getWord (setWords f a ws) (a + 4 * k) = ws k := by
  have hbyte : ∀ j < 4, setWords f a ws (a + 4 * k + j) = setWord f (a + 4 * k) (ws k) (a + 4 * k + j) := by
    intro j hj
    have hdiv : (a + 4 * k.val + j - a) / 4 = k.val := by omega
    unfold setWords setWord
    rw [dif_pos ⟨by omega, by rw [hdiv]; exact k.isLt⟩, if_pos (by omega)]
    simp only [hdiv, Fin.eta]
    rw [show (a + 4 * k.val + j - a) % 4 = a + 4 * k.val + j - (a + 4 * k.val) by omega]
  rw [← getWord_setWord_self (f := f) (a := a + 4 * k) (w := ws k)]
  refine getWord_congr fun i h1 h2 => ?_
  obtain ⟨j, rfl⟩ : ∃ j, i = a + 4 * k + j := ⟨i - (a + 4 * k), by omega⟩
  exact hbyte j (by omega)

theorem getHalf_setHalf_ne {w : BitVec 16} (h : a + 2 ≤ b ∨ b + 2 ≤ a) : getHalf (setHalf f a w) b = getHalf f b :=
  getHalf_congr fun i h1 h2 => setHalf_of_not_mem (by omega)

theorem getWord_setHalf_ne {w : BitVec 16} (h : a + 2 ≤ b ∨ b + 4 ≤ a) : getWord (setHalf f a w) b = getWord f b :=
  getWord_congr fun i h1 h2 => setHalf_of_not_mem (by omega)

theorem getWord_update_ne {x : Byte} (h : a < b ∨ b + 4 ≤ a) : getWord (Function.update f a x) b = getWord f b :=
  getWord_congr fun i h1 h2 => Function.update_of_ne (by omega) _ _

theorem getHalf_setWord_ne (h : a + 4 ≤ b ∨ b + 2 ≤ a) : getHalf (setWord f a w) b = getHalf f b :=
  getHalf_congr fun i h1 h2 => setWord_of_not_mem (by omega)

theorem getHalf_setWords_ne {n : Nat} {ws : Fin n → BitVec 32} (h : b + 2 ≤ a) :
    getHalf (setWords f a ws) b = getHalf f b :=
  getHalf_congr fun i h1 h2 => setWords_of_not_mem (by omega)

theorem getWord_setWords_ne {n : Nat} {ws : Fin n → BitVec 32} (h : b + 4 ≤ a) :
    getWord (setWords f a ws) b = getWord f b :=
  getWord_congr fun i h1 h2 => setWords_of_not_mem (by omega)

end

end BabyOS
