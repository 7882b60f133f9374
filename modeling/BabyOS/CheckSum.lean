import BabyOS.FsDisk
import Mathlib.Data.Nat.ModEq

open BitVec List

namespace BabyOS

def le16 (h : Half) : List Byte := [h.extractLsb' 0 8, h.extractLsb' 8 8]

def le32 (w : Word) : List Byte := [w.extractLsb' 0 8, w.extractLsb' 8 8, w.extractLsb' 16 8, w.extractLsb' 24 8]

/-- The sum of the 16-bit values in some bytes, with an odd last byte as a value of its own. -/
def sum16 : List Byte → Nat
  | [] => 0
  | [a] => a.toNat
  | a :: b :: bs => (b ++ a).toNat + sum16 bs

def sumLoop : List Byte → Word → Word
  | [], acc => acc
  | [a], acc => acc + a.setWidth 32
  | a :: b :: bs, acc => sumLoop bs (acc + (b ++ a).setWidth 32)

def foldCarry (acc : Word) : Word := (acc &&& 0xffff#32) + (acc >>> 16)

/-- The loop of `check_sum` over the carries, which two rounds end. -/
def carryLoop : Nat → Word → Word
  | 0, acc => acc
  | n + 1, acc => if acc >>> 16 = 0 then acc else carryLoop n (foldCarry acc)

def checkSum (data : List Byte) : Half := ~~~(carryLoop 2 (sumLoop data 0)).setWidth 16

section

variable {acc : Word} {bs cs : List Byte}

theorem toNat_foldCarry (acc : Word) : (foldCarry acc).toNat = acc.toNat % 65536 + acc.toNat / 65536 := by
  have hlow : (acc &&& 0xffff#32).toNat = acc.toNat % 65536 := by
    rw [toNat_and]
    exact Nat.and_two_pow_sub_one_eq_mod acc.toNat 16
  have hhigh : (acc >>> 16).toNat = acc.toNat / 65536 := by
    rw [toNat_ushiftRight, Nat.shiftRight_eq_div_pow]
  unfold foldCarry
  rw [toNat_add, hlow, hhigh, Nat.mod_eq_of_lt]
  omega

theorem shiftRight_eq_zero_iff : acc >>> 16 = 0 ↔ acc.toNat < 65536 := by
  rw [← toNat_inj, toNat_ushiftRight, Nat.shiftRight_eq_div_pow]
  change acc.toNat / 65536 = 0 ↔ _
  omega

theorem carryLoop_two (acc : Word) : (carryLoop 2 acc).toNat < 65536 ∧
    (carryLoop 2 acc).toNat % 65535 = acc.toNat % 65535 ∧ ((carryLoop 2 acc).toNat = 0 ↔ acc.toNat = 0) := by
  have hacc := acc.isLt
  have h1 := toNat_foldCarry acc
  have h2 := toNat_foldCarry (foldCarry acc)
  unfold carryLoop
  by_cases hc : acc >>> 16 = 0
  · rw [if_pos hc]
    exact ⟨shiftRight_eq_zero_iff.mp hc, rfl, Iff.rfl⟩
  · rw [if_neg hc]
    rw [shiftRight_eq_zero_iff] at hc
    unfold carryLoop
    by_cases hc' : foldCarry acc >>> 16 = 0
    · rw [if_pos hc']
      rw [shiftRight_eq_zero_iff] at hc'
      refine ⟨hc', ?_, ?_⟩ <;> omega
    · rw [if_neg hc']
      rw [shiftRight_eq_zero_iff] at hc'
      unfold carryLoop
      refine ⟨?_, ?_, ?_⟩ <;> omega

theorem sum16_le (bs : List Byte) : sum16 bs ≤ 65535 * bs.length := by
  fun_induction sum16 bs with
  | case1 => exact Nat.zero_le _
  | case2 a =>
    simp only [length_singleton]
    omega
  | case3 a b bs ih =>
    simp only [length_cons]
    omega

theorem toNat_sumLoop (h : acc.toNat + sum16 bs < 2 ^ 32) : (sumLoop bs acc).toNat = acc.toNat + sum16 bs := by
  fun_induction sumLoop bs acc with
  | case1 acc => rfl
  | case2 a acc =>
    simp only [sum16] at h ⊢
    rw [toNat_add, toNat_setWidth, Nat.mod_eq_of_lt (by omega : a.toNat < 2 ^ 32), Nat.mod_eq_of_lt h]
  | case3 a b bs acc ih =>
    simp only [sum16] at h ⊢
    have hadd : (acc + (b ++ a).setWidth 32).toNat = acc.toNat + (b ++ a).toNat := by
      rw [toNat_add, toNat_setWidth, Nat.mod_eq_of_lt (by omega : (b ++ a).toNat < 2 ^ 32),
        Nat.mod_eq_of_lt (by omega)]
    rw [ih (by omega), hadd]
    omega

theorem toNat_checkSum (h : bs.length ≤ 65536) :
    ∃ r < 65536, (checkSum bs).toNat = 65535 - r ∧ r % 65535 = sum16 bs % 65535 ∧ (r = 0 ↔ sum16 bs = 0) := by
  have hsum := sum16_le bs
  have hloop : (sumLoop bs 0).toNat = sum16 bs := by
    rw [toNat_sumLoop]
    · exact Nat.zero_add _
    · change 0 + _ < _
      omega
  obtain ⟨hlt, hmod, hzero⟩ := carryLoop_two (sumLoop bs 0)
  rw [hloop] at hmod hzero
  refine ⟨_, hlt, ?_, hmod, hzero⟩
  unfold checkSum
  rw [toNat_not, toNat_setWidth, Nat.mod_eq_of_lt hlt]

theorem checkSum_eq_zero_iff (h : bs.length ≤ 65536) : checkSum bs = 0 ↔ sum16 bs % 65535 = 0 ∧ sum16 bs ≠ 0 := by
  obtain ⟨r, hr, hc, hmod, hzero⟩ := toNat_checkSum h
  rw [← toNat_inj, hc]
  change 65535 - r = 0 ↔ _
  omega

theorem sum16_append (h : bs.length % 2 = 0) : sum16 (bs ++ cs) = sum16 bs + sum16 cs := by
  fun_induction sum16 bs with
  | case1 => exact (Nat.zero_add _).symm
  | case2 a => simp at h
  | case3 a b bs ih =>
    simp only [List.length_cons] at h
    rw [List.cons_append, List.cons_append, sum16, ih (by omega), Nat.add_assoc]

theorem sum16_le16 (h : Half) : sum16 (le16 h) = h.toNat := by
  change (h.extractLsb' 8 8 ++ h.extractLsb' 0 8).toNat + 0 = _
  rw [Nat.add_zero]
  congr 1
  apply eq_of_getLsbD_eq
  intro i hi
  by_cases h8 : i < 8
  · rw [getLsbD_append, getLsbD_extractLsb']
    simp [h8]
  · rw [getLsbD_append, getLsbD_extractLsb']
    simp [h8, show i - 8 < 8 by omega, show 8 + (i - 8) = i by omega]

theorem sum16_word (hb : bs.length % 2 = 0) (w : Half) : sum16 (bs ++ le16 w ++ cs) = sum16 bs + w.toNat + sum16 cs := by
  have heven : (bs ++ le16 w).length % 2 = 0 := by
    rw [length_append]
    change (bs.length + 2) % 2 = 0
    omega
  rw [sum16_append heven, sum16_append hb, sum16_le16]

theorem checkSum_stored (hb : bs.length % 2 = 0) (hlen : (bs ++ le16 0 ++ cs).length ≤ 65536) :
    checkSum (bs ++ le16 (checkSum (bs ++ le16 0 ++ cs)) ++ cs) = 0 := by
  obtain ⟨r, hr, hc, hmod, hzero⟩ := toNat_checkSum hlen
  rw [checkSum_eq_zero_iff (by rw [length_append, length_append] at hlen ⊢; exact hlen), sum16_word hb, hc]
  rw [sum16_word hb] at hmod hzero
  have h0 : (0 : Half).toNat = 0 := rfl
  omega

/-- One 16-bit value at an even offset, or an odd last byte, is replaced by another; not zero by its complement,
nor back. -/
inductive WordReplaced : List Byte → List Byte → Prop
  | word {front back : List Byte} {w w' : Half} (even : front.length % 2 = 0) (ne : w' ≠ w)
      (up : ¬(w = 0 ∧ w' = 0xffff)) (down : ¬(w = 0xffff ∧ w' = 0)) :
      WordReplaced (front ++ le16 w ++ back) (front ++ le16 w' ++ back)
  | last {front : List Byte} {a a' : Byte} (even : front.length % 2 = 0) (ne : a' ≠ a) :
      WordReplaced (front ++ [a]) (front ++ [a'])

theorem WordReplaced.length (h : WordReplaced bs cs) : cs.length = bs.length := by
  cases h with
  | word => simp only [length_append, le16, length_cons, length_nil]
  | last => simp only [length_append, length_cons, length_nil]

theorem WordReplaced.sum16_ne (h : WordReplaced bs cs) : sum16 cs % 65535 ≠ sum16 bs % 65535 := by
  cases h with
  | @word front back w w' even ne up down =>
    rw [sum16_word even, sum16_word even]
    have hw := w.isLt
    rw [← toNat_inj, ← toNat_inj] at up down
    rw [Ne, ← toNat_inj] at ne
    change ¬(w.toNat = 0 ∧ w'.toNat = 65535) at up
    change ¬(w.toNat = 65535 ∧ w'.toNat = 0) at down
    omega
  | @last front a a' even ne =>
    rw [sum16_append even, sum16_append even, sum16, sum16]
    have ha := a.isLt
    rw [Ne, ← toNat_inj] at ne
    omega

theorem checkSum_replaced {front : List Byte} (h : WordReplaced bs cs) (hf : front.length % 2 = 0)
    (hlen : (front ++ bs).length ≤ 65536) (h0 : checkSum (front ++ bs) = 0) : checkSum (front ++ cs) ≠ 0 := by
  have hlen' : (front ++ cs).length ≤ 65536 := by
    rw [length_append] at hlen ⊢
    rw [h.length]
    exact hlen
  have hne := h.sum16_ne
  rw [checkSum_eq_zero_iff hlen, sum16_append hf] at h0
  rw [Ne, checkSum_eq_zero_iff hlen', sum16_append hf]
  omega

end

end BabyOS
