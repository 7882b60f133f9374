import Mathlib.Logic.Function.Iterate
import BabyOS.Bytes

open Function

namespace BabyOS

namespace Crc

variable {w : Nat} {poly x y : BitVec w}

def shift (poly c : BitVec w) : BitVec w := if c.getLsbD 0 then (c >>> 1) ^^^ poly else c >>> 1

def register (poly : BitVec w) : BitVec w → List (BitVec 8) → BitVec w :=
  List.foldl fun c b => (shift poly)^[8] (c ^^^ b.setWidth w)

theorem shift_xor : shift poly (x ^^^ y) = shift poly x ^^^ shift poly y := by
  unfold shift
  rw [BitVec.getLsbD_xor, BitVec.ushiftRight_xor_distrib]
  cases x.getLsbD 0 <;> cases y.getLsbD 0
  · rfl
  · exact BitVec.xor_assoc _ _ _
  · show x >>> 1 ^^^ y >>> 1 ^^^ poly = x >>> 1 ^^^ poly ^^^ y >>> 1
    ac_rfl
  · show x >>> 1 ^^^ y >>> 1 = x >>> 1 ^^^ poly ^^^ (y >>> 1 ^^^ poly)
    rw [BitVec.xor_comm (y >>> 1), BitVec.xor_assoc, ← BitVec.xor_assoc poly, BitVec.xor_self, BitVec.zero_xor]

theorem iterate_shift_xor (n : Nat) : (shift poly)^[n] (x ^^^ y) = (shift poly)^[n] x ^^^ (shift poly)^[n] y := by
  induction n generalizing x y with
  | zero => rfl
  | succ n ih => rw [iterate_succ_apply, shift_xor, ih, iterate_succ_apply, iterate_succ_apply]

theorem iterate_shift_clear {n : Nat} (h : ∀ i < n, x.getLsbD i = false) : (shift poly)^[n] x = x >>> n := by
  induction n with
  | zero => exact (BitVec.ushiftRight_zero x).symm
  | succ n ih =>
    have hbit : (x >>> n).getLsbD 0 = false := by
      rw [BitVec.getLsbD_ushiftRight]
      exact h n (Nat.lt_succ_self n)
    rw [iterate_succ_apply', ih fun i hi => h i (Nat.lt_succ_of_lt hi), shift, hbit, BitVec.shiftRight_add]
    rfl

theorem register_xor {a b : List (BitVec 8)} (h : a.length = b.length) :
    register poly (x ^^^ y) (List.zipWith (· ^^^ ·) a b) = register poly x a ^^^ register poly y b := by
  induction a generalizing x y b with
  | nil =>
    cases b with
    | nil => rfl
    | cons _ _ => cases h
  | cons c a ih =>
    cases b with
    | nil => cases h
    | cons d b =>
      have hsplit : x ^^^ y ^^^ (c ^^^ d).setWidth w = (x ^^^ c.setWidth w) ^^^ (y ^^^ d.setWidth w) := by
        rw [BitVec.setWidth_xor]
        ac_rfl
      show register poly ((shift poly)^[8] (x ^^^ y ^^^ (c ^^^ d).setWidth w)) _ = _
      rw [hsplit, iterate_shift_xor, ih (Nat.succ.inj h)]
      rfl

end Crc

end BabyOS
