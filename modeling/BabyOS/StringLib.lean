import BabyOS.Bytes
import BabyOS.MmPages

open Function List

namespace BabyOS

/-- `while (n--) *d++ = *s++`. -/
def copyUp (mem : Word → Byte) (d s : Word) : Nat → Word → Byte
  | 0 => mem
  | n + 1 => copyUp (update mem d (mem s)) (d + 1) (s + 1) n

/-- `while (n--) *--d = *--s`. -/
def copyDown (mem : Word → Byte) (d s : Word) : Nat → Word → Byte
  | 0 => mem
  | n + 1 => copyDown (update mem (d - 1) (mem (s - 1))) (d - 1) (s - 1) n

def memmov (mem : Word → Byte) (dst src n : Word) : Word → Byte :=
  if src < dst ∧ src + n > dst then copyDown mem (dst + n) (src + n) n.toNat else copyUp mem dst src n.toNat

def Userlib.memmov : (Word → Byte) → Word → Word → Word → Word → Byte := BabyOS.memmov

/-- The destination has the old bytes of the source, and all other bytes are as before. -/
def Moved (mem mem' : Word → Byte) (dst src n : Word) : Prop :=
  (∀ i < n, mem' (dst + i) = mem (src + i)) ∧ ∀ a, (∀ i < n, a ≠ dst + i) → mem' a = mem a

section

variable {mem : Word → Byte} {d s dst src len : Word} {n : Nat}

/-- No byte is written before it is read, as the destination is not behind the start of the source within `n` bytes. -/
theorem copyUp_eq (hn : n ≤ 2 ^ 32) (h : d = s ∨ n ≤ (d - s).toNat) (a : Word) :
    copyUp mem d s n a = if (a - d).toNat < n then mem (s + (a - d)) else mem a := by
  induction n generalizing mem d s with
  | zero => rfl
  | succ n ih =>
    rw [copyUp, ih (by omega) (by bv_omega)]
    by_cases ha : a = d
    · subst ha
      rw [if_neg (by bv_omega), if_pos (by bv_omega), update_self, BitVec.sub_self, BitVec.add_zero]
    · by_cases hlt : (a - d).toNat < n + 1
      · rw [if_pos (by bv_omega), if_pos hlt, update_of_ne (by bv_omega)]
        congr 1
        bv_omega
      · rw [if_neg (by bv_omega), if_neg hlt, update_of_ne ha]

theorem copyDown_eq (hn : n ≤ 2 ^ 32) (h : s = d ∨ n ≤ (s - d).toNat) (a : Word) :
    copyDown mem (d + .ofNat 32 n) (s + .ofNat 32 n) n a = if (a - d).toNat < n then mem (s + (a - d)) else mem a := by
  induction n generalizing mem with
  | zero => rfl
  | succ n ih =>
    have hlast : ∀ p : Word, p + .ofNat 32 (n + 1) - 1 = p + .ofNat 32 n := by
      intro p
      bv_omega
    rw [copyDown, hlast, hlast, ih (by omega) (by bv_omega)]
    by_cases ha : a = d + .ofNat 32 n
    · subst ha
      rw [if_neg (by bv_omega), if_pos (by bv_omega), update_self]
      congr 1
      bv_omega
    · by_cases hlt : (a - d).toNat < n + 1
      · rw [if_pos (by bv_omega), if_pos hlt, update_of_ne (by bv_omega)]
      · rw [if_neg (by bv_omega), if_neg hlt, update_of_ne ha]

theorem memmov_eq (hsrc : src.toNat + len.toNat ≤ 2 ^ 32) (hdst : dst.toNat + len.toNat ≤ 2 ^ 32) (a : Word) :
    memmov mem dst src len a = if (a - dst).toNat < len.toNat then mem (src + (a - dst)) else mem a := by
  unfold memmov
  split
  next h =>
    have hdown : copyDown mem (dst + .ofNat 32 len.toNat) (src + .ofNat 32 len.toNat) len.toNat a = _ :=
      copyDown_eq (by omega) (by bv_omega) a
    rwa [BitVec.ofNat_toNat, BitVec.setWidth_eq] at hdown
  next h => exact copyUp_eq (by omega) (by bv_omega) a

theorem memmov_moves (hsrc : src.toNat + len.toNat ≤ 2 ^ 32) (hdst : dst.toNat + len.toNat ≤ 2 ^ 32) :
    Moved mem (memmov mem dst src len) dst src len ∧ Moved mem (Userlib.memmov mem dst src len) dst src len := by
  have hmoved : Moved mem (memmov mem dst src len) dst src len := by
    refine ⟨fun i hi => ?_, fun a ha => ?_⟩
    · rw [memmov_eq hsrc hdst, if_pos (by bv_omega)]
      congr 1
      bv_omega
    · have hout : ¬(a - dst).toNat < len.toNat := fun hlt => ha (a - dst) hlt (by bv_omega)
      rw [memmov_eq hsrc hdst, if_neg hout]
  exact ⟨hmoved, hmoved⟩

theorem memmov_moves_overlapping : ∃ mem, Moved mem (memmov mem 1 0 2) 1 0 2 :=
  ⟨fun a => a.setWidth 8, (memmov_moves (by decide) (by decide)).1⟩

end

/-- The end of `strncmp`, with `*s1` and `*s2`. -/
def differ (n : Int) (c d : Byte) : Int := if n = 0 then 0 else c.toInt - d.toInt

/-- `strncmp` of strings without their zero. -/
def strncmp : List Byte → List Byte → Int → Int
  | c :: s1, d :: s2, n =>
    if c = d then
      if 0 ≤ n - 1 then strncmp s1 s2 (n - 1) else differ (n - 1) c d
    else differ n c d
  | s1, s2, n => differ n (s1.getD 0 0) (s2.getD 0 0)

def Userlib.strncmp : List Byte → List Byte → Int → Int := BabyOS.strncmp

/-- The result is 0 for the same `n` characters, and else has the sign of the first difference. -/
def Compares (s1 s2 : List Byte) (n : Nat) (r : Int) : Prop :=
  (r = 0 ↔ s1.take n = s2.take n) ∧ (s1.take n ≠ s2.take n → ∃ i < n, s1.take i = s2.take i ∧
    s1.getD i 0 ≠ s2.getD i 0 ∧ r.sign = ((s1.getD i 0).toInt - (s2.getD i 0).toInt).sign)

variable {s1 s2 : List Byte} {n : Nat}

theorem compares_of_head (h : s1.getD 0 0 ≠ s2.getD 0 0) :
    Compares s1 s2 n (differ n (s1.getD 0 0) (s2.getD 0 0)) := by
  cases n with
  | zero => exact ⟨iff_of_true rfl rfl, fun hne => absurd rfl hne⟩
  | succ n =>
    have hne : s1.take (n + 1) ≠ s2.take (n + 1) := by
      intro he
      apply h
      have hhead := congrArg (getD · 0 0) he
      cases s1 <;> cases s2 <;> exact hhead
    have hd : differ (n + 1 : Nat) (s1.getD 0 0) (s2.getD 0 0) = (s1.getD 0 0).toInt - (s2.getD 0 0).toInt :=
      if_neg (by omega)
    have hsub : (s1.getD 0 0).toInt - (s2.getD 0 0).toInt ≠ 0 := fun h0 => h (BitVec.eq_of_toInt_eq (by omega))
    rw [hd]
    exact ⟨iff_of_false hsub hne, fun _ => ⟨0, Nat.zero_lt_succ n, rfl, h, rfl⟩⟩

theorem strncmp_compares (h1 : 0 ∉ s1) (h2 : 0 ∉ s2) :
    Compares s1 s2 n (strncmp s1 s2 n) ∧ Compares s1 s2 n (Userlib.strncmp s1 s2 n) := by
  have hcompares : Compares s1 s2 n (strncmp s1 s2 n) := by
    induction s1 generalizing s2 n with
    | nil =>
      cases s2 with
      | nil => exact ⟨iff_of_true (ite_self 0) rfl, fun hne => absurd rfl hne⟩
      | cons d s2 =>
        refine compares_of_head fun h => h2 ?_
        rw [show 0 = d from h]
        exact mem_cons_self
    | cons c s1 ih =>
      cases s2 with
      | nil =>
        refine compares_of_head fun h => h1 ?_
        rw [← show c = 0 from h]
        exact mem_cons_self
      | cons d s2 =>
        rw [strncmp]
        split
        next he =>
          subst he
          cases n with
          | zero => exact ⟨iff_of_true (sub_self c.toInt) rfl, fun hne => absurd rfl hne⟩
          | succ n =>
            rw [if_pos (by omega), show ((n + 1 : Nat) : Int) - 1 = n by omega]
            obtain ⟨hzero, hfirst⟩ := ih (n := n) (fun h => h1 (mem_cons_of_mem c h)) fun h => h2 (mem_cons_of_mem c h)
            refine ⟨hzero.trans (by simp), fun hne => ?_⟩
            obtain ⟨i, hi, htake, hdiff⟩ := hfirst fun h => hne (congrArg (cons c) h)
            exact ⟨i + 1, Nat.succ_lt_succ hi, congrArg (cons c) htake, hdiff⟩
        next hne => exact compares_of_head hne
  exact ⟨hcompares, hcompares⟩

theorem strncmp_compares_signed : ∃ r, Compares [0x61, 0x80] [0x61, 0x7f] 2 r ∧ r < 0 :=
  ⟨_, (strncmp_compares (by decide) (by decide)).1, by decide⟩

end BabyOS
