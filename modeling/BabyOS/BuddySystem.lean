import Mathlib.Data.Nat.Bitwise
import Mathlib.Data.List.Nodup
import Mathlib.Logic.Function.Basic
import Mathlib.Tactic.Ring

open Function

namespace BabyOS

/-- A buddy system over page numbers: the free blocks of each order and the pair bits. -/
structure Buddy where
  free : Nat → List Nat
  bit : Nat → Nat → Bool

namespace Buddy

def put (b : Buddy) (o n : Nat) : Buddy :=
  { b with free := update b.free o (n :: b.free o) }

def drop (b : Buddy) (o n : Nat) : Buddy :=
  { b with free := update b.free o ((b.free o).erase n) }

def toggle (b : Buddy) (o k : Nat) : Buddy :=
  { b with bit := update b.bit o (update (b.bit o) k (!b.bit o k)) }

/-- Give the block of order `o` at `n` back, merging it upwards while its buddy is free. -/
def release (b : Buddy) : Nat → Nat → Nat → Buddy
  | 0, o, n => b.put o n
  | fuel + 1, o, n =>
    let k := n / 2 ^ (o + 1)
    if b.bit o k then
      release ((b.toggle o k).drop o (n ^^^ 2 ^ o)) fuel (o + 1) (k * 2 ^ (o + 1))
    else (b.toggle o k).put o n

/-- Halve the block of order `low + fuel` at `n` down to order `low`, keeping the upper half. -/
def split (b : Buddy) (low : Nat) : Nat → Nat → Buddy × Nat
  | 0, n => (b, n)
  | fuel + 1, n =>
    split ((b.put (low + fuel) n).toggle (low + fuel) (n / 2 ^ (low + fuel + 1))) low fuel
      (n + 2 ^ (low + fuel))

/-- Scan the orders from `low + i` on for a free block and halve it down to order `low`. -/
def take (b : Buddy) (low : Nat) : Nat → Nat → Option (Buddy × Nat)
  | 0, _ => none
  | fuel + 1, i =>
    match b.free (low + i) with
    | [] => take b low fuel (i + 1)
    | n :: _ =>
      some (split ((b.drop (low + i) n).toggle (low + i) (n / 2 ^ (low + i + 1))) low i n)

@[simp] theorem put_bit (b : Buddy) (o n : Nat) : (b.put o n).bit = b.bit := rfl
@[simp] theorem drop_bit (b : Buddy) (o n : Nat) : (b.drop o n).bit = b.bit := rfl
@[simp] theorem toggle_free (b : Buddy) (o k : Nat) : (b.toggle o k).free = b.free := rfl

variable {b : Buddy} {o n o' m : Nat}

theorem mem_put : m ∈ (b.put o n).free o' ↔ (o' = o ∧ m = n) ∨ m ∈ b.free o' := by
  by_cases ho : o' = o
  · subst o'; simp [put]
  · simp [put, ho]

theorem mem_drop (hn : (b.free o).Nodup) : m ∈ (b.drop o n).free o' ↔ m ∈ b.free o' ∧ ¬(o' = o ∧ m = n) := by
  by_cases ho : o' = o
  · subst o'
    simp [drop, hn.mem_erase_iff, and_comm]
  · simp [drop, ho]

/-- The block of order `o` at `n` meets no free block. -/
def Clear (b : Buddy) (o n : Nat) : Prop :=
  ∀ o' m, m ∈ b.free o' → n + 2 ^ o ≤ m ∨ m + 2 ^ o' ≤ n

def Covers (b : Buddy) (p : Nat) : Prop :=
  ∃ o n, n ∈ b.free o ∧ n ≤ p ∧ p < n + 2 ^ o

/-- The safety invariant of a buddy system with orders up to `top` over `size` pages. -/
structure Wf (top size : Nat) (b : Buddy) : Prop where
  order : ∀ o n, n ∈ b.free o → o ≤ top
  aligned : ∀ o n, n ∈ b.free o → 2 ^ o ∣ n
  bound : ∀ o n, n ∈ b.free o → n + 2 ^ o ≤ size
  nodup : ∀ o, (b.free o).Nodup
  disjoint : ∀ o n o' m, n ∈ b.free o → m ∈ b.free o' → ¬(o = o' ∧ n = m) →
    n + 2 ^ o ≤ m ∨ m + 2 ^ o' ≤ n
  parity : ∀ o < top, ∀ k, b.bit o k =
    ((decide (k * 2 ^ (o + 1) ∈ b.free o)) ^^ (decide (k * 2 ^ (o + 1) + 2 ^ o ∈ b.free o)))
  apart : ∀ o < top, ∀ k, ¬(k * 2 ^ (o + 1) ∈ b.free o ∧ k * 2 ^ (o + 1) + 2 ^ o ∈ b.free o)

theorem aligned_pair (h : 2 ^ o ∣ n) :
    n = n / 2 ^ (o + 1) * 2 ^ (o + 1) ∨ n = n / 2 ^ (o + 1) * 2 ^ (o + 1) + 2 ^ o := by
  obtain ⟨c, rfl⟩ := h
  have hpos : 0 < 2 ^ o := Nat.two_pow_pos o
  have hdiv : 2 ^ o * c / 2 ^ (o + 1) = c / 2 := by rw [pow_succ, Nat.mul_div_mul_left _ _ hpos]
  rw [hdiv, pow_succ]
  rcases Nat.even_or_odd' c with ⟨d, hd | hd⟩
  · left
    rw [hd, Nat.mul_div_cancel_left d (by decide)]
    ring
  · right
    have hd2 : c / 2 = d := by omega
    rw [hd2, hd]
    ring

theorem left_xor (k o : Nat) : (k * 2 ^ (o + 1)) ^^^ 2 ^ o = k * 2 ^ (o + 1) + 2 ^ o := by
  have hlt : 2 ^ o < 2 ^ (o + 1) := Nat.pow_lt_pow_right (by decide) (by omega)
  apply Nat.eq_of_testBit_eq
  intro i
  rw [Nat.mul_comm, Nat.testBit_xor, Nat.testBit_two_pow_mul_add k hlt, Nat.testBit_two_pow,
    Nat.testBit_two_pow_mul]
  by_cases hi : i < o + 1
  · simp [hi, show ¬ o + 1 ≤ i by omega]
  · simp [hi, show o + 1 ≤ i by omega, show o ≠ i by omega]

theorem right_xor (k o : Nat) : (k * 2 ^ (o + 1) + 2 ^ o) ^^^ 2 ^ o = k * 2 ^ (o + 1) := by
  rw [← left_xor, Nat.xor_assoc, Nat.xor_self, Nat.xor_zero]

theorem left_div (k o : Nat) : k * 2 ^ (o + 1) / 2 ^ (o + 1) = k :=
  Nat.mul_div_cancel k (Nat.two_pow_pos _)

theorem right_div (k o : Nat) : (k * 2 ^ (o + 1) + 2 ^ o) / 2 ^ (o + 1) = k := by
  have hlt : 2 ^ o < 2 ^ (o + 1) := Nat.pow_lt_pow_right (by decide) (by omega)
  rw [Nat.mul_comm, Nat.mul_add_div (Nat.two_pow_pos _), Nat.div_eq_of_lt hlt, Nat.add_zero]

theorem parity_flip {xs ys : List Nat} {bit : Nat → Bool} (hn : 2 ^ o ∣ n)
    (hp : ∀ k, bit k = ((decide (k * 2 ^ (o + 1) ∈ xs)) ^^ (decide (k * 2 ^ (o + 1) + 2 ^ o ∈ xs))))
    (hother : ∀ m, m ≠ n → (m ∈ ys ↔ m ∈ xs)) (hself : n ∈ ys ↔ n ∉ xs) (k : Nat) :
    update bit (n / 2 ^ (o + 1)) (!bit (n / 2 ^ (o + 1))) k =
      ((decide (k * 2 ^ (o + 1) ∈ ys)) ^^ (decide (k * 2 ^ (o + 1) + 2 ^ o ∈ ys))) := by
  by_cases hk : k = n / 2 ^ (o + 1)
  · rw [hk, update_self, hp]
    rcases aligned_pair hn with he | he
    · have hr := hother (n / 2 ^ (o + 1) * 2 ^ (o + 1) + 2 ^ o) (by omega)
      rw [← he] at hr ⊢
      by_cases hx : n ∈ xs <;> simp [hself, hr, hx]
    · have hl := hother (n / 2 ^ (o + 1) * 2 ^ (o + 1)) (by omega)
      rw [← he]
      by_cases hx : n ∈ xs <;> simp [hself, hl, hx]
  · have hleft : k * 2 ^ (o + 1) ≠ n := by rintro rfl; exact hk (left_div k o).symm
    have hright : k * 2 ^ (o + 1) + 2 ^ o ≠ n := by rintro rfl; exact hk (right_div k o).symm
    rw [update_of_ne hk, hp]
    simp [hother _ hleft, hother _ hright]

section

variable {top size : Nat}

variable {p fuel low : Nat} {b' : Buddy}

theorem Clear.not_mem (h : b.Clear o n) : n ∉ b.free o := by
  intro hm
  have hpos : 0 < 2 ^ o := Nat.two_pow_pos o
  have := h o n hm
  omega

theorem Wf.clear_of_mem (h : Wf top size b) (hm : n ∈ b.free o) :
    Clear ((b.drop o n).toggle o (n / 2 ^ (o + 1))) o n := by
  intro o' m hm'
  rw [toggle_free, mem_drop (h.nodup o)] at hm'
  exact h.disjoint o n o' m hm hm'.1 (fun he => hm'.2 ⟨he.1.symm, he.2.symm⟩)

theorem Wf.drop (h : Wf top size b) (hm : n ∈ b.free o) : Wf top size ((b.drop o n).toggle o (n / 2 ^ (o + 1))) := by
  have hsub : ∀ o' m, m ∈ ((b.drop o n).toggle o (n / 2 ^ (o + 1))).free o' → m ∈ b.free o' := by
    intro o' m hm'
    rw [toggle_free, mem_drop (h.nodup o)] at hm'
    exact hm'.1
  refine ⟨fun o' m hm' => h.order o' m (hsub o' m hm'), fun o' m hm' => h.aligned o' m (hsub o' m hm'),
    fun o' m hm' => h.bound o' m (hsub o' m hm'), ?_, ?_, ?_, ?_⟩
  · intro o'
    by_cases ho : o' = o
    · subst o'
      simpa [Buddy.drop, toggle] using (h.nodup o).erase n
    · simpa [Buddy.drop, toggle, ho] using h.nodup o'
  · intro o1 n1 o2 n2 h1 h2
    exact h.disjoint o1 n1 o2 n2 (hsub _ _ h1) (hsub _ _ h2)
  · intro o' ho k
    by_cases hoo : o' = o
    · subst o'
      simp only [toggle, drop_bit, update_self]
      apply parity_flip (h.aligned o n hm) (h.parity o ho)
      · intro m hne
        simp [mem_drop (h.nodup o), hne]
      · simp [mem_drop (h.nodup o), hm]
    · simpa [Buddy.drop, toggle, hoo] using h.parity o' ho k
  · intro o' ho k hb
    exact h.apart o' ho k ⟨hsub _ _ hb.1, hsub _ _ hb.2⟩

theorem Wf.put (h : Wf top size b) (ho : o ≤ top) (ha : 2 ^ o ∣ n)
    (hb : n + 2 ^ o ≤ size) (hc : b.Clear o n) (hbuddy : o < top → n ^^^ 2 ^ o ∉ b.free o) :
    Wf top size ((b.put o n).toggle o (n / 2 ^ (o + 1))) := by
  have hmem : ∀ o' m, m ∈ ((b.put o n).toggle o (n / 2 ^ (o + 1))).free o' ↔
      (o' = o ∧ m = n) ∨ m ∈ b.free o' := fun o' m => by rw [toggle_free, mem_put]
  refine ⟨?_, ?_, ?_, ?_, ?_, ?_, ?_⟩
  · intro o' m hm
    rcases (hmem o' m).mp hm with ⟨rfl, rfl⟩ | hm
    · exact ho
    · exact h.order o' m hm
  · intro o' m hm
    rcases (hmem o' m).mp hm with ⟨rfl, rfl⟩ | hm
    · exact ha
    · exact h.aligned o' m hm
  · intro o' m hm
    rcases (hmem o' m).mp hm with ⟨rfl, rfl⟩ | hm
    · exact hb
    · exact h.bound o' m hm
  · intro o'
    by_cases hoo : o' = o
    · subst o'
      simpa [Buddy.put, toggle] using ⟨hc.not_mem, h.nodup o⟩
    · simpa [Buddy.put, toggle, hoo] using h.nodup o'
  · intro o1 n1 o2 n2 h1 h2 hne
    rcases (hmem o1 n1).mp h1 with ⟨ho1, hn1⟩ | hm1
    · rcases (hmem o2 n2).mp h2 with ⟨ho2, hn2⟩ | hm2
      · exact absurd ⟨ho1.trans ho2.symm, hn1.trans hn2.symm⟩ hne
      · subst o1; subst n1
        exact hc o2 n2 hm2
    · rcases (hmem o2 n2).mp h2 with ⟨ho2, hn2⟩ | hm2
      · subst o2; subst n2
        exact (hc o1 n1 hm1).symm
      · exact h.disjoint o1 n1 o2 n2 hm1 hm2 hne
  · intro o' hot k
    by_cases hoo : o' = o
    · subst o'
      simp only [toggle, put_bit, update_self]
      apply parity_flip ha (h.parity o hot)
      · intro m hne
        simp [mem_put, hne]
      · simp [mem_put, hc.not_mem]
    · simpa [Buddy.put, toggle, hoo] using h.parity o' hot k
  · intro o' hot k ⟨h1, h2⟩
    rw [hmem] at h1 h2
    rcases h1 with ⟨rfl, h1⟩ | h1
    · rcases h2 with ⟨_, h2⟩ | h2
      · omega
      · rw [← h1, left_xor] at hbuddy
        exact hbuddy hot h2
    · rcases h2 with ⟨rfl, h2⟩ | h2
      · rw [← h2, right_xor] at hbuddy
        exact hbuddy hot h1
      · exact h.apart o' hot k ⟨h1, h2⟩

theorem Wf.congr_bit (h : Wf top size b) (hf : b'.free = b.free)
    (hb : ∀ o < top, b'.bit o = b.bit o) : Wf top size b' := by
  refine ⟨?_, ?_, ?_, ?_, ?_, ?_, ?_⟩
  · rw [hf]; exact h.order
  · rw [hf]; exact h.aligned
  · rw [hf]; exact h.bound
  · rw [hf]; exact h.nodup
  · rw [hf]; exact h.disjoint
  · intro o ho k
    rw [hf, hb o ho]
    exact h.parity o ho k
  · rw [hf]; exact h.apart

theorem covers_put : (b.put o n).Covers p ↔ b.Covers p ∨ (n ≤ p ∧ p < n + 2 ^ o) := by
  constructor
  · rintro ⟨o', m, hm, hp⟩
    rcases mem_put.mp hm with ⟨rfl, rfl⟩ | hm
    · exact Or.inr hp
    · exact Or.inl ⟨o', m, hm, hp⟩
  · rintro (⟨o', m, hm, hp⟩ | hp)
    · exact ⟨o', m, mem_put.mpr (Or.inr hm), hp⟩
    · exact ⟨o, n, mem_put.mpr (Or.inl ⟨rfl, rfl⟩), hp⟩

theorem covers_toggle {o k p : Nat} : (b.toggle o k).Covers p ↔ b.Covers p := Iff.rfl

theorem Clear.not_covers (h : b.Clear o n) (hp : n ≤ p ∧ p < n + 2 ^ o) : ¬b.Covers p := by
  rintro ⟨o', m, hm, hp'⟩
  have := h o' m hm
  omega

theorem Wf.covers_drop (h : Wf top size b) (hm : n ∈ b.free o) :
    (b.drop o n).Covers p ↔ b.Covers p ∧ ¬(n ≤ p ∧ p < n + 2 ^ o) := by
  constructor
  · rintro ⟨o', m, hm', hp⟩
    rw [mem_drop (h.nodup o)] at hm'
    refine ⟨⟨o', m, hm'.1, hp⟩, fun hp' => ?_⟩
    have := h.disjoint o n o' m hm hm'.1 (fun he => hm'.2 ⟨he.1.symm, he.2.symm⟩)
    omega
  · rintro ⟨⟨o', m, hm', hp⟩, hn⟩
    refine ⟨o', m, (mem_drop (h.nodup o)).mpr ⟨hm', ?_⟩, hp⟩
    rintro ⟨rfl, rfl⟩
    exact hn hp

theorem Wf.buddy_mem (h : Wf top size b) (ho : o < top) (ha : 2 ^ o ∣ n)
    (hn : n ∉ b.free o) : b.bit o (n / 2 ^ (o + 1)) = decide (n ^^^ 2 ^ o ∈ b.free o) := by
  rw [h.parity o ho]
  rcases aligned_pair ha with he | he
  · have hx : n ^^^ 2 ^ o = n / 2 ^ (o + 1) * 2 ^ (o + 1) + 2 ^ o := by
      conv_lhs => rw [he]
      exact left_xor _ o
    rw [hx, ← he]
    simp [hn]
  · have hx : n ^^^ 2 ^ o = n / 2 ^ (o + 1) * 2 ^ (o + 1) := by
      conv_lhs => rw [he]
      exact right_xor _ o
    rw [hx, ← he]
    simp [hn]

theorem xor_div (ha : 2 ^ o ∣ n) : (n ^^^ 2 ^ o) / 2 ^ (o + 1) = n / 2 ^ (o + 1) := by
  rcases aligned_pair ha with he | he
  · conv_lhs => rw [he, left_xor]
    exact right_div _ o
  · conv_lhs => rw [he, right_xor]
    exact left_div _ o

theorem pair_interval (ha : 2 ^ o ∣ n) :
    (n / 2 ^ (o + 1) * 2 ^ (o + 1) ≤ p ∧ p < n / 2 ^ (o + 1) * 2 ^ (o + 1) + 2 ^ (o + 1)) ↔
      (n ≤ p ∧ p < n + 2 ^ o) ∨ (n ^^^ 2 ^ o ≤ p ∧ p < (n ^^^ 2 ^ o) + 2 ^ o) := by
  rcases aligned_pair ha with he | he
  · have hx : n ^^^ 2 ^ o = n / 2 ^ (o + 1) * 2 ^ (o + 1) + 2 ^ o := by
      conv_lhs => rw [he]
      exact left_xor _ o
    omega
  · have hx : n ^^^ 2 ^ o = n / 2 ^ (o + 1) * 2 ^ (o + 1) := by
      conv_lhs => rw [he]
      exact right_xor _ o
    omega

theorem clear_of_not_covers (h : ∀ p, n ≤ p → p < n + 2 ^ o → ¬b.Covers p) : b.Clear o n := by
  intro o' m hm
  have hpos : 0 < 2 ^ o := Nat.two_pow_pos o
  have hpos' : 0 < 2 ^ o' := Nat.two_pow_pos o'
  by_contra hc
  by_cases hle : n ≤ m
  · exact h m hle (by omega) ⟨o', m, hm, le_rfl, by omega⟩
  · exact h n le_rfl (by omega) ⟨o', m, hm, by omega, by omega⟩

theorem Wf.merge (h : Wf top size b) (ha : 2 ^ o ∣ n) (hb : n + 2 ^ o ≤ size)
    (hc : b.Clear o n) (hm : n ^^^ 2 ^ o ∈ b.free o) :
    Wf top size ((b.drop o (n ^^^ 2 ^ o)).toggle o (n / 2 ^ (o + 1))) ∧
      n / 2 ^ (o + 1) * 2 ^ (o + 1) + 2 ^ (o + 1) ≤ size ∧
      ((b.drop o (n ^^^ 2 ^ o)).toggle o (n / 2 ^ (o + 1))).Clear (o + 1)
        (n / 2 ^ (o + 1) * 2 ^ (o + 1)) := by
  have hdrop := h.drop hm
  rw [xor_div ha] at hdrop
  refine ⟨hdrop, ?_, clear_of_not_covers ?_⟩
  · have hpos := Nat.two_pow_pos (o + 1)
    have hlast := (pair_interval (p := n / 2 ^ (o + 1) * 2 ^ (o + 1) + 2 ^ (o + 1) - 1) ha).mp
      ⟨by omega, by omega⟩
    have hbuddy := h.bound o _ hm
    omega
  · intro p hp1 hp2
    rw [covers_toggle, h.covers_drop hm]
    rintro ⟨hp, hnot⟩
    rcases (pair_interval ha).mp ⟨hp1, hp2⟩ with hp' | hp'
    · exact hc.not_covers hp' hp
    · exact hnot hp'

theorem release_merge (hset : b.bit o (n / 2 ^ (o + 1)) = true) : b.release (fuel + 1) o n = Buddy.release
      ((b.drop o (n ^^^ 2 ^ o)).toggle o (n / 2 ^ (o + 1))) fuel (o + 1) (n / 2 ^ (o + 1) * 2 ^ (o + 1)) := by
  simp only [Buddy.release, hset, if_true]
  rfl

theorem release_stop (hset : b.bit o (n / 2 ^ (o + 1)) = false) :
    b.release (fuel + 1) o n = (b.put o n).toggle o (n / 2 ^ (o + 1)) := by
  simp only [Buddy.release, hset, Bool.false_eq_true, if_false]
  rfl

theorem Wf.release (h : Wf top size b) (hf : fuel + o = top) (ha : 2 ^ o ∣ n)
    (hb : n + 2 ^ o ≤ size) (hc : b.Clear o n) : Wf top size (b.release fuel o n) ∧
      ∀ p, (b.release fuel o n).Covers p ↔ b.Covers p ∨ (n ≤ p ∧ p < n + 2 ^ o) := by
  induction fuel generalizing b o n with
  | zero =>
    have hput := h.put (by omega) ha hb hc (by omega)
    refine ⟨hput.congr_bit rfl ?_, fun p => covers_put⟩
    intro o' ho'
    exact (update_of_ne (by omega) _ _).symm
  | succ fuel ih =>
    have hbit := h.buddy_mem (by omega) ha hc.not_mem
    by_cases hm : n ^^^ 2 ^ o ∈ b.free o
    · obtain ⟨hdrop, hbound, hclear⟩ := h.merge ha hb hc hm
      obtain ⟨hw, hcovers⟩ := ih hdrop (by omega) (Dvd.intro_left _ rfl) hbound hclear
      rw [release_merge (by simpa [hm] using hbit)]
      refine ⟨hw, fun p => ?_⟩
      rw [hcovers, covers_toggle, h.covers_drop hm, pair_interval ha]
      have hbc : (n ^^^ 2 ^ o ≤ p ∧ p < (n ^^^ 2 ^ o) + 2 ^ o) → b.Covers p :=
        fun hp => ⟨o, _, hm, hp⟩
      tauto
    · rw [release_stop (by simpa [hm] using hbit)]
      exact ⟨h.put (by omega) ha hb hc (fun _ => hm), fun p => covers_put⟩

theorem Wf.halve (h : Wf top size b) (ho : o < top) (ha : 2 ^ (o + 1) ∣ n)
    (hb : n + 2 ^ (o + 1) ≤ size) (hc : b.Clear (o + 1) n) :
    Wf top size ((b.put o n).toggle o (n / 2 ^ (o + 1))) ∧ 2 ^ o ∣ n + 2 ^ o ∧
      ((b.put o n).toggle o (n / 2 ^ (o + 1))).Clear o (n + 2 ^ o) := by
  have hpos : 0 < 2 ^ o := Nat.two_pow_pos o
  have ha' : 2 ^ o ∣ n := (pow_dvd_pow 2 (by omega)).trans ha
  have hxor : n ^^^ 2 ^ o = n + 2 ^ o := by
    obtain ⟨c, rfl⟩ := ha
    rw [Nat.mul_comm]
    exact left_xor c o
  refine ⟨h.put (by omega) ha' (by omega) ?_ ?_, Nat.dvd_add ha' (dvd_refl _), ?_⟩
  · intro o' m hm
    have := hc o' m hm
    omega
  · intro _ hm
    have := hc _ _ hm
    omega
  · intro o' m hm
    rw [toggle_free, mem_put] at hm
    rcases hm with ⟨rfl, rfl⟩ | hm
    · omega
    · have := hc o' m hm
      omega

theorem Wf.split (h : Wf top size b) (ho : low + fuel ≤ top)
    (ha : 2 ^ (low + fuel) ∣ n) (hb : n + 2 ^ (low + fuel) ≤ size) (hc : b.Clear (low + fuel) n) :
    Wf top size (b.split low fuel n).1 ∧ 2 ^ low ∣ (b.split low fuel n).2 ∧ n ≤ (b.split low fuel n).2 ∧
      (b.split low fuel n).2 + 2 ^ low ≤ n + 2 ^ (low + fuel) ∧
      ∀ p, (b.split low fuel n).1.Covers p ↔ b.Covers p ∨ ((n ≤ p ∧ p < n + 2 ^ (low + fuel)) ∧
          ¬((b.split low fuel n).2 ≤ p ∧ p < (b.split low fuel n).2 + 2 ^ low)) := by
  induction fuel generalizing b n with
  | zero =>
    refine ⟨h, ha, le_rfl, le_rfl, fun p => ?_⟩
    simp only [Buddy.split, Nat.add_zero]
    tauto
  | succ fuel ih =>
    have hs : 2 ^ (low + (fuel + 1)) = 2 ^ (low + fuel) + 2 ^ (low + fuel) := by
      rw [← Nat.add_assoc, pow_succ]; omega
    obtain ⟨hput, hal', hclear⟩ := h.halve (o := low + fuel) (by omega) ha hb hc
    obtain ⟨hw, hal, hge, hle, hcov⟩ := ih hput (by omega) hal' (by omega) hclear
    simp only [Buddy.split]
    refine ⟨hw, hal, by omega, by omega, fun p => ?_⟩
    rw [hcov, covers_toggle, covers_put]
    have hsplit : (n ≤ p ∧ p < n + 2 ^ (low + (fuel + 1))) ↔
        (n ≤ p ∧ p < n + 2 ^ (low + fuel)) ∨
          (n + 2 ^ (low + fuel) ≤ p ∧ p < n + 2 ^ (low + fuel) + 2 ^ (low + fuel)) := by omega
    rw [hsplit]
    constructor
    · rintro ((hp | hp) | hp)
      · exact Or.inl hp
      · exact Or.inr ⟨Or.inl hp, by omega⟩
      · exact Or.inr ⟨Or.inr hp.1, hp.2⟩
    · rintro (hp | ⟨hp | hp, hn⟩)
      · exact Or.inl (Or.inl hp)
      · exact Or.inl (Or.inr hp)
      · exact Or.inr ⟨hp, hn⟩

theorem Wf.take {i m : Nat} (h : Wf top size b)
    (hf : low + i + fuel = top + 1) (ht : b.take low fuel i = some (b', m)) :
    Wf top size b' ∧ 2 ^ low ∣ m ∧ m + 2 ^ low ≤ size ∧ (∀ p, m ≤ p → p < m + 2 ^ low → b.Covers p) ∧
      ∀ p, b'.Covers p ↔ b.Covers p ∧ ¬(m ≤ p ∧ p < m + 2 ^ low) := by
  induction fuel generalizing i with
  | zero => simp [Buddy.take] at ht
  | succ fuel ih =>
    cases hfree : b.free (low + i) with
    | nil =>
      simp only [Buddy.take, hfree] at ht
      exact ih (by omega) ht
    | cons n ns =>
      simp only [Buddy.take, hfree, Option.some.injEq] at ht
      have hm : n ∈ b.free (low + i) := by simp [hfree]
      have hbound := h.bound _ _ hm
      obtain ⟨hw, hal, hge, hle, hcov⟩ :=
        (h.drop hm).split (by omega) (h.aligned _ _ hm) hbound (h.clear_of_mem hm)
      rw [ht] at hw hal hge hle hcov
      have hall : ∀ p, n ≤ p → p < n + 2 ^ (low + i) → b.Covers p :=
        fun p h1 h2 => ⟨low + i, n, hm, h1, h2⟩
      refine ⟨hw, hal, by omega, fun p h1 h2 => hall p (by omega) (by omega), fun p => ?_⟩
      rw [hcov, covers_toggle, h.covers_drop hm]
      constructor
      · rintro (⟨hp, hn⟩ | ⟨hp, hn⟩)
        · exact ⟨hp, fun hp' => hn ⟨by omega, by omega⟩⟩
        · exact ⟨hall p hp.1 hp.2, hn⟩
      · rintro ⟨hp, hn⟩
        by_cases hin : n ≤ p ∧ p < n + 2 ^ (low + i)
        · exact Or.inr ⟨hin, hn⟩
        · exact Or.inl ⟨hp, hin⟩

theorem take_eq_none {i : Nat} (ht : b.take low fuel i = none) :
    ∀ j, i ≤ j → j < i + fuel → b.free (low + j) = [] := by
  induction fuel generalizing i with
  | zero => intro j h1 h2; omega
  | succ fuel ih =>
    cases hfree : b.free (low + i) with
    | nil =>
      simp only [Buddy.take, hfree] at ht
      intro j h1 h2
      by_cases hj : j = i
      · rw [hj, hfree]
      · exact ih ht j (by omega) (by omega)
    | cons n ns => simp [Buddy.take, hfree] at ht

theorem mem_block {m : Nat} (hm : 2 ^ o ∣ m) : (m ≤ p ∧ p < m + 2 ^ o) ↔ p / 2 ^ o = m / 2 ^ o := by
  obtain ⟨c, rfl⟩ := hm
  have hpos := Nat.two_pow_pos o
  rw [Nat.mul_div_cancel_left c hpos, Nat.div_eq_iff hpos, Nat.mul_comm c]
  omega

theorem dvd_xor (ha : 2 ^ o ∣ n) : 2 ^ o ∣ n ^^^ 2 ^ o := by
  have hpow : 2 ^ o ∣ n / 2 ^ (o + 1) * 2 ^ (o + 1) := Dvd.dvd.mul_left (pow_dvd_pow 2 (by omega)) _
  rcases aligned_pair ha with he | he
  · rw [he, left_xor]
    exact Nat.dvd_add hpow (dvd_refl _)
  · rw [he, right_xor]
    exact hpow

theorem Wf.exists_block (h : Wf top size b) (ho : o ≤ top) (hn : 2 ^ o ∣ n)
    (hall : ∀ p, n ≤ p → p < n + 2 ^ o → b.Covers p) :
    ∃ o' m, o ≤ o' ∧ m ∈ b.free o' ∧ m ≤ n ∧ n + 2 ^ o ≤ m + 2 ^ o' := by
  induction o generalizing n with
  | zero =>
    obtain ⟨o', m, hm, h1, h2⟩ := hall n le_rfl (by simp)
    exact ⟨o', m, Nat.zero_le _, hm, h1, h2⟩
  | succ o ih =>
    have hpow : 2 ^ (o + 1) = 2 ^ o + 2 ^ o := by ring
    have hd : 2 ^ o ∣ n := (pow_dvd_pow 2 (Nat.le_succ o)).trans hn
    obtain ⟨o₁, m₁, hle₁, hm₁, hin₁⟩ := ih (by omega) hd fun p h1 h2 => hall p h1 (by omega)
    obtain ⟨o₂, m₂, hle₂, hm₂, hin₂⟩ := ih (n := n + 2 ^ o) (by omega) (Nat.dvd_add hd (dvd_refl _))
      fun p h1 h2 => hall p (by omega) (by omega)
    have hpos := Nat.two_pow_pos o
    -- a block of a higher order reaches to the end of the run, since both are aligned
    have hend : ∀ o' m, o + 1 ≤ o' → m ∈ b.free o' → m ≤ n → n < m + 2 ^ o' → n + 2 ^ (o + 1) ≤ m + 2 ^ o' := by
      intro o' m hle hm h1 h2
      obtain ⟨c, hc⟩ := hn
      obtain ⟨d, hd⟩ := (pow_dvd_pow 2 hle).trans (h.aligned o' m hm)
      obtain ⟨e, he⟩ := pow_dvd_pow 2 hle
      rw [hc, hd, he, ← Nat.mul_add] at h2 ⊢
      rw [← Nat.mul_succ]
      exact Nat.mul_le_mul_left _ (Nat.lt_of_mul_lt_mul_left h2)
    by_cases h₁ : o + 1 ≤ o₁
    · exact ⟨o₁, m₁, h₁, hm₁, hin₁.1, hend o₁ m₁ h₁ hm₁ hin₁.1 (by omega)⟩
    obtain rfl : o = o₁ := by omega
    obtain rfl : m₁ = n := by omega
    by_cases h₂ : o + 1 ≤ o₂
    · have hne : ¬(o = o₂ ∧ m₁ = m₂) := by omega
      have := h.disjoint o m₁ o₂ m₂ hm₁ hm₂ hne
      obtain ⟨c, hc⟩ := hn
      obtain ⟨d, hd⟩ := (pow_dvd_pow 2 h₂).trans (h.aligned o₂ m₂ hm₂)
      have hlt : d < c + 1 := Nat.lt_of_mul_lt_mul_left (a := 2 ^ (o + 1)) (by rw [Nat.mul_succ]; omega)
      have hle : 2 ^ (o + 1) * d ≤ 2 ^ (o + 1) * c := Nat.mul_le_mul_left _ (by omega)
      omega
    obtain rfl : o = o₂ := by omega
    obtain rfl : m₂ = m₁ + 2 ^ o := by omega
    refine absurd ⟨?_, ?_⟩ (h.apart o (by omega) (m₁ / 2 ^ (o + 1)))
    · rwa [Nat.div_mul_cancel hn]
    · rwa [Nat.div_mul_cancel hn]

section

variable (h : Wf top size b) (hd : 2 ^ top ∣ size) (hall : ∀ p < size, b.Covers p)
include h hd hall

theorem Wf.exists_smaller (ho : o < top) (hn : n ∈ b.free o) : ∃ o' m, o' < o ∧ m ∈ b.free o' := by
  have hal := h.aligned o n hn
  have hlt : n ^^^ 2 ^ o < size := by
    obtain ⟨c, hc⟩ := (pow_dvd_pow 2 ho).trans hd
    have hpos := Nat.two_pow_pos o
    have hb := h.bound o n hn
    have hn' : n / 2 ^ (o + 1) < c :=
      (Nat.div_lt_iff_lt_mul (Nat.two_pow_pos _)).mpr (by rw [Nat.mul_comm, ← hc]; omega)
    rw [← xor_div hal, Nat.div_lt_iff_lt_mul (Nat.two_pow_pos _), Nat.mul_comm, ← hc] at hn'
    exact hn'
  obtain ⟨o', m, hm, hin⟩ := hall _ hlt
  refine ⟨o', m, ?_, hm⟩
  by_contra hle
  have hm' := h.aligned o' m hm
  rw [mem_block hm'] at hin
  by_cases heq : o' = o
  · subst o'
    have hx : m = n ^^^ 2 ^ o := by
      rw [← Nat.div_mul_cancel hm', ← hin, Nat.div_mul_cancel (dvd_xor hal)]
    rw [hx] at hm
    refine h.apart o ho (n / 2 ^ (o + 1)) ?_
    rcases aligned_pair hal with he | he
    · rw [← left_xor, ← he]
      exact ⟨hn, hm⟩
    · rw [← he, ← right_xor, ← he]
      exact ⟨hm, hn⟩
  · have hself : n / 2 ^ o' = m / 2 ^ o' := by
      have hsplit : 2 ^ o' = 2 ^ (o + 1) * 2 ^ (o' - (o + 1)) := by rw [← pow_add]; congr 1; omega
      rw [← hin, hsplit, ← Nat.div_div_eq_div_mul, ← Nat.div_div_eq_div_mul, xor_div hal]
    have := (mem_block hm').mpr hself
    have := Nat.two_pow_pos o
    have := h.disjoint o n o' m hn hm (fun he => heq he.1.symm)
    omega

theorem Wf.free_low (ho : o < top) : b.free o = [] := by
  induction o using Nat.strong_induction_on with
  | _ o ih =>
    refine List.eq_nil_iff_forall_not_mem.mpr ?_
    intro n hn
    obtain ⟨o', m, hlt, hm⟩ := h.exists_smaller hd hall ho hn
    rw [ih o' hlt (by omega)] at hm
    simp at hm

theorem Wf.mem_free_top : n ∈ b.free top ↔ 2 ^ top ∣ n ∧ n + 2 ^ top ≤ size := by
  refine ⟨fun hn => ⟨h.aligned _ _ hn, h.bound _ _ hn⟩, ?_⟩
  rintro ⟨hn, hle⟩
  obtain ⟨o, m, hm, hin⟩ := hall n (by omega)
  obtain rfl : o = top := by
    by_contra ho
    have := h.order o m hm
    rw [h.free_low hd hall (show o < top by omega)] at hm
    simp at hm
  have hm' := h.aligned o m hm
  rw [mem_block hm'] at hin
  rwa [← Nat.div_mul_cancel hn, hin, Nat.div_mul_cancel hm']

end

end

end Buddy

end BabyOS
