import Mathlib.Data.List.Nodup
import Mathlib.Logic.Function.Basic

open Function List

namespace BabyOS

structure Links (α : Type) where
  next : α → α
  prev : α → α

/-- The nodes `xs` stand between `a` and `b`, each pointing at its neighbours. -/
def Linked {α : Type} (l : Links α) : α → List α → α → Prop
  | a, [], b => l.next a = b ∧ l.prev b = a
  | a, x :: xs, b => l.next a = x ∧ l.prev x = a ∧ Linked l x xs b

def Ring {α : Type} (l : Links α) (h : α) (xs : List α) : Prop :=
  (h :: xs).Nodup ∧ Linked l h xs h

def Chain {α : Type} (next : α → Option α) : Option α → List α → Prop
  | a, [] => a = none
  | a, x :: xs => a = some x ∧ Chain next (next x) xs

section

variable {α : Type}

variable {next : α → Option α} {a x b e h : α} {xs ys p q : List α} {l : Links α}

theorem Chain.congr {next' : α → Option α} {a : Option α} (h : Chain next a xs)
    (hn : ∀ x ∈ xs, next' x = next x) : Chain next' a xs := by
  induction xs generalizing a with
  | nil => exact h
  | cons x xs ih =>
    refine ⟨h.1, ?_⟩
    rw [hn x mem_cons_self]
    exact ih h.2 fun y hy => hn y (mem_cons_of_mem x hy)

theorem Chain.unique {a : Option α} (hx : Chain next a xs) (hy : Chain next a ys) : xs = ys := by
  induction xs generalizing a ys with
  | nil =>
    cases ys with
    | nil => rfl
    | cons y ys => cases hx.symm.trans hy.1
  | cons x xs ih =>
    cases ys with
    | nil => cases hx.1.symm.trans hy
    | cons y ys =>
      cases hx.1.symm.trans hy.1
      rw [ih hx.2 hy.2]

theorem Chain.snoc {next' : α → Option α} {a : Option α} {t : α} (h : Chain next a (xs ++ [t]))
    (hxs : ∀ y ∈ xs, next' y = next y) (ht : next' t = some x) (hx : next' x = none) :
    Chain next' a (xs ++ [t] ++ [x]) := by
  induction xs generalizing a with
  | nil =>
    rw [nil_append]
    exact ⟨h.1, ht, hx⟩
  | cons y xs ih =>
    refine ⟨h.1, ?_⟩
    rw [hxs y mem_cons_self]
    exact ih h.2 fun z hz => hxs z (mem_cons_of_mem y hz)

theorem Linked.congr {l' : Links α} (h : Linked l a xs b)
    (hn : ∀ x ∈ a :: xs, l'.next x = l.next x) (hp : ∀ x ∈ xs ++ [b], l'.prev x = l.prev x) : Linked l' a xs b := by
  induction xs generalizing a with
  | nil =>
    obtain ⟨h1, h2⟩ := h
    exact ⟨(hn a (by simp)).trans h1, (hp b (by simp)).trans h2⟩
  | cons x xs ih =>
    obtain ⟨h1, h2, h3⟩ := h
    refine ⟨(hn a (by simp)).trans h1, (hp x (by simp)).trans h2, ih h3 ?_ ?_⟩
    · intro y hy
      exact hn y (mem_cons_of_mem a hy)
    · intro y hy
      exact hp y (mem_cons_of_mem x hy)

theorem Linked.next_mem (h : Linked l a (p ++ e :: q) b) : l.next e ∈ q ++ [b] := by
  induction p generalizing a with
  | nil =>
    obtain ⟨_, _, h3⟩ := h
    cases q with
    | nil => simp [h3.1]
    | cons y ys => simp [h3.1]
  | cons x p ih => exact ih h.2.2

theorem Linked.prev_mem (h : Linked l a (p ++ e :: q) b) : l.prev e ∈ a :: p := by
  induction p generalizing a with
  | nil => simp [h.2.1]
  | cons x p ih => exact mem_cons_of_mem a (ih h.2.2)

theorem Ring.next_head_mem (hr : Ring l h xs) : l.next h ∈ h :: xs := by
  cases xs with
  | nil => simp [hr.2.1]
  | cons x xs => simp [hr.2.1]

theorem Ring.next_head {l : Links α} {h x : α} {xs : List α} (hr : Ring l h (x :: xs)) :
    l.next h = x := hr.2.1

theorem Ring.next_head_eq_iff (hr : Ring l h xs) : l.next h = h ↔ xs = [] := by
  cases xs with
  | nil => simp [hr.2.1]
  | cons x xs =>
    have hne : h ≠ x := fun heq => (nodup_cons.mp hr.1).1 (by simp [heq])
    simp [hr.next_head, hne.symm]

theorem Linked.unique (hx : Linked l a xs b) (hy : Linked l a ys b) (hbx : b ∉ xs) (hby : b ∉ ys) : xs = ys := by
  induction xs generalizing a ys with
  | nil =>
    cases ys with
    | nil => rfl
    | cons y ys => exact absurd (mem_cons.mpr (Or.inl (hx.1.symm.trans hy.1))) hby
  | cons x xs ih =>
    cases ys with
    | nil => exact absurd (mem_cons.mpr (Or.inl (hy.1.symm.trans hx.1))) hbx
    | cons y ys =>
      obtain rfl : x = y := hx.1.symm.trans hy.1
      simp only [mem_cons, not_or] at hbx hby
      rw [ih hx.2.2 hy.2.2 hbx.2 hby.2]

theorem Ring.unique (hx : Ring l h xs) (hy : Ring l h ys) : xs = ys :=
  hx.2.unique hy.2 (nodup_cons.mp hx.1).1 (nodup_cons.mp hy.1).1

variable [DecidableEq α]

def Links.insertAfter (l : Links α) (head entry : α) : Links α :=
  let next := update l.next entry (l.next head)
  { next := update next head entry
    prev := update (update l.prev entry head) (next head) entry }

def Links.unlink (l : Links α) (entry : α) : Links α :=
  let prev := update l.prev (l.next entry) (l.prev entry)
  { next := update l.next (prev entry) (l.next entry), prev := prev }

def Links.popAfter (l : Links α) (head entry : α) : Links α :=
  let next := update l.next head (l.next entry)
  { next := next, prev := update l.prev (next entry) head }

theorem insertAfter_prev (hhe : h ≠ e) : (l.insertAfter h e).prev = update (update l.prev e h) (l.next h) e := by
  simp only [Links.insertAfter, update_of_ne hhe]

theorem insertAfter_next_of_ne (hh : x ≠ h) (he : x ≠ e) : (l.insertAfter h e).next x = l.next x := by
  simp [Links.insertAfter, hh, he]

theorem insertAfter_prev_of_ne (hhe : h ≠ e) (he : x ≠ e)
    (hx : x ≠ l.next h) : (l.insertAfter h e).prev x = l.prev x := by
  simp [insertAfter_prev hhe, he, hx]

theorem Ring.insertAfter (hr : Ring l h xs) (he : e ∉ h :: xs) : Ring (l.insertAfter h e) h (e :: xs) := by
  obtain ⟨hnd, hl⟩ := hr
  have hhe : h ≠ e := fun heq => he (by simp [heq])
  have hnd' : (h :: e :: xs).Nodup := by
    simp only [nodup_cons, mem_cons, not_or] at hnd he ⊢
    exact ⟨⟨hhe, hnd.1⟩, he.2, hnd.2⟩
  have hfirst : (l.insertAfter h e).next h = e := by simp [Links.insertAfter]
  have hsecond : (l.insertAfter h e).next e = l.next h := by
    simp [Links.insertAfter, update_of_ne hhe.symm]
  have hback : (l.insertAfter h e).prev (l.next h) = e := by simp [insertAfter_prev hhe]
  have hne : e ≠ l.next h := fun heq => he (heq ▸ Ring.next_head_mem ⟨hnd, hl⟩)
  have hpe : (l.insertAfter h e).prev e = h := by simp [insertAfter_prev hhe, update_of_ne hne]
  refine ⟨hnd', hfirst, hpe, ?_⟩
  cases xs with
  | nil =>
    have hself : l.next h = h := hl.1
    exact ⟨hsecond.trans hself, by rw [hself] at hback; exact hback⟩
  | cons x xs =>
    obtain ⟨h1, h2, h3⟩ := hl
    simp only [nodup_cons, mem_cons, not_or] at hnd hnd'
    refine ⟨hsecond.trans h1, by rw [h1] at hback; exact hback, h3.congr ?_ ?_⟩
    · intro y hy
      apply insertAfter_next_of_ne
      · rintro rfl
        exact hnd.1.elim (fun h1 h2 => (mem_cons.mp hy).elim h1 h2)
      · rintro rfl
        exact hnd'.2.1.elim (fun h1 h2 => (mem_cons.mp hy).elim h1 h2)
    · intro y hy
      have hy' : y ∈ xs ∨ y = h := by simpa using hy
      apply insertAfter_prev_of_ne hhe
      · rintro rfl
        exact hy'.elim hnd'.2.1.2 hhe.symm
      · rw [h1]
        rintro rfl
        exact hy'.elim hnd.2.1 (Ne.symm hnd.1.1)

theorem Ring.insertAfter_frame {g : α} (hr : Ring l h xs)
    (hg : Ring l g ys) (he : e ∉ g :: ys) (hd : ∀ x ∈ h :: xs, x ∉ e :: g :: ys) : Ring (l.insertAfter g e) h xs := by
  have hge : g ≠ e := by rintro rfl; simp at he
  have hmem := hg.next_head_mem
  have hsep : ∀ x ∈ h :: xs, x ≠ g ∧ x ≠ e ∧ x ≠ l.next g := by
    intro x hx
    have hx' := hd x hx
    simp only [mem_cons, not_or] at hx'
    refine ⟨hx'.2.1, hx'.1, ?_⟩
    rintro rfl
    rcases mem_cons.mp hmem with hm | hm
    · exact hx'.2.1 hm
    · exact hx'.2.2 hm
  refine ⟨hr.1, hr.2.congr ?_ ?_⟩
  · intro x hx
    exact insertAfter_next_of_ne (hsep x hx).1 (hsep x hx).2.1
  · intro x hx
    have hx' := (perm_append_singleton h xs).mem_iff.mp hx
    exact insertAfter_prev_of_ne hge (hsep x hx').2.1 (hsep x hx').2.2

theorem unlink_next_of_ne (he : l.next e ≠ e) (hx : x ≠ l.prev e) : (l.unlink e).next x = l.next x := by
  simp [Links.unlink, update_of_ne (Ne.symm he), hx]

theorem unlink_prev_of_ne (hx : x ≠ l.next e) : (l.unlink e).prev x = l.prev x := by
  simp [Links.unlink, hx]

theorem Linked.unlink (h : Linked l a (p ++ e :: q) b) (hnd : (p ++ e :: q).Nodup) (ha : a ∉ p ++ e :: q)
    (hb : b ∉ p ++ e :: q) : Linked (l.unlink e) a (p ++ q) b := by
  have hnext := h.next_mem
  have hne : l.next e ≠ e := by
    intro heq
    rw [heq] at hnext
    rcases mem_append.mp hnext with hm | hm
    · exact (nodup_cons.mp (nodup_append.mp hnd).2.1).1 hm
    · exact hb (by simp at hm; simp [hm])
  induction p generalizing a with
  | nil =>
    obtain ⟨h1, h2, h3⟩ := h
    simp only [nil_append, mem_cons, not_or, nodup_cons] at ha hb hnd ⊢
    have hfirst : (l.unlink e).next a = l.next e := by
      simp [Links.unlink, update_of_ne (Ne.symm hne), h2]
    have hback : (l.unlink e).prev (l.next e) = a := by simp [Links.unlink, h2]
    cases q with
    | nil =>
      obtain ⟨h4, h5⟩ := h3
      exact ⟨hfirst.trans h4, by rw [← h4]; exact hback⟩
    | cons y ys =>
      obtain ⟨h4, h5, h6⟩ := h3
      simp only [mem_cons, not_or, nodup_cons] at ha hb hnd
      refine ⟨hfirst.trans h4, by rw [← h4]; exact hback, h6.congr ?_ ?_⟩
      · intro x hx
        apply unlink_next_of_ne hne
        rw [h2]
        rintro rfl
        rcases mem_cons.mp hx with hx | hx
        · exact ha.2.1 hx
        · exact ha.2.2 hx
      · intro x hx
        apply unlink_prev_of_ne
        rw [h4]
        rintro rfl
        have hx' : x ∈ ys ∨ x = b := by simpa using hx
        exact hx'.elim hnd.2.1 (Ne.symm hb.2.1)
  | cons x p ih =>
    obtain ⟨h1, h2, h3⟩ := h
    have hprev := Linked.prev_mem h3
    have hnd' := nodup_cons.mp hnd
    simp only [cons_append, mem_cons, not_or] at ha hb
    refine ⟨?_, ?_, ih h3 hnd'.2 hnd'.1 hb.2⟩
    · rw [unlink_next_of_ne hne]
      · exact h1
      · rintro rfl
        rcases mem_cons.mp hprev with hm | hm
        · exact ha.1 hm
        · exact ha.2 (mem_append_left _ hm)
    · rw [unlink_prev_of_ne]
      · exact h2
      · rintro rfl
        have hm : l.next e ∈ q ∨ l.next e = b := by simpa using hnext
        exact hm.elim (fun hm => hnd'.1 (mem_append_right _ (mem_cons_of_mem e hm)))
          (Ne.symm hb.1)

theorem Ring.unlink (hr : Ring l h xs) (he : e ∈ xs) : Ring (l.unlink e) h (xs.erase e) := by
  obtain ⟨hnd, hl⟩ := hr
  obtain ⟨p, q, rfl⟩ := append_of_mem he
  have hnd' := nodup_cons.mp hnd
  have hep : e ∉ p := by
    intro hm
    exact (nodup_append.mp hnd'.2).2.2 e hm e (by simp) rfl
  have herase : (p ++ e :: q).erase e = p ++ q := by
    rw [erase_append_right _ hep, erase_cons_head]
  rw [herase]
  refine ⟨?_, hl.unlink hnd'.2 hnd'.1 hnd'.1⟩
  exact List.Nodup.sublist (((sublist_cons_self e q).append_left p).cons_cons h) hnd

theorem Ring.popAfter_eq (hr : Ring l h (x :: xs)) : l.popAfter h x = l.unlink x := by
  obtain ⟨hnd, h1, h2, h3⟩ := hr
  have hxh : x ≠ h := fun heq => (nodup_cons.mp hnd).1 (by simp [heq])
  have hne : x ≠ l.next x := by
    intro heq
    have hm := Linked.next_mem (p := []) (show Linked l h ([] ++ x :: xs) h from ⟨h1, h2, h3⟩)
    rw [← heq] at hm
    have hm' : x ∈ xs ∨ x = h := by simpa using hm
    exact hm'.elim (nodup_cons.mp (nodup_cons.mp hnd).2).1 hxh
  simp [Links.popAfter, Links.unlink, h2, update_of_ne hxh, update_of_ne hne]

theorem Ring.unlink_frame {g : α} (hr : Ring l h xs)
    (hg : Ring l g ys) (he : e ∈ ys) (hd : ∀ x ∈ h :: xs, x ∉ g :: ys) : Ring (l.unlink e) h xs := by
  obtain ⟨p, q, rfl⟩ := append_of_mem he
  have hnext := hg.2.next_mem
  have hprev := hg.2.prev_mem
  have hnd := nodup_cons.mp hg.1
  have hnext' : l.next e ∈ g :: (p ++ e :: q) := by
    rcases mem_append.mp hnext with hm | hm
    · exact mem_cons_of_mem g (mem_append_right p (mem_cons_of_mem e hm))
    · simp at hm; simp [hm]
  have hprev' : l.prev e ∈ g :: (p ++ e :: q) := by
    rcases mem_cons.mp hprev with hm | hm
    · simp [hm]
    · exact mem_cons_of_mem g (mem_append_left _ hm)
  have hne : l.next e ≠ e := by
    intro heq
    rw [heq] at hnext
    rcases mem_append.mp hnext with hm | hm
    · exact (nodup_cons.mp (nodup_append.mp hnd.2).2.1).1 hm
    · exact hnd.1 (by simp at hm; simp [hm])
  refine ⟨hr.1, hr.2.congr ?_ ?_⟩
  · intro x hx
    exact unlink_next_of_ne hne (fun hx' => hd x hx (hx' ▸ hprev'))
  · intro x hx
    have hx' := (perm_append_singleton h xs).mem_iff.mp hx
    exact unlink_prev_of_ne (fun hx'' => hd x hx' (hx'' ▸ hnext'))

end

end BabyOS
