import BabyOS.MmHolds
import BabyOS.PageTable

open Function

namespace BabyOS

/-- Who can hold a page: a directory, a table, an entry of a table, the kernel, or a handler between taking and
mapping it. -/
inductive Slot
  | dir (p : Nat)
  | table (p i : Nat)
  | user (p i j : Nat)
  | kernel (n : Nat)
  | spare
  deriving DecidableEq

/-- The entry of an address. -/
abbrev Slot.of (p : Nat) (va : Word) : Slot := .user p (pdIndex va) (ptIndex va)

def Slot.isUser : Slot → Bool
  | .user _ _ _ => true
  | _ => false

/-- The pages of directories, tables and the kernel are not shared, and every entry stands in a
table. -/
structure Shape (own : Slot → Option Nat) : Prop where
  alone : ∀ k s n, k.isUser = false → own k = some n → own s = some n → s = k
  backed : ∀ p i j n, own (.user p i j) = some n → ∃ t, own (.table p i) = some t
  table_lt : ∀ p i t, own (.table p i) = some t → i < userPtrsPerPgd
  user_lt : ∀ p i j n, own (.user p i j) = some n → j < nrPtePerPage

section

variable {own : Slot → Option Nat} {s : Slot} {n : Nat}

theorem Shape.put (h : Shape own) (hs : own s = none) (hn : ∀ u, own u = some n → u.isUser ∧ s.isUser)
    (hback : ∀ p i j, s = .user p i j → (∃ t, own (.table p i) = some t) ∧ j < nrPtePerPage)
    (htab : ∀ p i, s = .table p i → i < userPtrsPerPgd) : Shape (update own s (some n)) := by
  refine ⟨fun k u m hk hkm hum => ?_, fun p i j m hm => ?_, fun p i t ht => ?_, fun p i j m hm => ?_⟩
  · by_cases hks : k = s
    · subst k
      by_cases hus : u = s
      · exact hus
      · rw [update_self, Option.some.injEq] at hkm
        rw [update_of_ne hus, ← hkm] at hum
        have := (hn u hum).2
        simp [hk] at this
    · rw [update_of_ne hks] at hkm
      by_cases hus : u = s
      · subst u
        rw [update_self, Option.some.injEq] at hum
        have := (hn k (hum ▸ hkm)).1
        simp [hk] at this
      · rw [update_of_ne hus] at hum
        exact h.alone k u m hk hkm hum
  · have hne : ∀ t, own (.table p i) = some t → Slot.table p i ≠ s := by
      rintro t ht rfl
      simp [hs] at ht
    by_cases hus : Slot.user p i j = s
    · obtain ⟨⟨t, ht⟩, -⟩ := hback p i j hus.symm
      exact ⟨t, by rw [update_of_ne (hne t ht), ht]⟩
    · rw [update_of_ne hus] at hm
      obtain ⟨t, ht⟩ := h.backed p i j m hm
      exact ⟨t, by rw [update_of_ne (hne t ht), ht]⟩
  · by_cases hts : Slot.table p i = s
    · exact htab p i hts.symm
    · rw [update_of_ne hts] at ht
      exact h.table_lt p i t ht
  · by_cases hus : Slot.user p i j = s
    · exact (hback p i j hus.symm).2
    · rw [update_of_ne hus] at hm
      exact h.user_lt p i j m hm

theorem Shape.drop (h : Shape own) (htab : ∀ p i, s = .table p i → ∀ j, own (.user p i j) = none) :
    Shape (update own s none) := by
  have hold : ∀ {u m}, update own s none u = some m → own u = some m ∧ u ≠ s := by
    intro u m hu
    by_cases hus : u = s
    · subst u
      simp at hu
    · rw [update_of_ne hus] at hu
      exact ⟨hu, hus⟩
  refine ⟨fun k u m hk hkm hum => h.alone k u m hk (hold hkm).1 (hold hum).1, fun p i j m hm => ?_,
    fun p i t ht => h.table_lt p i t (hold ht).1, fun p i j m hm => h.user_lt p i j m (hold hm).1⟩
  obtain ⟨t, ht⟩ := h.backed p i j m (hold hm).1
  refine ⟨t, ?_⟩
  rw [update_of_ne, ht]
  intro he
  have := htab p i he.symm j
  simp [(hold hm).1] at this

end

def Slot.place (own : Slot → Option Nat) : Slot → Nat
  | .user p i j => (own (.table p i)).getD 0 * nrPtePerPage + j
  | _ => 0

variable {own : Slot → Option Nat} {mm : Mm}

theorem Shape.place_injOn (h : Shape own) : Set.InjOn (Slot.place own) {s | s.isUser ∧ own s ≠ none} := by
  rintro s ⟨hs, hso⟩ t ⟨ht, hto⟩ he
  cases s with
  | user p i j =>
    cases t with
    | user q k l =>
      obtain ⟨n, hn⟩ := Option.ne_none_iff_exists'.mp hso
      obtain ⟨m, hm⟩ := Option.ne_none_iff_exists'.mp hto
      obtain ⟨a, ha⟩ := h.backed p i j n hn
      obtain ⟨b, hb⟩ := h.backed q k l m hm
      have hj := h.user_lt p i j n hn
      have hl := h.user_lt q k l m hm
      simp only [Slot.place, ha, hb, Option.getD_some, nrPtePerPage] at he hj hl
      obtain rfl : a = b := by omega
      have heq := h.alone (.table q k) (.table p i) a rfl hb ha
      simp only [Slot.table.injEq] at heq
      simp only [heq, show j = l by omega]
    | _ => simp [Slot.isUser] at ht
  | _ => simp [Slot.isUser] at hs

theorem Mm.Layout.pages_le (h : mm.Layout) : mm.pages ≤ 2 ^ 18 := by
  have h1 := h.kernel
  have hk := toNat_kernelBase
  unfold Mm.pages
  omega

theorem Shape.count_lt (h : Shape own) (hh : mm.Holds own) (n : Nat) : holdCount own n < 2 ^ 31 := by
  by_cases hk : ∃ k, k.isUser = false ∧ own k = some n
  · obtain ⟨k, hku, hkn⟩ := hk
    rw [holdCount_one hkn (fun t ht => h.alone k t n hku hkn ht)]
    decide
  · have huser : ∀ s ∈ holders own n, s.isUser ∧ own s ≠ none := by
      intro s hs
      have hs' : own s = some n := hs
      refine ⟨?_, by simp [hs']⟩
      by_contra hf
      exact hk ⟨s, by simpa using hf, hs'⟩
    have hmaps : ∀ s ∈ holders own n, s.place own ∈ (Finset.range (2 ^ 18 * 1024) : Set Nat) := by
      intro s hs
      obtain ⟨hu, hne⟩ := huser s hs
      cases s with
      | user p i j =>
        obtain ⟨t, ht⟩ := h.backed p i j n hs
        have h1 := hh.inside _ _ ht
        have h2 := hh.layout.pages_le
        have h3 := h.user_lt p i j n hs
        simp only [Slot.place, ht, Option.getD_some, nrPtePerPage, Finset.coe_range, Set.mem_Iio] at h3 ⊢
        omega
      | _ => simp [Slot.isUser] at hu
    have hcard := Set.ncard_le_ncard_of_injOn (Slot.place own) hmaps
      (h.place_injOn.mono fun s hs => huser s hs)
    rw [Set.ncard_coe_finset, Finset.card_range] at hcard
    exact hcard.trans_lt (by decide)

def Paged (a : Word) : Prop := a &&& pageMask = a

section

variable {a f g : Word}

theorem paged_iff : Paged a ↔ 4096 ∣ a.toNat := by
  have hmask : pageMask = highMask 12 := by decide
  have hnat : (a &&& pageMask).toNat = a.toNat / 4096 * 4096 := by rw [hmask, toNat_and_highMask]; rfl
  refine ⟨fun h => ?_, fun h => BitVec.eq_of_toNat_eq ?_⟩
  · rw [← h, hnat]
    exact Dvd.intro_left _ rfl
  · rw [hnat, Nat.div_mul_cancel h]

theorem paged_and (a : Word) : Paged (a &&& pageMask) := by
  unfold Paged
  rw [BitVec.and_assoc, BitVec.and_self]

theorem Paged.or_and_low (h : Paged a) (hg : pageMask &&& g = 0) : (a ||| f) &&& g = f &&& g := by
  have ha : a &&& g = 0 := by
    rw [← h, BitVec.and_assoc, hg]
    exact BitVec.and_zero
  rw [BitVec.and_comm, BitVec.and_or_distrib_left, BitVec.and_comm g a, ha, BitVec.and_comm g f]
  exact BitVec.zero_or

theorem Paged.or_and_high (h : Paged a) (hg : pageMask &&& g = pageMask) :
    (a ||| f) &&& g = a ||| (f &&& g) := by
  have ha : a &&& g = a := by rw [← h, BitVec.and_assoc, hg]
  rw [BitVec.and_comm, BitVec.and_or_distrib_left, BitVec.and_comm g a, ha, BitVec.and_comm g f]

theorem Paged.or_and_pageMask (h : Paged a) (hf : f &&& pageMask = 0) : (a ||| f) &&& pageMask = a := by
  rw [h.or_and_high (BitVec.and_self), hf]
  exact BitVec.or_zero

theorem Paged.or_ne_zero (h : Paged a) (hf : f &&& pteP ≠ 0) : a ||| f ≠ 0 := by
  intro he
  apply hf
  rw [← h.or_and_low (show pageMask &&& pteP = 0 by decide), he]
  decide

end

namespace Machine

def page (m : Machine) (n : Nat) : Word := va2pa (m.mm.pageAddr n)

variable {m m' : Machine} {n k : Nat}

theorem page_of_fixed (h : m'.mm.fixed = m.mm.fixed) : m'.page = m.page := by
  unfold page
  rw [Mm.pageAddr_of_fixed h]

theorem toNat_page (hl : m.mm.Layout) (hn : n < m.mm.pages) :
    (m.page n).toNat = m.mm.base.toNat - kernelBase.toNat + 4096 * n := by
  have h1 := hl.kernel
  have h2 := Mm.base_add_pages m.mm hn.le
  rw [page, va2pa, BitVec.toNat_sub, Mm.toNat_pageAddr hn.le]
  omega

theorem paged_page (hl : m.mm.Layout) (hn : n < m.mm.pages) : Paged (m.page n) := by
  have h1 := hl.base_dvd
  have hk := toNat_kernelBase
  rw [paged_iff, toNat_page hl hn]
  omega

theorem page_inj (hl : m.mm.Layout) (hn : n < m.mm.pages) (hk : k < m.mm.pages)
    (h : m.page n = m.page k) : n = k := by
  have h' := congrArg BitVec.toNat h
  rw [toNat_page hl hn, toNat_page hl hk] at h'
  omega

theorem pa2va_page (m : Machine) (n : Nat) : pa2va (m.page n) = m.mm.pageAddr n := by
  rw [page, pa2va, va2pa, BitVec.sub_add_cancel]

end Machine

end BabyOS
