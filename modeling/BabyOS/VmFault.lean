import BabyOS.VmRelease

open Function BitVec

namespace BabyOS

namespace Mm

variable {mm : Mm} {n : Nat} {off : Word}

section

variable (hl : Layout mm) (hn : n < mm.pages) (ho : off.toNat < 4096)
include hl hn ho

theorem toNat_pageAddr_add : (mm.pageAddr n + off).toNat = mm.base.toNat + 4096 * n + off.toNat := by
  have h1 := hl.end_of_pages hn
  rw [toNat_add, toNat_pageAddr hn.le]
  omega

theorem freePages_add : mm.freePages (mm.pageAddr n + off) 0 = mm.freePages (mm.pageAddr n) 0 := by
  have hadd := toNat_pageAddr_add hl hn ho
  have haddr := toNat_pageAddr hn.le
  have hk := hl.kernel
  have hb := hl.base_dvd
  have hkn := toNat_kernelBase
  have hdec : va2pa (mm.pageAddr n + off) >>> pageShift = va2pa (mm.pageAddr n) >>> pageShift := by
    apply eq_of_toNat_eq
    rw [toNat_ushiftRight, toNat_ushiftRight, va2pa, va2pa, toNat_sub,
      toNat_sub, hadd, haddr, Nat.shiftRight_eq_div_pow, Nat.shiftRight_eq_div_pow, pageShift]
    omega
  have hindex : mapNr (mm.pageAddr n + off - mm.base) = mapNr (mm.pageAddr n - mm.base) := by
    apply eq_of_toNat_eq
    rw [mapNr, mapNr, toNat_ushiftRight, toNat_ushiftRight, toNat_sub,
      toNat_sub, hadd, haddr, Nat.shiftRight_eq_div_pow, Nat.shiftRight_eq_div_pow, pageShift]
    omega
  have hround : (mm.pageAddr n + off) &&& pageMask <<< 0 = mm.pageAddr n &&& pageMask <<< 0 := by
    apply eq_of_toNat_eq
    rw [shiftLeft_zero, toNat_and_pageMask, toNat_and_pageMask, hadd, haddr]
    omega
  unfold freePages decPageRef
  simp only [hdec]
  split
  next => rfl
  next => rfl
  next mm' heq =>
    have hbase : mm'.base = mm.base := by
      split at heq
      next => simp at heq
      next =>
        simp only [Option.some.injEq, Prod.mk.injEq] at heq
        rw [← heq.1]
    simp only [hbase, hindex, hround]

theorem getPageRef_add : mm.getPageRef (va2pa (mm.pageAddr n) + off) = mm.ref (mm.frame n) := by
  have hadd := toNat_pageAddr_add hl hn ho
  have hk := hl.kernel
  have hb := hl.base_dvd
  have hkn := toNat_kernelBase
  have he : va2pa (mm.pageAddr n) + off = mm.pageAddr n + off - kernelBase := by
    rw [va2pa]
    bv_omega
  rw [getPageRef, he, toNat_ushiftRight, toNat_sub, hadd, Nat.shiftRight_eq_div_pow, pageShift, frame]
  congr 1
  omega

end

end Mm

namespace Machine

variable {m m' m1 m2 : Machine} {own own' : Slot → Option Nat} {wr : Slot → Bool} {p d n : Nat}
  {pgDir va addr : Word}

structure Touched (m m' : Machine) (own own' : Slot → Option Nat) (p d i j n t : Nat) : Prop where
  owned : Owned m' own'
  fixed : m'.mm.fixed = m.mm.fixed
  table : own' (.table p i) = some t
  user : own' (.user p i j) = some n
  alone : ∀ u, own' u = some n → u = .user p i j
  fresh : ∀ u, own u ≠ some n
  old : ∀ a, own (.table p i) = some a → a = t
  slots : ∀ u, u ≠ .table p i → u ≠ .user p i j → own' u = own u
  mem : ∀ q, q ≠ m.page d → q ≠ m.page t → q ≠ m.page n → m'.mem q = m.mem q

theorem toNat_sub_pageMask (va : Word) : (va - (va &&& pageMask)).toNat = va.toNat % 4096 := by
  have h := toNat_and_pageMask va
  rw [toNat_sub_of_le (by rw [le_def]; omega)]
  omega

theorem page_add_and_pageMask (hl : m.mm.Layout) (hn : n < m.mm.pages) (va : Word) :
    (m.page n + (va - (va &&& pageMask))) &&& pageMask = m.page n := by
  have hoff := toNat_sub_pageMask va
  have hdvd := paged_iff.mp (paged_page hl hn)
  apply eq_of_toNat_eq
  rw [toNat_and_pageMask, toNat_add, hoff]
  omega

theorem va2paOf_pageAddr (h : Owned m own) (hn : n < m.mm.pages) (m1 : Machine) (pgDir : Word) :
    m1.va2paOf pgDir (m.mm.pageAddr n) &&& pageMask = m.page n := by
  have hge : m.mm.pageAddr n ≥ kernelBase := by
    have h1 := h.layout.kernel
    rw [ge_iff_le, le_def, Mm.toNat_pageAddr hn.le]
    omega
  rw [Machine.va2paOf, if_pos hge]
  exact paged_page h.layout hn

theorem Walks.va2paOf_page (hw : Walks m own wr p (va2pa pgDir) ∅) (h : Owned m own) (hva : va < kernelBase)
    (hu : own (.of p va) = some n) : m.va2paOf pgDir va &&& pageMask = m.page n := by
  rw [hw.va2paOf h hva, hu]
  exact page_add_and_pageMask h.layout (h.holds.inside _ _ hu) va

section

variable (h : Owned m own) (hspare : own .spare = none) (hw : Walks m own wr p (va2pa pgDir) ∅)
  (hd : own (.dir p) = some d) (hpg : va2pa pgDir = m.page d) (hva : va < kernelBase)
include h hspare hw hd hpg hva

theorem Owned.mapFresh (ha : m.allocPage = some (m1, addr)) :
    ∃ n, addr = m.mm.pageAddr n ∧ n < m.mm.pages ∧ (∀ u, own u ≠ some n) ∧
      Owned m1 (update own .spare (some n)) ∧ m1.mm.fixed = m.mm.fixed ∧ m1.mem = m.mem ∧
      ∀ {m2 m3 own2}, m2.mm.fixed = m.mm.fixed → (∀ q, q ≠ m.page n → m2.mem q = m.mem q) →
        Owned m2 own2 → own2 (.of p va) = none → (∀ u, u ≠ .of p va → own2 u = update own .spare (some n) u) →
        m2.mapPages pgDir va (va2pa addr) pageSize (pteW ||| pteU) = some m3 →
        ∃ own' t, Touched m m3 own own' p d (pdIndex va) (ptIndex va) n t ∧
          Walks m3 own' (update wr (.of p va) true) p (va2pa pgDir) ∅ ∧
          m3.mem (m.page n) = m2.mem (m.page n) ∧
          ∃ m4, m2.tableOf pgDir (pdIndex va) = some (m4, m.page t) := by
  obtain ⟨n, hpa, haddr, hlt, hnew, hown1, hfix1, hmem1⟩ := h.allocPage ha hspare (by simp) (by simp)
  refine ⟨n, haddr, hlt, hnew, hown1, hfix1, hmem1, ?_⟩
  intro m2 m3 own2 hfix2 hmem2 hown2 hu2 hk2 hr
  have hpage2 := page_of_fixed hfix2
  have hkeep : ∀ u, u ≠ .spare → u ≠ .of p va → own2 u = own u :=
    fun u h1 h2 => by rw [hk2 u h2, update_of_ne h1]
  have hn2 : own2 .spare = some n := by rw [hk2 _ (by simp), update_self]
  have hnot : ∀ {u a}, own u = some a → m.page a ≠ m.page n := fun {u a} hu he =>
    hnew u (page_inj h.layout (h.holds.inside u a hu) hlt he ▸ hu)
  have hw2 : Walks m2 own2 wr p (va2pa pgDir) {(pdIndex va, ptIndex va)} := by
    refine Walks.congr ⟨hw.pde, fun i t ht j hj _ => hw.pte i t ht j hj (Set.notMem_empty _)⟩ hfix2 ?_ (fun i => hkeep _ (by simp) (by simp))
      (fun i t ht => hmem2 _ (hnot ht)) (fun i j hij => hkeep _ (by simp) ?_) (fun _ _ _ => rfl)
    · rw [hpg]
      exact hmem2 _ (hnot hd)
    · simpa using hij
  rw [hpa, ← hpage2] at hr
  obtain ⟨own', t, hmap, hw3, htable⟩ := hw2.mapPage hown2 ((hkeep _ (by simp) (by simp)).trans hd)
    (by rw [hpg, hpage2]) hva hn2 hu2 hr
  have hpage3 := page_of_fixed hmap.fixed
  have halone : ∀ u, own' u = some n → u = .of p va := by
    intro u hu
    by_contra hne
    by_cases hus : u = .spare
    · subst u
      simp [hmap.spare] at hu
    · by_cases hut : u = .table p (pdIndex va)
      · have := hmap.owned.shape.alone u (.of p va) n (by rw [hut]; rfl) hu
          hmap.user
        exact hne this.symm
      · rw [hmap.slots u hut hne hus, hkeep u hus hne] at hu
        exact hnew u hu
  refine ⟨own', t, ⟨hmap.owned, hmap.fixed.trans hfix2, hmap.table, hmap.user, halone, hnew,
    fun a ha => hmap.old a ((hkeep _ (by simp) (by simp)).trans ha), ?_, ?_⟩, hw3, ?_, hpage2 ▸ htable⟩
  · intro u h1 h2
    by_cases hus : u = .spare
    · subst u
      rw [hmap.spare, hspare]
    · rw [hmap.slots u h1 h2 hus, hkeep u hus h2]
  · intro q h1 h2 h3
    rw [hmap.mem q (by rw [hpage2]; exact h1) (by rw [hpage2]; exact h2), hmem2 q h3]
  · have hd' : own' (.dir p) = some d := by
      rw [hmap.slots _ (by simp) (by simp) (by simp), hkeep _ (by simp) (by simp), hd]
    refine hmap.mem _ ?_ ?_
    · rw [← hpage2, ← hpage3]
      exact hmap.owned.page_ne hd' hmap.user rfl (by simp)
    · rw [← hpage2, ← hpage3]
      exact hmap.owned.page_ne hmap.table hmap.user rfl (by simp)

theorem Owned.firstTouch (hu : own (.of p va) = none) (ha : m.allocPage = some (m1, addr)) {bytes : Nat → Byte}
    (hm : (m1.fill (va2pa addr) bytes).mapPages pgDir va (va2pa addr) pageSize (pteW ||| pteU) = some m') :
    ∃ own' n t, Touched m m' own own' p d (pdIndex va) (ptIndex va) n t ∧
      Walks m' own' (update wr (.of p va) true) p (va2pa pgDir) ∅ ∧
      va2pa addr = m.page n ∧ m'.mem (m.page n) = bytes ∧
      ∃ m4, (m1.fill (va2pa addr) bytes).tableOf pgDir (pdIndex va) = some (m4, m.page t) := by
  obtain ⟨n, haddr, hlt, hnew, hown, hfix, hmem, hmap⟩ := h.mapFresh hspare hw hd hpg hva ha
  have hpa : va2pa addr = m.page n := by rw [haddr, page]
  obtain ⟨own', t, h1, h2, h3, h4⟩ := hmap (show (m1.fill (va2pa addr) bytes).mm.fixed = _ from hfix)
    (fun q hq => by rw [hpa, fill_mem_of_ne _ hq, hmem]) (hown.of_eq rfl)
    (by rw [update_of_ne (by simp), hu]) (fun _ _ => rfl) hm
  refine ⟨own', n, t, h1, h2, hpa, ?_, h4⟩
  rw [h3, hpa, fill_mem_self]

theorem Owned.copyOnWrite (hu : own (.of p va) = some n) (ha : m.allocPage = some (m1, addr))
    (hm : ((m1.fill (m1.va2paOf pgDir addr &&& pageMask)
      (m1.mem (m1.va2paOf pgDir va &&& pageMask))).freePage (pa2va (m.va2paOf pgDir va))).bind
        (fun m => m.mapPages pgDir va (va2pa addr) pageSize (pteW ||| pteU)) = some m') :
    ∃ own' k t, Touched m m' own own' p d (pdIndex va) (ptIndex va) k t ∧
      Walks m' own' (update wr (.of p va) true) p (va2pa pgDir) ∅ ∧
      m'.mem (m.page k) = m.mem (m.page n) ∧ va2pa addr = m.page k := by
  obtain ⟨k, haddr, hlt, hnew, hown, hfix, hmem, hmap⟩ := h.mapFresh hspare hw hd hpg hva ha
  have hn := h.holds.inside _ _ hu
  have hpa : va2pa addr = m.page k := by rw [haddr, page]
  have hold : m.va2paOf pgDir va = m.page n + (va - (va &&& pageMask)) := by
    rw [hw.va2paOf h hva, hu]
  have hto : m1.va2paOf pgDir addr &&& pageMask = m.page k := by
    rw [haddr]
    exact va2paOf_pageAddr h hlt m1 pgDir
  have hfrom : m1.va2paOf pgDir va &&& pageMask = m.page n := by
    rw [va2paOf_congr hmem, hw.va2paOf_page h hva hu]
  rw [hto, hfrom, hmem, hold] at hm
  generalize hm2 : m1.fill (m.page k) (m.mem (m.page n)) = m2 at hm
  have hown2 : Owned m2 (update own .spare (some k)) := hown.of_eq (by rw [← hm2]; rfl)
  have hfix2 : m2.mm.fixed = m.mm.fixed := by
    rw [← hm2]
    exact hfix
  obtain ⟨m3, hfree, hown3, hmem3, hfix3⟩ := hown2.freePage (s := .of p va)
    (n := n) (by rw [update_of_ne (by simp), hu]) (by simp)
  have hfree' : m2.freePage (pa2va (m.page n + (va - (va &&& pageMask)))) = some m3 := by
    have hsum : pa2va (m.page n + (va - (va &&& pageMask))) =
        m2.mm.pageAddr n + (va - (va &&& pageMask)) := by
      rw [Mm.pageAddr_of_fixed hfix2, ← pa2va_page, pa2va, pa2va]
      ac_rfl
    have hoff : (va - (va &&& pageMask)).toNat < 4096 := by
      rw [toNat_sub_pageMask]
      exact Nat.mod_lt _ (by decide)
    rw [← hfree, hsum, Machine.freePage, Machine.freePage,
      Mm.freePages_add hown2.layout (by rw [Mm.pages_of_fixed hfix2]; exact hn) hoff]
  rw [hfree', Option.bind_some] at hm
  obtain ⟨own', t, h1, h2, h3, -⟩ := hmap (hfix3.trans hfix2)
    (fun q hq => by rw [hmem3, ← hm2, fill_mem_of_ne _ hq, hmem]) hown3 (update_self _ _ _)
    (fun u hne => update_of_ne hne _ _) hm
  refine ⟨own', k, t, h1, h2, ?_, hpa⟩
  rw [h3, hmem3, ← hm2, fill_mem_self]

end

theorem Walks.makePteWrite (hw : Walks m own wr p (va2pa pgDir) ∅) (h : Owned m own)
    (hd : own (.dir p) = some d) (hpg : va2pa pgDir = m.page d) (hva : va < kernelBase)
    (hu : own (.of p va) = some n) :
    ∃ t, own (.table p (pdIndex va)) = some t ∧ (m.makePteWrite pgDir va).mm = m.mm ∧
      (∀ q, q ≠ m.page t → (m.makePteWrite pgDir va).mem q = m.mem q) ∧ Walks (m.makePteWrite pgDir va) own
        (update wr (.of p va) true) p (va2pa pgDir) ∅ := by
  have hk : ¬va ≥ kernelBase := by rw [ge_iff_le, BitVec.not_le]; exact hva
  rcases hw.cases h hva with ⟨-, hnone⟩ | ⟨t, hlt, ht, hpde, hpte⟩
  · simp [hu] at hnone
  have hn := h.holds.inside _ _ hu
  have hor : m.pteOf (wr (.of p va)) (some n) ||| pteW =
      m.pteOf true (some n) := by
    cases wr (.of p va) <;>
      simp only [pteOf, Bool.false_eq_true, if_false, if_true, BitVec.or_assoc] <;> rfl
  have he : m.makePteWrite pgDir va = m.setEntry (m.page t) (ptIndex va) (m.pteOf true (some n)) := by
    unfold Machine.makePteWrite
    simp only [if_neg hk, hpde, if_neg (pdeOf_and_pteP h.layout hlt), pdeOf_and_pageMask h.layout hlt,
      hpte, hu, if_neg (pteOf_some h.layout hn _).1, hor]
  rw [he]
  have hdt : m.page d ≠ m.page t := h.page_ne ht hd rfl (by simp)
  refine ⟨t, ht, rfl, fun q hq => setEntry_mem_of_ne hq, fun i hi => ?_, fun i u hiu j hj _ => ?_⟩
  · rw [hpg, entry_setEntry_of_ne hdt, ← hpg, hw.pde i hi]
    rfl
  · have hold := hw.pte i u hiu j hj (Set.notMem_empty _)
    show (m.setEntry (m.page t) (ptIndex va) (m.pteOf true (some n))).entry (m.page u) j =
      m.pteOf _ (own (.user p i j))
    by_cases hi : i = pdIndex va
    · subst i
      obtain rfl : t = u := Option.some.inj (ht.symm.trans hiu)
      by_cases hj' : j = ptIndex va
      · subst j
        rw [entry_setEntry_self, update_self, hu]
      · rw [entry_setEntry_ne hj', hold, update_of_ne (by simpa using hj')]
    · have hut : m.page u ≠ m.page t := h.page_ne ht hiu rfl (by simpa using hi)
      rw [entry_setEntry_of_ne hut, hold, update_of_ne (by simp [hi])]

end Machine

end BabyOS
