import BabyOS.VmOwn

open Function BitVec Option

namespace BabyOS

theorem pdIndex_eq (va : Word) : pdIndex va = va.toNat / 2 ^ 22 := by
  rw [pdIndex, toNat_and, toNat_ushiftRight, Nat.shiftRight_eq_div_pow,
    show (0x3ff#32).toNat = 2 ^ 10 - 1 by decide, Nat.and_two_pow_sub_one_eq_mod]
  omega

theorem ptIndex_eq (va : Word) : ptIndex va = va.toNat / 2 ^ 12 % 1024 := by
  rw [ptIndex, toNat_and, toNat_ushiftRight, Nat.shiftRight_eq_div_pow,
    show (0x3ff#32).toNat = 2 ^ 10 - 1 by decide, Nat.and_two_pow_sub_one_eq_mod]

theorem ptIndex_lt (va : Word) : ptIndex va < nrPtePerPage := by
  rw [ptIndex_eq]
  exact Nat.mod_lt _ (by decide)

theorem pdIndex_lt {va : Word} (h : va < kernelBase) : pdIndex va < userPtrsPerPgd := by
  have hk := toNat_kernelBase
  rw [lt_def, hk] at h
  rw [pdIndex_eq, userPtrsPerPgd]
  omega

theorem toNat_and_pageMask (va : Word) : (va &&& pageMask).toNat = va.toNat / 4096 * 4096 := by
  have hmask : pageMask = highMask 12 := by decide
  rw [hmask, toNat_and_highMask]
  rfl

theorem pdIndex_and (va : Word) : pdIndex (va &&& pageMask) = pdIndex va := by
  rw [pdIndex_eq, pdIndex_eq, toNat_and_pageMask]
  omega

theorem ptIndex_and (va : Word) : ptIndex (va &&& pageMask) = ptIndex va := by
  rw [ptIndex_eq, ptIndex_eq, toNat_and_pageMask]
  omega

theorem Slot.of_and (p : Nat) (va : Word) : Slot.of p (va &&& pageMask) = .of p va := by
  rw [Slot.of, pdIndex_and, ptIndex_and]

namespace Machine

variable {m m' : Machine} {page q : Word} {i j : Nat} {w : Word}

@[simp] theorem fill_mm (bytes : Nat → Byte) : (m.fill page bytes).mm = m.mm := rfl
@[simp] theorem setEntry_mm : (m.setEntry page i w).mm = m.mm := rfl

theorem fill_mem_self (bytes : Nat → Byte) : (m.fill page bytes).mem page = bytes :=
  update_self _ _ _

theorem fill_mem_of_ne (bytes : Nat → Byte) (h : q ≠ page) : (m.fill page bytes).mem q = m.mem q :=
  update_of_ne h _ _

theorem setEntry_mem_of_ne (h : q ≠ page) : (m.setEntry page i w).mem q = m.mem q :=
  fill_mem_of_ne _ h

theorem entry_setEntry_self : (m.setEntry page i w).entry page i = w := by
  rw [entry, setEntry, fill_mem_self, getWord_setWord_self]

theorem entry_setEntry_ne (h : j ≠ i) : (m.setEntry page i w).entry page j = m.entry page j := by
  rw [entry, setEntry, fill_mem_self, getWord_setWord_ne (by omega)]
  rfl

theorem entry_setEntry_of_ne (h : q ≠ page) : (m.setEntry page i w).entry q j = m.entry q j := by
  rw [entry, setEntry_mem_of_ne h]
  rfl

theorem entry_congr (h : m'.mem page = m.mem page) : m'.entry page i = m.entry page i := by
  rw [entry, entry, h]

variable {perm pa va : Word} {r : Machine × Word} {s : Slot}

theorem mapEntries_stop {table e v : Word} {fuel : Nat} (h : ¬v < e) :
    m.mapEntries table e perm fuel i v pa = (m, v, pa) := by
  cases fuel with
  | zero => rfl
  | succ fuel => rw [mapEntries, if_neg h]

theorem mapPages_page {pgDir : Word} (hva : va < kernelBase) :
    m.mapPages pgDir va pa pageSize perm = (m.tableOf pgDir (pdIndex va)).map fun r =>
      r.1.setEntry r.2 (ptIndex va) ((pa &&& pageMask) ||| pteP ||| perm) := by
  have hk := toNat_kernelBase
  have hsize' : pageSize.toNat = 4096 := by decide
  rw [lt_def, hk] at hva
  have hnext : ((va + pageSize) &&& pageMask) = (va &&& pageMask) + pageSize := by
    apply eq_of_toNat_eq
    rw [toNat_and_pageMask, toNat_add, toNat_add, toNat_and_pageMask, hsize']
    omega
  have hlt : (va &&& pageMask) < (va &&& pageMask) + pageSize := by
    rw [lt_def, toNat_add, toNat_and_pageMask, hsize']
    omega
  have hstop : ¬(va &&& pageMask) + pageSize < (va &&& pageMask) + pageSize := by
    rw [lt_def]
    exact lt_irrefl _
  unfold mapPages
  rw [hnext, show nrPtePerPage = 1022 + 1 + 1 from rfl, mapTables, if_pos hlt]
  cases m.tableOf pgDir (pdIndex va) with
  | none => rfl
  | some r =>
    obtain ⟨fuel, hfuel⟩ : ∃ f, 1022 + 1 + 1 - ptIndex (va &&& pageMask) = f + 1 := by
      have h := ptIndex_lt (va &&& pageMask)
      unfold nrPtePerPage at h
      exact ⟨1023 - ptIndex (va &&& pageMask), by omega⟩
    have hentries : r.1.mapEntries r.2 ((va &&& pageMask) + pageSize) perm
        (nrPtePerPage - ptIndex (va &&& pageMask)) (ptIndex (va &&& pageMask)) (va &&& pageMask)
        (pa &&& pageMask) = (r.1.setEntry r.2 (ptIndex va) ((pa &&& pageMask) ||| pteP ||| perm),
          (va &&& pageMask) + pageSize, (pa &&& pageMask) + pageSize) := by
      rw [show nrPtePerPage = 1022 + 1 + 1 from rfl, hfuel, mapEntries, if_pos hlt,
        mapEntries_stop hstop, ptIndex_and]
    simp only [hentries, map_some]
    rw [mapTables, if_neg hstop]

def pdeOf (m : Machine) : Option Nat → Word
  | none => 0
  | some t => m.page t ||| 0x7#32

def pteOf (m : Machine) (w : Bool) : Option Nat → Word
  | none => 0
  | some n => m.page n ||| if w then 0x7#32 else 0x5#32

/-- The tables of a process in memory are the pages its slots hold, but for the entries in `skip`,
of which nothing is said. -/
structure Walks (m : Machine) (own : Slot → Option Nat) (wr : Slot → Bool) (p : Nat) (dir : Word)
    (skip : Set (Nat × Nat)) : Prop where
  pde : ∀ i < userPtrsPerPgd, m.entry dir i = m.pdeOf (own (.table p i))
  pte : ∀ i t, own (.table p i) = some t → ∀ j < nrPtePerPage, (i, j) ∉ skip →
    m.entry (m.page t) j = m.pteOf (wr (.user p i j)) (own (.user p i j))

variable {own own' : Slot → Option Nat} {wr wr' : Slot → Bool} {p d t n : Nat} {dir pgDir : Word}
  {skip : Set (Nat × Nat)}

theorem pdeOf_of_fixed (h : m'.mm.fixed = m.mm.fixed) : m'.pdeOf = m.pdeOf := by
  funext o
  cases o <;> simp [pdeOf, page_of_fixed h]

theorem pteOf_of_fixed (h : m'.mm.fixed = m.mm.fixed) : m'.pteOf = m.pteOf := by
  funext w o
  cases o <;> simp [pteOf, page_of_fixed h]

theorem Walks.congr (h : Walks m own wr p dir skip) (hfixed : m'.mm.fixed = m.mm.fixed)
    (hdir : m'.mem dir = m.mem dir) (htab : ∀ i, own' (.table p i) = own (.table p i))
    (hmem : ∀ i t, own (.table p i) = some t → m'.mem (m.page t) = m.mem (m.page t))
    (huser : ∀ i j, (i, j) ∉ skip → own' (.user p i j) = own (.user p i j))
    (hwr : ∀ i j, (i, j) ∉ skip → wr' (.user p i j) = wr (.user p i j)) : Walks m' own' wr' p dir skip := by
  refine ⟨fun i hi => ?_, fun i t ht j hj hn => ?_⟩
  · rw [entry_congr hdir, htab, pdeOf_of_fixed hfixed]
    exact h.pde i hi
  · rw [htab] at ht
    rw [page_of_fixed hfixed, entry_congr (hmem i t ht), huser i j hn, hwr i j hn, pteOf_of_fixed hfixed]
    exact h.pte i t ht j hj hn

theorem pdeOf_and_pteP (hl : m.mm.Layout) (ht : t < m.mm.pages) : m.pdeOf (some t) &&& pteP ≠ 0 := by
  rw [pdeOf, (paged_page hl ht).or_and_low (by decide)]
  decide

theorem pdeOf_and_pageMask (hl : m.mm.Layout) (ht : t < m.mm.pages) :
    m.pdeOf (some t) &&& pageMask = m.page t :=
  (paged_page hl ht).or_and_pageMask (by decide)

theorem allocPage_eq (h : m.allocPage = some r) :
    ∃ mm', m.mm.allocPages 0 = (mm', some r.2) ∧ r.1 = { m with mm := mm' } := by
  unfold allocPage at h
  cases ha : m.mm.allocPages 0 with
  | mk mm' o =>
    rw [ha] at h
    cases o with
    | none => simp at h
    | some addr =>
      cases some.inj h
      exact ⟨mm', rfl, rfl⟩

/-- The allocator counts what the slots hold, and the slots are well shaped. -/
structure Owned (m : Machine) (own : Slot → Option Nat) : Prop where
  holds : m.mm.Holds own
  shape : Shape own

theorem Owned.layout (h : Owned m own) : m.mm.Layout := h.holds.layout

theorem Owned.paged (h : Owned m own) (hs : own s = some n) : Paged (m.page n) :=
  paged_page h.layout (h.holds.inside s n hs)

theorem Owned.page_ne (h : Owned m own) {u : Slot} {a b : Nat} (hs : own s = some a)
    (hu : own u = some b) (hsu : s.isUser = false) (hne : u ≠ s) : m.page b ≠ m.page a := by
  intro he
  have hab := page_inj h.layout (h.holds.inside u b hu) (h.holds.inside s a hs) he
  exact hne (h.shape.alone s u a hsu hs (hab ▸ hu))

theorem Owned.of_eq (h : Owned m own) (hmm : m'.mm = m.mm) : Owned m' own :=
  ⟨hmm ▸ h.holds, h.shape⟩

theorem Owned.allocPage (h : Owned m own) (ha : m.allocPage = some r) (hs : own s = none)
    (hback : ∀ p i j, s = .user p i j → (∃ t, own (.table p i) = some t) ∧ j < nrPtePerPage)
    (htab : ∀ p i, s = .table p i → i < userPtrsPerPgd) :
    ∃ n, va2pa r.2 = m.page n ∧ r.2 = m.mm.pageAddr n ∧ n < m.mm.pages ∧ (∀ u, own u ≠ some n) ∧
      Owned r.1 (update own s (some n)) ∧ r.1.mm.fixed = m.mm.fixed ∧ r.1.mem = m.mem := by
  obtain ⟨mm', he, hr⟩ := allocPage_eq ha
  obtain ⟨n, haddr, hn, hnew, hholds, hfixed⟩ := h.holds.alloc he hs
  refine ⟨n, ?_, haddr, hn, hnew, ⟨?_, ?_⟩, ?_, ?_⟩
  · rw [haddr, page]
  · rw [hr]
    exact hholds
  · exact h.shape.put hs (fun u hu => absurd hu (hnew u)) hback htab
  · rw [hr]
    exact hfixed
  · rw [hr]

theorem getWord_zero (a : Nat) : getWord (fun _ => 0) a = 0 := by
  have h : (0#8 ++ 0#8 ++ 0#8 ++ 0#8 : BitVec 32) = 0 := by decide
  exact h

theorem entry_fill_zero : (m.fill page fun _ => 0).entry page i = 0 := by
  rw [entry, fill_mem_self, getWord_zero]

/-- Putting a page into a slot changes one directory entry and one table of the process at most. -/
structure TableFor (m m' : Machine) (own own' : Slot → Option Nat) (p d i t : Nat) : Prop where
  owned : Owned m' own'
  fixed : m'.mm.fixed = m.mm.fixed
  table : own' (.table p i) = some t
  old : ∀ a, own (.table p i) = some a → a = t
  slots : ∀ s, s ≠ .table p i → own' s = own s
  mem : ∀ q, q ≠ m.page d → q ≠ m.page t → m'.mem q = m.mem q

theorem Walks.tableOf (hw : Walks m own wr p (va2pa pgDir) skip) (h : Owned m own)
    (hd : own (.dir p) = some d) (hpg : va2pa pgDir = m.page d) (hi : i < userPtrsPerPgd)
    (hr : m.tableOf pgDir i = some r) : ∃ own' t, r.2 = m.page t ∧ TableFor m r.1 own own' p d i t ∧
      Walks r.1 own' wr p (va2pa pgDir) skip := by
  unfold Machine.tableOf at hr
  rw [hw.pde i hi] at hr
  cases ht : own (.table p i) with
  | some t =>
    have hlt := h.holds.inside _ _ ht
    simp only [ht, if_pos (pdeOf_and_pteP h.layout hlt), pdeOf_and_pageMask h.layout hlt] at hr
    cases some.inj hr
    exact ⟨own, t, rfl, ⟨h, rfl, ht, fun a ha => some.inj (ha.symm.trans ht),
      fun _ _ => rfl, fun _ _ _ => rfl⟩, hw⟩
  | none =>
    simp only [ht, pdeOf, show ¬((0 : Word) &&& pteP ≠ 0) by decide, if_false] at hr
    cases ha : m.allocPage with
    | none => simp [ha] at hr
    | some a =>
      obtain ⟨m1, addr⟩ := a
      obtain ⟨t, hpa, _, hlt, hnew, howned, hfixed, hmem⟩ := h.allocPage ha ht (by simp)
        (by rintro p' i' ⟨⟩; exact hi)
      generalize hown : update own (.table p i) (some t) = own' at howned
      have htab : own' (.table p i) = some t := by rw [← hown, update_self]
      have hslots : ∀ s, s ≠ .table p i → own' s = own s := fun s hs => by
        rw [← hown, update_of_ne hs]
      have hne : m.page t ≠ m.page d := by
        rw [← page_of_fixed hfixed]
        exact (howned.page_ne htab ((hslots _ (by simp)).trans hd) rfl (by simp)).symm
      simp only [ha, hpa, hpg, Option.some.injEq] at hr
      subst hr
      have hfix : ((m1.fill (m.page t) fun _ => 0).setEntry (m.page d) i
          (m.page t ||| pteP ||| pteW ||| 0x04)).mm.fixed = m.mm.fixed := hfixed
      have hframe : ∀ q, q ≠ m.page d → q ≠ m.page t →
          ((m1.fill (m.page t) fun _ => 0).setEntry (m.page d) i
            (m.page t ||| pteP ||| pteW ||| 0x04)).mem q = m.mem q := by
        intro q hqd hqt
        rw [setEntry_mem_of_ne hqd, fill_mem_of_ne _ hqt, hmem]
      refine ⟨own', t, rfl, ⟨howned.of_eq rfl, hfixed, htab, by simp [ht], hslots, hframe⟩, ?_, ?_⟩
      · intro k hk
        dsimp only
        rw [hpg, pdeOf_of_fixed hfix]
        by_cases hki : k = i
        · subst k
          rw [entry_setEntry_self, htab, pdeOf, BitVec.or_assoc, BitVec.or_assoc]
          rfl
        · rw [entry_setEntry_ne hki, entry_congr (m := m) ((fill_mem_of_ne _ hne.symm).trans (by rw [hmem])),
            hslots _ (by simpa using hki), ← hpg, hw.pde k hk]
      · intro k u hu j hj hn
        dsimp only
        rw [page_of_fixed hfix, pteOf_of_fixed hfix, hslots _ (by simp)]
        by_cases hki : k = i
        · subst k
          obtain rfl : t = u := some.inj (htab.symm.trans hu)
          have hnone : own (.user p i j) = none := by
            cases huser : own (.user p i j) with
            | none => rfl
            | some n =>
              obtain ⟨b, hb⟩ := h.shape.backed p i j n huser
              simp [ht] at hb
          rw [entry_setEntry_of_ne hne, entry_fill_zero, hnone, pteOf]
        · rw [hslots _ (by simpa using hki)] at hu
          have hud : m.page u ≠ m.page d := h.page_ne hd hu rfl (by simp)
          have hut : m.page u ≠ m.page t := by
            intro he
            have := page_inj h.layout (h.holds.inside _ _ hu) hlt he
            exact hnew _ (this ▸ hu)
          rw [entry_congr (hframe _ hud hut), hw.pte k u hu j hj hn]

theorem Owned.spare_to_user (h : Owned m own) (hn : own .spare = some n)
    (hu : own (.user p i j) = none) (ht : own (.table p i) = some t) (hj : j < nrPtePerPage) :
    Owned m (update (update own .spare none) (.user p i j) (some n)) := by
  refine ⟨h.holds.move hn hu, (h.shape.drop (by simp)).put ?_ ?_ ?_ (by simp)⟩
  · rw [update_of_ne (by simp), hu]
  · intro u hun
    by_cases hus : u = .spare
    · subst u
      simp at hun
    · rw [update_of_ne hus] at hun
      exact absurd (h.shape.alone .spare u n rfl hn hun) hus
  · rintro p' i' j' ⟨⟩
    exact ⟨⟨t, by rw [update_of_ne (by simp), ht]⟩, hj⟩

structure MapsPage (m m' : Machine) (own own' : Slot → Option Nat) (p d i j n t : Nat) : Prop where
  owned : Owned m' own'
  fixed : m'.mm.fixed = m.mm.fixed
  table : own' (.table p i) = some t
  old : ∀ a, own (.table p i) = some a → a = t
  user : own' (.user p i j) = some n
  spare : own' .spare = none
  slots : ∀ s, s ≠ .table p i → s ≠ .user p i j → s ≠ .spare → own' s = own s
  mem : ∀ q, q ≠ m.page d → q ≠ m.page t → m'.mem q = m.mem q

theorem Walks.mapPage (hw : Walks m own wr p (va2pa pgDir) {(pdIndex va, ptIndex va)})
    (h : Owned m own) (hd : own (.dir p) = some d) (hpg : va2pa pgDir = m.page d)
    (hva : va < kernelBase) (hn : own .spare = some n) (hu : own (.user p (pdIndex va) (ptIndex va)) = none)
    (hr : m.mapPages pgDir va (m.page n) pageSize (pteW ||| pteU) = some m') :
    ∃ own' t, MapsPage m m' own own' p d (pdIndex va) (ptIndex va) n t ∧
      Walks m' own' (update wr (.user p (pdIndex va) (ptIndex va)) true) p (va2pa pgDir) ∅ ∧
      ∃ m1, m.tableOf pgDir (pdIndex va) = some (m1, m.page t) := by
  rw [mapPages_page hva] at hr
  obtain ⟨r, htab, hm'⟩ := map_eq_some_iff.mp hr
  obtain ⟨own1, t, hrt, htf, hw1⟩ := hw.tableOf h hd hpg (pdIndex_lt hva) htab
  have hpaged : m.page n &&& pageMask = m.page n := h.paged hn
  generalize pdIndex va = i at *
  have hjlt := ptIndex_lt va
  generalize ptIndex va = j at *
  rw [hrt, hpaged] at hm'
  have hn1 : own1 .spare = some n := by rw [htf.slots _ (by simp), hn]
  have hu1 : own1 (.user p i j) = none := by rw [htf.slots _ (by simp), hu]
  have hown := htf.owned.spare_to_user hn1 hu1 htf.table hjlt
  generalize hdef : update (update own1 .spare none) (.user p i j) (some n) = own'
    at hown
  have htab' : ∀ k, own' (.table p k) = own1 (.table p k) := fun k => by
    rw [← hdef, update_of_ne (by simp), update_of_ne (by simp)]
  have huser' : ∀ q a b, Slot.user q a b ≠ .user p i j → own' (.user q a b) = own1 (.user q a b) :=
    fun q a b hne => by rw [← hdef, update_of_ne hne, update_of_ne (by simp)]
  have huself : own' (.user p i j) = some n := by rw [← hdef, update_self]
  have hfix : m'.mm.fixed = m.mm.fixed := by
    rw [← hm']
    exact htf.fixed
  have hdt : m.page d ≠ m.page t := by
    rw [← page_of_fixed htf.fixed]
    exact htf.owned.page_ne htf.table ((htf.slots _ (by simp)).trans hd) rfl (by simp)
  refine ⟨own', t, ⟨hown.of_eq (by rw [← hm']; rfl), hfix, (htab' i).trans htf.table, htf.old, huself,
    ?_, ?_, ?_⟩, ⟨?_, ?_⟩, r.1, by rw [← hrt, htab]⟩
  · rw [← hdef, update_of_ne (by simp), update_self]
  · intro s h1 h2 h3
    rw [← hdef, update_of_ne h2, update_of_ne h3, htf.slots s h1]
  · intro q hqd hqt
    rw [← hm', setEntry_mem_of_ne hqt, htf.mem q hqd hqt]
  · intro k hk
    rw [pdeOf_of_fixed hfix, htab', ← hm', hpg, entry_setEntry_of_ne hdt, ← hpg, hw1.pde k hk,
      pdeOf_of_fixed htf.fixed]
  · intro k u hku b hb _
    rw [htab'] at hku
    rw [page_of_fixed hfix, pteOf_of_fixed hfix, ← hm']
    by_cases hkb : k = i ∧ b = j
    · obtain ⟨rfl, rfl⟩ := hkb
      obtain rfl : t = u := Option.some.inj (htf.table.symm.trans hku)
      rw [entry_setEntry_self, huself, update_self, pteOf, BitVec.or_assoc]
      rfl
    · have hne : Slot.user p k b ≠ .user p i j := by
        simp only [ne_eq, Slot.user.injEq, true_and]
        exact hkb
      have hold := hw1.pte k u hku b hb (by simpa using hkb)
      rw [page_of_fixed htf.fixed, pteOf_of_fixed htf.fixed] at hold
      rw [huser' _ _ _ hne, update_of_ne hne]
      by_cases hki : k = i
      · subst k
        obtain rfl : t = u := some.inj (htf.table.symm.trans hku)
        rw [entry_setEntry_ne (by tauto), hold]
      · have hut : m.page u ≠ m.page t := by
          rw [← page_of_fixed htf.fixed]
          exact htf.owned.page_ne htf.table hku rfl (by simpa using hki)
        rw [entry_setEntry_of_ne hut, hold]

end Machine

end BabyOS
