import BabyOS.PageUse

open Function

namespace BabyOS

def vpage (i j : Nat) : Nat := 4096 * (1024 * i + j)

abbrev PageIn (areas : List VmArea) (va : Word) : Prop := InAreas areas (vpage (pdIndex va) (ptIndex va))

theorem vpage_index {va : Word} (h : 4096 ∣ va.toNat) : vpage (pdIndex va) (ptIndex va) = va.toNat := by
  rw [vpage, pdIndex_eq, ptIndex_eq]
  omega

theorem vpage_inj {i j k l : Nat} (hj : j < nrPtePerPage) (hl : l < nrPtePerPage)
    (h : vpage i j = vpage k l) : i = k ∧ j = l := by
  unfold vpage at h
  unfold nrPtePerPage at hj hl
  omega

namespace Machine

variable {m m' m0 : Machine} {own own0 : Slot → Option Nat} {wr : Slot → Bool} {p n d : Nat} {pgDir : Word}

theorem va2paOf_congr (h : m'.mem = m.mem) (va : Word) : m'.va2paOf pgDir va = m.va2paOf pgDir va := by
  have hentry : ∀ q i, m'.entry q i = m.entry q i := fun q i => by rw [entry, entry, h]
  unfold va2paOf
  simp only [hentry]

theorem Owned.freePage (h : Owned m own) {s : Slot} (hs : own s = some n)
    (htab : ∀ q i, s = .table q i → ∀ j, own (.user q i j) = none) :
    ∃ m', m.freePage (m.mm.pageAddr n) = some m' ∧ Owned m' (update own s none) ∧
      m'.mem = m.mem ∧ m'.mm.fixed = m.mm.fixed := by
  obtain ⟨mm', he, hholds, hfixed⟩ := h.holds.free hs (h.shape.count_lt h.holds n)
  refine ⟨{ m with mm := mm' }, ?_, ⟨hholds, h.shape.drop htab⟩, rfl, hfixed⟩
  rw [Machine.freePage, he, Option.map_some]

theorem page_ne_minus_one (hl : m.mm.Layout) (hn : n < m.mm.pages) : m.page n ≠ -1 := by
  intro he
  have h := paged_iff.mp (paged_page hl hn)
  rw [he] at h
  exact absurd h (by decide)

/-- The entries of a process at the addresses in `range` are emptied, and the memory is as it was. -/
structure Frees (m m' : Machine) (own own' : Slot → Option Nat) (p : Nat) (range : Set Nat) : Prop where
  owned : Owned m' own'
  mem : m'.mem = m.mem
  fixed : m'.mm.fixed = m.mm.fixed
  keeps : ∀ s, (∀ i j, s = .user p i j → vpage i j ∉ range) → own' s = own s
  empties : ∀ i j, j < nrPtePerPage → vpage i j ∈ range → own' (.user p i j) = none

theorem Frees.trans {m1 m2 : Machine} {own1 own2 : Slot → Option Nat} {r1 r2 : Set Nat}
    (h1 : Frees m m1 own own1 p r1) (h2 : Frees m1 m2 own1 own2 p r2) : Frees m m2 own own2 p (r1 ∪ r2) := by
  refine ⟨h2.owned, h2.mem.trans h1.mem, h2.fixed.trans h1.fixed, fun s hs => ?_, fun i j hj hr => ?_⟩
  · rw [h2.keeps s fun i j he hm => hs i j he (Or.inr hm), h1.keeps s fun i j he hm => hs i j he (Or.inl hm)]
  · by_cases hr2 : vpage i j ∈ r2
    · exact h2.empties i j hj hr2
    · rw [h2.keeps _ (by rintro k l ⟨⟩; exact hr2)]
      exact h1.empties i j hj (hr.resolve_right hr2)

theorem Frees.of_empty (h : Owned m own) {range : Set Nat} (hr : range = ∅) : Frees m m own own p range :=
  ⟨h, rfl, rfl, fun _ _ => rfl, fun i j _ hm => absurd hm (by simp [hr])⟩

section

variable (h0 : Owned m0 own0) (hw : Walks m0 own0 wr p (va2pa pgDir) ∅) (h : Owned m own)
include h0 hw h

section

variable (hmem : m.mem = m0.mem) (hfix : m.mm.fixed = m0.mm.fixed)
include hmem hfix

theorem freePage_at {addr : Word} (ha : 4096 ∣ addr.toNat)
    (hlt : addr < kernelBase) (hown : own (.of p addr) =
      own0 (.of p addr)) : (m.va2paOf pgDir addr = -1 ∧ Frees m m own own p {addr.toNat}) ∨
      (m.va2paOf pgDir addr ≠ -1 ∧ ∃ m' own', m.freePage (pa2va (m.va2paOf pgDir addr)) = some m' ∧
        Frees m m' own own' p {addr.toNat}) := by
  have hentry : ∀ i j, j < nrPtePerPage → vpage i j = addr.toNat →
      i = pdIndex addr ∧ j = ptIndex addr := fun i j hj he =>
    vpage_inj hj (ptIndex_lt addr) (he.trans (vpage_index ha).symm)
  rw [va2paOf_congr hmem, hw.va2paOf h0 hlt, ← hown]
  cases hu : own (.of p addr) with
  | none =>
    refine Or.inl ⟨rfl, h, rfl, rfl, fun _ _ => rfl, fun i j hj hr => ?_⟩
    obtain ⟨rfl, rfl⟩ := hentry i j hj hr
    exact hu
  | some n =>
    have hoff : addr - (addr &&& pageMask) = 0#32 := by rw [paged_iff.mpr ha, BitVec.sub_self]
    simp only [hoff, BitVec.add_zero, ← page_of_fixed hfix, pa2va_page]
    obtain ⟨m', he, howned, hm', hf'⟩ := h.freePage hu (by simp)
    refine Or.inr ⟨page_ne_minus_one h.layout (h.holds.inside _ _ hu), m', _, he, howned, hm', hf',
      fun s hs => ?_, fun i j hj hr => ?_⟩
    · refine update_of_ne ?_ _ _
      rintro rfl
      exact hs _ _ rfl (vpage_index ha)
    · obtain ⟨rfl, rfl⟩ := hentry i j hj hr
      exact update_self _ _ _

theorem freePageLoop_spec {fuel : Nat}
    {addr stop : Word} (ha : 4096 ∣ addr.toNat) (hstop : stop.toNat ≤ kernelBase.toNat)
    (hfuel : stop.toNat ≤ addr.toNat + 4096 * fuel) (hown : ∀ i j, addr.toNat ≤ vpage i j → vpage i j < stop.toNat →
      own (.user p i j) = own0 (.user p i j)) : ∃ m' own', m.freePageLoop pgDir stop fuel addr = some m' ∧
      Frees m m' own own' p {x | addr.toNat ≤ x ∧ x < stop.toNat ∧ 4096 ∣ x} := by
  have hk := toNat_kernelBase
  have hsize : pageSize.toNat = 4096 := by decide
  induction fuel generalizing m own addr with
  | zero =>
    refine ⟨m, own, rfl, Frees.of_empty h (Set.eq_empty_of_forall_notMem fun x hx => ?_)⟩
    have := hx.1
    have := hx.2.1
    omega
  | succ fuel ih =>
    by_cases hlt : addr < stop
    · have hlt' := hlt
      rw [BitVec.lt_def] at hlt'
      have hnext : (addr + pageSize).toNat = addr.toNat + 4096 := by
        rw [BitVec.toNat_add, hsize]
        omega
      have hrange : {x | addr.toNat ≤ x ∧ x < stop.toNat ∧ 4096 ∣ x} =
          {addr.toNat} ∪ {x | (addr + pageSize).toNat ≤ x ∧ x < stop.toNat ∧ 4096 ∣ x} := by
        ext x
        simp only [Set.mem_ofPred_eq, Set.mem_union, Set.mem_singleton_iff, hnext]
        omega
      have hgo : ∀ {m1 own1}, Frees m m1 own own1 p {addr.toNat} →
          ∃ m' own', m1.freePageLoop pgDir stop fuel (addr + pageSize) = some m' ∧
            Frees m m' own own' p {x | addr.toNat ≤ x ∧ x < stop.toNat ∧ 4096 ∣ x} := by
        intro m1 own1 h1
        obtain ⟨m', own', he, h2⟩ := ih h1.owned (h1.mem.trans hmem) (h1.fixed.trans hfix)
          (show 4096 ∣ (addr + pageSize).toNat by omega) (by omega) (fun i j hl hu => by
            rw [h1.keeps _ (by rintro k l ⟨⟩; simp only [Set.mem_singleton_iff]; omega)]
            exact hown i j (by omega) hu)
        exact ⟨m', own', he, hrange ▸ h1.trans h2⟩
      rw [freePageLoop, if_pos hlt]
      rcases freePage_at h0 hw h hmem hfix ha (by rw [BitVec.lt_def]; omega)
        (hown _ _ (by rw [vpage_index ha]) (by rw [vpage_index ha]; exact hlt')) with
        ⟨hpa, hfree⟩ | ⟨hpa, m1, own1, he, hfree⟩
      · simp only [hpa, ne_eq, not_true_eq_false, if_false]
        exact hgo hfree
      · simp only [if_pos hpa, he]
        exact hgo hfree
    · rw [freePageLoop, if_neg hlt]
      rw [BitVec.lt_def] at hlt
      refine ⟨m, own, rfl, Frees.of_empty h (Set.eq_empty_of_forall_notMem fun x hx => ?_)⟩
      have := hx.1
      have := hx.2.1
      omega

theorem freePageRange_spec {start stop : Word} (ha : 4096 ∣ start.toNat) (hstop : stop.toNat ≤ kernelBase.toNat)
    (hown : ∀ i j, start.toNat ≤ vpage i j → vpage i j < stop.toNat →
      own (.user p i j) = own0 (.user p i j)) : ∃ m' own', m.freePageRange pgDir start stop = some m' ∧
      Frees m m' own own' p {x | start.toNat ≤ x ∧ x < stop.toNat ∧ 4096 ∣ x} := by
  unfold freePageRange
  rw [show start &&& pageMask = start from paged_iff.mpr ha]
  exact freePageLoop_spec h0 hw h hmem hfix ha hstop (by omega) hown

theorem releaseAreas_spec {areas : List VmArea}
    (ha : AreasOk areas) (hown : ∀ i j, InAreas areas (vpage i j) →
      own (.user p i j) = own0 (.user p i j)) : ∃ m' own', m.releaseAreas pgDir areas = some m' ∧
      Frees m m' own own' p {x | InAreas areas x ∧ 4096 ∣ x} := by
  induction areas generalizing m own with
  | nil =>
    refine ⟨m, own, rfl, Frees.of_empty h (Set.eq_empty_of_forall_notMem fun x hx => ?_)⟩
    obtain ⟨a, hm, -⟩ := hx.1
    simp at hm
  | cons a rest ih =>
    obtain ⟨hne, hpair⟩ := ha.spans
    obtain ⟨hbefore, hrest⟩ := List.pairwise_cons.mp hpair
    have hau := ha.inUser a (by simp)
    obtain ⟨m1, own1, he1, h1⟩ := freePageRange_spec h0 hw h hmem hfix hau.start_dvd hau.user
      (fun i j hl hu => hown i j (covered_cons.mpr (Or.inl ⟨hl, hu⟩)))
    obtain ⟨m', own', he2, h2⟩ := ih h1.owned (h1.mem.trans hmem) (h1.fixed.trans hfix)
      ⟨⟨fun b hb => hne b (by simp [hb]), hrest⟩, fun b hb => ha.inUser b (by simp [hb])⟩
      (fun i j hc => by
        rw [h1.keeps _ ?_]
        · exact hown i j (covered_cons.mpr (Or.inr hc))
        · rintro k l ⟨⟩ ⟨-, hlt, -⟩
          obtain ⟨b, hb, hlo, -⟩ := hc
          have hab : a.stop.toNat ≤ b.lo := hbefore b hb
          omega)
    refine ⟨m', own', by rw [releaseAreas, he1, Option.bind_some, he2], ?_⟩
    have hrange : {x | InAreas (a :: rest) x ∧ 4096 ∣ x} =
        {x | a.start.toNat ≤ x ∧ x < a.stop.toNat ∧ 4096 ∣ x} ∪
          {x | InAreas rest x ∧ 4096 ∣ x} := by
      ext x
      simp only [Set.mem_ofPred_eq, Set.mem_union, covered_cons, VmArea.lo, VmArea.hi]
      tauto
    exact hrange ▸ h1.trans h2

end

end

theorem freeTables_spec (h : Owned m own) (hd : own (.dir p) = some d)
    (hpg : va2pa pgDir = m.page d) (hnone : ∀ i j, own (.user p i j) = none) {fuel i : Nat}
    (hf : i + fuel = userPtrsPerPgd) (hlow : ∀ k < i, m.entry (m.page d) k = 0 ∧ own (.table p k) = none)
    (hhigh : ∀ k, i ≤ k → k < userPtrsPerPgd → m.entry (m.page d) k = m.pdeOf (own (.table p k))) :
    ∃ m' own', m.freeTables pgDir fuel i = some m' ∧ Owned m' own' ∧ m'.mm.fixed = m.mm.fixed ∧
      (∀ q, q ≠ m.page d → m'.mem q = m.mem q) ∧ (∀ k < userPtrsPerPgd, m'.entry (m.page d) k = 0) ∧
      (∀ k, own' (.table p k) = none) ∧ ∀ s, (∀ k, s ≠ .table p k) → own' s = own s := by
  induction fuel generalizing m own i with
  | zero =>
    refine ⟨m, own, rfl, h, rfl, fun _ _ => rfl, fun k hk => (hlow k (by omega)).1, fun k => ?_,
      fun _ _ => rfl⟩
    cases ht : own (.table p k) with
    | none => rfl
    | some t =>
      have hk := h.shape.table_lt p k t ht
      exact ht.symm.trans (hlow k (by omega)).2
  | succ fuel ih =>
    rw [freeTables, hpg, hhigh i le_rfl (by omega)]
    cases ht : own (.table p i) with
    | none =>
      simp only [pdeOf, show (0 : Word) &&& pteP = 0 by decide, if_true]
      refine ih h hd hpg hnone (by omega) (fun k hk => ?_) (fun k hk => hhigh k (by omega))
      by_cases hki : k = i
      · subst k
        exact ⟨by rw [hhigh i le_rfl (by omega), ht]; rfl, ht⟩
      · exact hlow k (by omega)
    | some t =>
      have hlt := h.holds.inside _ _ ht
      obtain ⟨m1, he, howned, hmem, hfix⟩ := h.freePage ht (by
        rintro q a ⟨⟩ j
        exact hnone i j)
      simp only [if_neg (pdeOf_and_pteP h.layout hlt), pdeOf_and_pageMask h.layout hlt, pa2va_page, he]
      have hfix' : (m1.setEntry (m.page d) i 0).mm.fixed = m.mm.fixed := hfix
      have hentry : ∀ k, k ≠ i → (m1.setEntry (m.page d) i 0).entry (m.page d) k =
          m.entry (m.page d) k := fun k hk => by
        rw [entry_setEntry_ne hk, entry_congr (m := m) (by rw [hmem])]
      have hother : ∀ s, s ≠ .table p i → update own (.table p i) none s = own s :=
        fun s hs => update_of_ne hs _ _
      obtain ⟨m', own', h1, h2, h3, h4, h5, h6, h7⟩ := ih
        (show Owned (m1.setEntry (m.page d) i 0) _ from howned.of_eq rfl)
        ((hother _ (by simp)).trans hd) (by rw [hpg, page_of_fixed hfix'])
        (fun a b => (hother _ (by simp)).trans (hnone a b)) (i := i + 1) (by omega)
        (fun k hk => by
          rw [page_of_fixed hfix']
          by_cases hki : k = i
          · subst k
            exact ⟨entry_setEntry_self, update_self _ _ _⟩
          · rw [hentry k hki, hother _ (by simpa using hki)]
            exact hlow k (by omega))
        (fun k hk hk' => by
          rw [page_of_fixed hfix', pdeOf_of_fixed hfix', hentry k (by omega),
            hother _ (by simp only [ne_eq, Slot.table.injEq, true_and]; omega)]
          exact hhigh k (by omega) hk')
      rw [page_of_fixed hfix'] at h4 h5
      refine ⟨m', own', h1, h2, h3.trans hfix', fun q hq => ?_, h5, h6, fun s hs => ?_⟩
      · rw [h4 q hq, setEntry_mem_of_ne hq, hmem]
      · rw [h7 s hs, hother s (hs i)]

theorem release_spec {vmm : Vmm} (h : Owned m own) (hw : Walks m own wr p (va2pa vmm.pgDir) ∅)
    (hd : own (.dir p) = some d) (hpg : va2pa vmm.pgDir = m.page d) (ha : AreasOk vmm.areas)
    (hcov : ∀ i j n, own (.user p i j) = some n → InAreas vmm.areas (vpage i j)) :
    ∃ m' own', m.release vmm = some (m', { vmm with areas := [] }) ∧ Owned m' own' ∧
      m'.mm.fixed = m.mm.fixed ∧ (∀ q, q ≠ m.page d → m'.mem q = m.mem q) ∧
      (∀ i j, own' (.user p i j) = none) ∧ (∀ k, own' (.table p k) = none) ∧
      (∀ s, (∀ k, s ≠ .table p k) → (∀ i j, s ≠ .user p i j) → own' s = own s) ∧
      Walks m' own' wr p (va2pa vmm.pgDir) ∅ := by
  obtain ⟨m1, own1, he1, h1⟩ := releaseAreas_spec h hw h rfl rfl ha (fun _ _ _ => rfl)
  have hnone : ∀ i j, own1 (.user p i j) = none := by
    intro i j
    by_cases hj : j < nrPtePerPage
    · by_cases hc : InAreas vmm.areas (vpage i j)
      · exact h1.empties i j hj ⟨hc, Dvd.intro _ rfl⟩
      · rw [h1.keeps _ (by rintro k l ⟨⟩ ⟨hc', -⟩; exact hc hc')]
        cases hu : own (.user p i j) with
        | none => rfl
        | some n => exact absurd (hcov i j n hu) hc
    · cases hu : own1 (.user p i j) with
      | none => rfl
      | some n => exact absurd (h1.owned.shape.user_lt p i j n hu) hj
  have hslots : ∀ s, (∀ i j, s ≠ .user p i j) → own1 s = own s :=
    fun s hs => h1.keeps s fun i j he => absurd he (hs i j)
  obtain ⟨m', own', he2, h2, h3, h4, h5, h6, h7⟩ := freeTables_spec h1.owned
    ((hslots _ (by simp)).trans hd) (show va2pa vmm.pgDir = _ by rw [hpg, page_of_fixed h1.fixed]) hnone (Nat.zero_add _)
    (by simp) (fun k _ hk => by
      rw [page_of_fixed h1.fixed, pdeOf_of_fixed h1.fixed, hslots _ (by simp), ← hpg, ← hw.pde k hk]
      exact entry_congr (by rw [h1.mem]))
  rw [page_of_fixed h1.fixed] at h4 h5
  refine ⟨m', own', ?_, h2, h3.trans h1.fixed, fun q hq => ?_, fun i j => ?_, h6, fun s hs hs' => ?_,
    ⟨fun i hi => ?_, fun i t ht => ?_⟩⟩
  · rw [release, he1, Option.bind_some, freePageTable, he2, Option.map_some]
  · rw [h4 q hq, h1.mem]
  · rw [h7 _ (by simp), hnone]
  · rw [h7 s hs, hslots s hs']
  · rw [hpg, h5 i hi, h6]
    rfl
  · rw [h6] at ht
    simp at ht

end Machine

end BabyOS
