import BabyOS.VmSteps

open Option

namespace BabyOS

namespace Machine

structure Apart (D : Set Word) (m : Machine) (pgDir : Word) : Prop where
  dir : va2pa pgDir ∉ D
  tables : ∀ k < userPtrsPerPgd, m.entry (va2pa pgDir) k &&& pteP ≠ 0 →
    m.entry (va2pa pgDir) k &&& pageMask ∉ D

section

variable {D D' : Set Word} {m m' m1 : Machine} {pgDir va page : Word} {own : Slot → Option Nat}
  {wr : Slot → Bool} {p : Nat}

theorem Apart.congr (h : Apart D m pgDir) (hmem : m'.mem = m.mem) : Apart D m' pgDir := by
  refine ⟨h.dir, fun k hk => ?_⟩
  rw [entry_congr (m := m) (by rw [hmem])]
  exact h.tables k hk

theorem Walks.apart (hw : Walks m own wr p (va2pa pgDir) ∅) (h : Owned m own) (hdir : va2pa pgDir ∉ D)
    (htab : ∀ k t, own (.table p k) = some t → m.page t ∉ D) : Apart D m pgDir := by
  refine ⟨hdir, fun k hk hpres => ?_⟩
  rw [hw.pde k hk] at hpres ⊢
  cases ht : own (.table p k) with
  | none => simp [ht, pdeOf] at hpres
  | some t =>
    rw [pdeOf_and_pageMask h.layout (h.holds.inside _ _ ht)]
    exact htab k t ht

section

variable (h : Alike D m m')
include h

theorem Alike.mono (hD : D ⊆ D') : Alike D' m m' :=
  ⟨h.mm, fun q hq => h.mem q fun hd => hq (hD hd)⟩

theorem Alike.fill_any (hp : page ∈ D) (bytes bytes' : Nat → Byte) :
    Alike D (m.fill page bytes) (m'.fill page bytes') := by
  refine ⟨h.mm, fun q hq => ?_⟩
  have hqp : q ≠ page := fun he => hq (he ▸ hp)
  rw [fill_mem_of_ne _ hqp, fill_mem_of_ne _ hqp]
  exact h.mem q hq

end

variable {r : Machine × Word} {addr pa perm q : Word} {k fuel : Nat}

theorem Alike.freePage (h : Alike D m m') (hf : m.freePage addr = some m1) :
    ∃ m1', m'.freePage addr = some m1' ∧ Alike D m1 m1' ∧ m1.mem = m.mem := by
  obtain ⟨mm', he, rfl⟩ := map_eq_some_iff.mp hf
  exact ⟨{ m' with mm := mm' }, by rw [Machine.freePage, h.mm, he]; rfl, ⟨rfl, h.mem⟩, rfl⟩

theorem pdIndex_lt_of_user (hva : ¬va ≥ kernelBase) : pdIndex va < userPtrsPerPgd :=
  pdIndex_lt (by rwa [ge_iff_le, BitVec.not_le] at hva)

section

variable (h : Alike D m m') (ha : Apart D m pgDir)
include h ha

theorem Alike.va2paOf (va : Word) : m'.va2paOf pgDir va = m.va2paOf pgDir va := by
  unfold Machine.va2paOf
  split
  next => rfl
  next hva =>
    rw [h.entry ha.dir]
    dsimp only
    split
    next => rfl
    next hpres => rw [h.entry (ha.tables _ (pdIndex_lt_of_user hva) hpres)]

theorem Alike.translate (va : Word) (write : Bool) : m'.translate pgDir va write = m.translate pgDir va write := by
  unfold Machine.translate
  split
  next => rfl
  next hva =>
    rw [h.entry ha.dir]
    dsimp only
    split
    next => rfl
    next hpres =>
      rw [h.entry (ha.tables _ (pdIndex_lt_of_user hva) fun h0 => hpres (Or.inl h0))]

theorem Alike.present (hva : va < kernelBase) : Sys.present m' pgDir va = Sys.present m pgDir va := by
  unfold Sys.present
  rw [h.entry ha.dir]
  dsimp only
  by_cases hpres : m.entry (va2pa pgDir) (pdIndex va) &&& pteP = 0
  · simp [hpres]
  · rw [h.entry (ha.tables _ (pdIndex_lt hva) hpres)]

theorem Alike.makePteWrite (va : Word) : Alike D (m.makePteWrite pgDir va) (m'.makePteWrite pgDir va) := by
  unfold Machine.makePteWrite
  split
  next => exact h
  next hva =>
    rw [h.entry ha.dir]
    dsimp only
    split
    next => exact h
    next hpres =>
      rw [h.entry (ha.tables _ (pdIndex_lt_of_user hva) hpres)]
      split
      next => exact h
      next => exact h.setEntry _ _ _

end

theorem Alike.tableOf (h : Alike D m m') (hdir : va2pa pgDir ∉ D)
    (htab : m.entry (va2pa pgDir) k &&& pteP ≠ 0 → m.entry (va2pa pgDir) k &&& pageMask ∉ D)
    (hr : m.tableOf pgDir k = some r) : ∃ m1', m'.tableOf pgDir k = some (m1', r.2) ∧ Alike (D \ {r.2}) r.1 m1' := by
  unfold Machine.tableOf at hr ⊢
  rw [h.entry hdir]
  dsimp only at hr ⊢
  split at hr
  next hpres =>
    cases some.inj hr
    rw [if_pos hpres]
    refine ⟨m', rfl, h.mono fun q hq => ⟨hq, fun he => htab hpres ?_⟩⟩
    rwa [Set.mem_singleton_iff.mp he] at hq
  next hpres =>
    rw [if_neg hpres]
    cases ha : m.allocPage with
    | none => simp [ha] at hr
    | some a =>
      obtain ⟨m2, ha', h2⟩ := h.allocPage ha
      rw [ha] at hr
      cases some.inj hr
      rw [ha']
      exact ⟨_, rfl, (h2.fill _ _).setEntry _ _ _⟩

theorem Alike.mapPage (h : Alike D m m') (hdir : va2pa pgDir ∉ D)
    (htab : m.entry (va2pa pgDir) (pdIndex va) &&& pteP ≠ 0 →
      m.entry (va2pa pgDir) (pdIndex va) &&& pageMask ∉ D) (hva : va < kernelBase) {table : Word} {m2 : Machine}
    (ht : m.tableOf pgDir (pdIndex va) = some (m2, table)) (hm : m.mapPages pgDir va pa pageSize perm = some m1) :
    ∃ m1', m'.mapPages pgDir va pa pageSize perm = some m1' ∧ Alike (D \ {table}) m1 m1' := by
  rw [mapPages_page hva, ht] at hm
  cases some.inj hm
  obtain ⟨m2', ht', h2⟩ := h.tableOf hdir htab ht
  refine ⟨_, ?_, h2.setEntry _ _ _⟩
  rw [mapPages_page hva, ht']
  rfl

theorem fill_comm (hq : q ≠ page) (a b : Nat → Byte) : (m.fill q a).fill page b = (m.fill page b).fill q a := by
  rw [Machine.fill, Machine.fill, Machine.fill, Machine.fill]
  exact congrArg _ (Function.update_comm (Ne.symm hq) _ _ _).symm

theorem setEntry_fill (hq : q ≠ page) (i : Nat) (w : Word) (c : Nat → Byte) :
    (m.fill q c).setEntry page i w = (m.setEntry page i w).fill q c := by
  rw [Machine.setEntry, fill_mem_of_ne _ (Ne.symm hq), fill_comm hq]
  rfl

theorem tableOf_fill (hdir : q ≠ va2pa pgDir) (c : Nat → Byte) (htab : ∀ r, m.tableOf pgDir k = some r → q ≠ r.2) :
    (m.fill q c).tableOf pgDir k = (m.tableOf pgDir k).map fun r => (r.1.fill q c, r.2) := by
  unfold Machine.tableOf at htab ⊢
  rw [entry_congr (m := m) (fill_mem_of_ne c (Ne.symm hdir))]
  dsimp only at htab ⊢
  split
  next => rfl
  next hpres =>
    simp only [if_neg hpres] at htab
    cases ha : m.allocPage with
    | none =>
      have hno : (m.fill q c).allocPage = none := by
        unfold Machine.allocPage at ha ⊢
        rw [fill_mm]
        split at ha
        next => simp at ha
        next => rfl
      rw [hno]
      rfl
    | some a =>
      obtain ⟨mm', he, hr⟩ := allocPage_eq ha
      have hsome : (m.fill q c).allocPage = some (a.1.fill q c, a.2) := by
        rw [Machine.allocPage, fill_mm, he, hr]
        rfl
      rw [ha] at htab
      rw [hsome]
      dsimp only
      rw [fill_comm (htab _ rfl), setEntry_fill hdir]
      rfl

theorem mapPages_fill (hva : va < kernelBase) (hdir : q ≠ va2pa pgDir)
    (htab : ∀ r, m.tableOf pgDir (pdIndex va) = some r → q ≠ r.2) (c : Nat → Byte) :
    (m.fill q c).mapPages pgDir va pa pageSize perm =
      (m.mapPages pgDir va pa pageSize perm).map fun m => m.fill q c := by
  rw [mapPages_page hva, mapPages_page hva, tableOf_fill hdir c htab]
  cases ht : m.tableOf pgDir (pdIndex va) with
  | none => rfl
  | some r =>
    simp only [map_some]
    rw [setEntry_fill (htab r ht)]

section

variable (h : Alike D m m')
include h

theorem Alike.freePageLoop (ha : Apart D m pgDir) {stop : Word} (hr : m.freePageLoop pgDir stop fuel addr = some m1) :
    ∃ m1', m'.freePageLoop pgDir stop fuel addr = some m1' ∧ Alike D m1 m1' ∧ m1.mem = m.mem := by
  induction fuel generalizing m m' addr with
  | zero =>
    cases some.inj hr
    exact ⟨m', rfl, h, rfl⟩
  | succ fuel ih =>
    rw [Machine.freePageLoop] at hr ⊢
    rw [h.va2paOf ha]
    dsimp only at hr ⊢
    split at hr
    next hlt =>
      rw [if_pos hlt]
      split at hr
      next hpa =>
        rw [if_pos hpa]
        cases hf : m.freePage (pa2va (m.va2paOf pgDir addr)) with
        | none => simp [hf] at hr
        | some m2 =>
          obtain ⟨m2', hf', h2, hmem⟩ := h.freePage hf
          rw [hf] at hr
          rw [hf']
          obtain ⟨m3', hr', h3, hmem3⟩ := ih h2 (ha.congr hmem) hr
          exact ⟨m3', hr', h3, hmem3.trans hmem⟩
      next hpa =>
        rw [if_neg hpa]
        exact ih h ha hr
    next hlt =>
      rw [if_neg hlt]
      cases some.inj hr
      exact ⟨m', rfl, h, rfl⟩

theorem Alike.releaseAreas (ha : Apart D m pgDir) {areas : List VmArea} (hr : m.releaseAreas pgDir areas = some m1) :
    ∃ m1', m'.releaseAreas pgDir areas = some m1' ∧ Alike D m1 m1' ∧ m1.mem = m.mem := by
  induction areas generalizing m m' with
  | nil =>
    cases some.inj hr
    exact ⟨m', rfl, h, rfl⟩
  | cons a rest ih =>
    rw [Machine.releaseAreas] at hr ⊢
    obtain ⟨m2, hf, hr⟩ := bind_eq_some_iff.mp hr
    obtain ⟨m2', hf', h2, hmem⟩ := h.freePageLoop ha hf
    obtain ⟨m3', hr', h3, hmem3⟩ := ih h2 (ha.congr hmem) hr
    exact ⟨m3', bind_eq_some_iff.mpr ⟨m2', hf', hr'⟩, h3, hmem3.trans hmem⟩

theorem Alike.freeTables (hdir : va2pa pgDir ∉ D) {i : Nat}
    (hr : m.freeTables pgDir fuel i = some m1) : ∃ m1', m'.freeTables pgDir fuel i = some m1' ∧ Alike D m1 m1' := by
  induction fuel generalizing m m' i with
  | zero =>
    cases some.inj hr
    exact ⟨m', rfl, h⟩
  | succ fuel ih =>
    rw [Machine.freeTables] at hr ⊢
    rw [h.entry hdir]
    split at hr
    next hpres =>
      rw [if_pos hpres]
      exact ih h hr
    next hpres =>
      rw [if_neg hpres]
      cases hf : m.freePage (pa2va (m.entry (va2pa pgDir) i &&& pageMask)) with
      | none => simp [hf] at hr
      | some m2 =>
        obtain ⟨m2', hf', h2, -⟩ := h.freePage hf
        rw [hf] at hr
        rw [hf']
        exact ih (h2.setEntry _ _ _) hr

theorem Alike.release {vmm : Vmm} (ha : Apart D m vmm.pgDir) {r : Machine × Vmm}
    (hr : m.release vmm = some r) : ∃ m1', m'.release vmm = some (m1', r.2) ∧ Alike D r.1 m1' := by
  obtain ⟨m2, hareas, hr⟩ := bind_eq_some_iff.mp hr
  obtain ⟨m3, htab, rfl⟩ := map_eq_some_iff.mp hr
  obtain ⟨m2', hareas', h2, -⟩ := h.releaseAreas ha hareas
  obtain ⟨m3', htab', h3⟩ := h2.freeTables ha.dir htab
  refine ⟨m3', ?_, h3⟩
  rw [Machine.release, hareas', bind_some, Machine.freePageTable, htab']
  rfl

end

end

end Machine

end BabyOS
