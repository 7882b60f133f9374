import BabyOS.VmForkCopy

open Function List

namespace BabyOS

/-- The `m_vmm` of a process: its first area object and its page directory. -/
structure Space where
  mmap : Option Nat
  pgDir : Word

/-- The machine, the objects of the area pool and the free ones, the address spaces, and the queues for a new
process. -/
structure ForkSys where
  machine : Machine
  heap : Nat → AreaObj
  pool : List Nat
  spaces : Nat → Option Space
  zombies : Nat → Option Word
  kernelPages : Word → Bool
  kernelPgDir : Word
  runQueue : List Nat
  processList : List Nat

/-- The allocations of a fork that are granted: the pages of the process, the page directory, each table, and the
object of each area. -/
structure Grants where
  proc : Bool
  dir : Bool
  table : Nat → Bool
  area : Nat → Bool

namespace Sys

theorem Inv.allocPair {s : Sys} {own : Slot → Option Nat} {wr : Slot → Bool} (h : Inv s own wr) {mm' : Mm} {addr : Word}
    (ha : s.machine.mm.allocPages 1 = (mm', some addr)) :
    ∃ own', Inv { s with
        machine := { s.machine with mm := mm' }
        kernelPages := update (update s.kernelPages addr true) (addr + pageSize) true } own' wr ∧
      (∀ u, (∀ n, u ≠ .kernel n) → own' u = own u) ∧ mm'.fixed = s.machine.mm.fixed ∧
      mm'.freeCount + 2 = s.machine.mm.freeCount := by
  obtain ⟨n, rfl, hlt, h1, h2, hholds, hfixed⟩ := h.owned.holds.allocPair ha (f := Slot.kernel)
    (fun a b hab => Slot.kernel.inj hab) fun _ => h.kernel_none
  have hnext : s.machine.mm.pageAddr n + pageSize = s.machine.mm.pageAddr (n + 1) := by
    rw [BitVec.add_comm]
    exact Mm.pageAddr_add n 1
  rw [hnext]
  obtain ⟨own', hdef⟩ : ∃ own', own' = update (update own (.kernel n) (some n)) (.kernel (n + 1))
    (some (n + 1)) := ⟨_, rfl⟩
  rw [← hdef] at hholds
  have hkeep : ∀ u, u ≠ .kernel n → u ≠ .kernel (n + 1) → own' u = own u := by
    intro u hu hu'
    rw [hdef, update_of_ne hu', update_of_ne hu]
  have hslots : ∀ u, (∀ k, u ≠ .kernel k) → own' u = own u := fun u hu => hkeep u (hu n) (hu (n + 1))
  have hfirst : own' (.kernel n) = some n := by
    rw [hdef, update_of_ne (by simp), update_self]
  have hsecond : own' (.kernel (n + 1)) = some (n + 1) := by
    rw [hdef, update_self]
  have hempty : update own (.kernel n) (some n) (.kernel (n + 1)) = none := by
    rw [update_of_ne (by simp)]
    exact h.kernel_none h2
  have howned : Machine.Owned { s.machine with mm := mm' } own' := by
    have hshape := h.owned.shape.put (h.kernel_none h1) (fun u hu => absurd hu (h1 u)) (by simp) (by simp)
    refine ⟨hholds, ?_⟩
    rw [hdef]
    refine hshape.put hempty (fun u hu => ?_) (by simp) (by simp)
    by_cases hun : u = .kernel n
    · rw [hun, update_self, Option.some.injEq] at hu
      omega
    · rw [update_of_ne hun] at hu
      exact absurd hu (h2 u)
  refine ⟨own', (h.setKernel howned hfixed rfl hslots (fun k a hk => ?_) (fun a hk => ?_)).1, hslots, hfixed, ?_⟩
  · by_cases hk2 : k = n + 1
    · rw [hk2, hsecond, Option.some.injEq] at hk
      rw [hk2]
      exact ⟨hk.symm, update_self _ _ _⟩
    · by_cases hk1 : k = n
      · rw [hk1, hfirst, Option.some.injEq] at hk
        rw [hk1, update_apply, update_self, ite_self]
        exact ⟨hk.symm, rfl⟩
      · rw [hkeep _ (by simpa using hk1) (by simpa using hk2)] at hk
        obtain ⟨h3, h4⟩ := h.kernel k a hk
        refine ⟨h3, ?_⟩
        rw [update_apply, update_apply, h4, ite_self, ite_self]
  · by_cases ha2 : a = s.machine.mm.pageAddr (n + 1)
    · exact ⟨n + 1, ha2, hsecond⟩
    · rw [update_of_ne ha2] at hk
      by_cases ha1 : a = s.machine.mm.pageAddr n
      · exact ⟨n, ha1, hfirst⟩
      · rw [update_of_ne ha1] at hk
        obtain ⟨k, h3, h4⟩ := h.kept a hk
        refine ⟨k, h3, (hkeep _ ?_ ?_).trans h4⟩
        · rintro ⟨⟩
          exact ha1 h3
        · rintro ⟨⟩
          exact ha2 h3
  · rw [← Finset.card_pair (show n ≠ n + 1 by omega)]
    refine h.owned.holds.freeCount_take hholds (Mm.pages_of_fixed hfixed) (fun k hk => ?_) fun k => ?_
    · rcases Finset.mem_insert.mp hk with rfl | hk
      · exact ⟨by omega, h1⟩
      · rw [Finset.mem_singleton.mp hk]
        exact ⟨hlt, h2⟩
    · rw [hdef, held_take hempty, held_take (h.kernel_none h1), Finset.mem_insert, Finset.mem_singleton, or_assoc]

end Sys

namespace ForkSys

def spaceOf (s : ForkSys) (p : Nat) : Option Space :=
  if p = 0 then some ⟨none, s.kernelPgDir⟩ else s.spaces p

/-- The end of `process_t::fork`: the child has the copied address space and is put into the queues. -/
def queueChild (s : ForkSys) (c : Nat) (m : Machine) (v : VmaCopy) (dir : Word) : ForkSys :=
  { s with
    machine := m
    heap := v.heap
    pool := v.pool
    spaces := update s.spaces c (some ⟨v.mmap, dir⟩)
    runQueue := if c ∈ s.runQueue then s.runQueue else c :: s.runQueue
    processList := s.processList ++ [c] }

/-- `process_t::fork` of a process with the address space `this`; `c` is the new process. The result of `vmm_t::copy` is
not looked at. -/
def fork (s : ForkSys) (g : Grants) (this : Space) (c : Nat) : Option Nat × ForkSys :=
  match s.machine.tryPages 1 g.proc with
  | (m, none) => (none, { s with machine := m })
  | (m, some p) =>
    let kept := update (update s.kernelPages p true) (p + pageSize) true
    let t := m.copyPageTableWith this.pgDir g.dir g.table
    let v := if t.2.2 then copyVma g.area s.heap s.pool this.mmap else ⟨s.heap, s.pool, this.mmap, false⟩
    (some c, { s with machine := m, kernelPages := kept }.queueChild c t.1 v t.2.1)

def AreasAre (s : ForkSys) (mmap : Option Nat) (areas : List VmArea) : Prop :=
  ∃ objs, Chain (fun o => (s.heap o).next) mmap objs ∧ objs.map (fun o => (s.heap o).area) = areas

def TablePage (s : ForkSys) (v : Space) (page : Word) : Prop :=
  page = va2pa v.pgDir ∨ ∃ i < userPtrsPerPgd, s.machine.entry (va2pa v.pgDir) i &&& pteP ≠ 0 ∧
    page = s.machine.entry (va2pa v.pgDir) i &&& pageMask

def HasArea (s : ForkSys) (v : Space) (o : Nat) : Prop :=
  ∃ objs, Chain (fun o => (s.heap o).next) v.mmap objs ∧ o ∈ objs

def NoSharing (s : ForkSys) : Prop :=
  ∀ p q v w, p ≠ q → s.spaceOf p = some v → s.spaceOf q = some w →
    (∀ page, s.TablePage v page → ¬s.TablePage w page) ∧ ∀ o, s.HasArea v o → ¬s.HasArea w o

/-- The child has page tables of its own that lead to every page of the parent, both can only read, and its areas are
those of the parent. -/
structure Whole (s : ForkSys) (this : Space) (t : ForkSys) (c : Nat) : Prop where
  child : ∃ v, t.spaces c = some v ∧ v.pgDir ≠ 0 ∧
    (∀ va, t.machine.translate v.pgDir va false = s.machine.translate this.pgDir va false ∧
      t.machine.translate v.pgDir va true = none) ∧
    ∃ areas, s.AreasAre this.mmap areas ∧ t.AreasAre this.mmap areas ∧ t.AreasAre v.mmap areas
  parent : ∀ va, t.machine.translate this.pgDir va false = s.machine.translate this.pgDir va false ∧
    t.machine.translate this.pgDir va true = none

/-- Nothing was queued or counted, and the parent reaches its memory as before. -/
structure Untouched (s : ForkSys) (this : Space) (t : ForkSys) : Prop where
  runQueue : t.runQueue = s.runQueue
  processList : t.processList = s.processList
  refs : t.machine.mm.ref = s.machine.mm.ref
  mem : t.machine.mem = s.machine.mem
  translate : ∀ va write, t.machine.translate this.pgDir va write = s.machine.translate this.pgDir va write

def AllOrNothing (s : ForkSys) (this : Space) (c : Nat) (r : Option Nat × ForkSys) : Prop :=
  ((r.1 = some c ∧ Whole s this r.2 c) ∨ (r.1 = none ∧ Untouched s this r.2)) ∧ r.2.NoSharing

def toSys (s : ForkSys) (objs : Nat → List Nat) : Sys :=
  ⟨s.machine, fun p => (s.spaces p).map fun v => ⟨(objs p).map fun o => (s.heap o).area, v.pgDir⟩, s.zombies,
    s.kernelPages, s.kernelPgDir⟩

/-- The pages are held as the slots say, and each process has area objects of its own, none of which is free. -/
structure Ready (s : ForkSys) (objs : Nat → List Nat) (own : Slot → Option Nat) (wr : Slot → Bool) : Prop where
  inv : (s.toSys objs).Inv own wr
  chain : ∀ p v, s.spaces p = some v → Chain (fun o => (s.heap o).next) v.mmap (objs p)
  apart : ∀ p q v w, p ≠ q → s.spaces p = some v → s.spaces q = some w → (objs p).Disjoint (objs q)
  free : ∀ p v, s.spaces p = some v → (objs p).Disjoint s.pool
  pool : s.pool.Nodup

def Valid (s : ForkSys) : Prop := ∃ objs own wr, s.Ready objs own wr

structure Unused (s : ForkSys) (c : Nat) : Prop where
  idle : c ≠ 0
  spaces : s.spaces c = none
  zombies : s.zombies c = none

/-- The two pages of a process are refused, or there is no free block for them. -/
def Refused (s : ForkSys) (g : Grants) : Prop :=
  g.proc = false ∨ ∀ o, 1 ≤ o → o ≤ maxOrder → s.machine.mm.links.next (.head o) = .head o

def tables (s : ForkSys) (v : Space) : Nat :=
  (List.range userPtrsPerPgd).countP fun i => s.machine.entry (va2pa v.pgDir) i &&& pteP ≠ 0

/-- Everything that a fork asks for is granted, and there are the pages and the objects for it. -/
structure Granted (s : ForkSys) (g : Grants) (this : Space) : Prop where
  proc : g.proc = true
  block : ∃ o, 1 ≤ o ∧ o ≤ maxOrder ∧ s.machine.mm.links.next (.head o) ≠ .head o
  dir : g.dir = true
  table : ∀ i < userPtrsPerPgd, s.machine.entry (va2pa this.pgDir) i &&& pteP ≠ 0 → g.table i = true
  pages : s.tables this + 3 ≤ s.machine.mm.freeCount
  area : ∃ objs, Chain (fun o => (s.heap o).next) this.mmap objs ∧ (∀ k < objs.length, g.area k = true) ∧
    objs.length ≤ s.pool.length

section

variable {s : ForkSys} {objs : Nat → List Nat} {own : Slot → Option Nat} {wr : Slot → Bool} {p : Nat} {v : Space}

theorem spaceOf_cases (h : s.spaceOf p = some v) : (p = 0 ∧ v = ⟨none, s.kernelPgDir⟩) ∨ (p ≠ 0 ∧ s.spaces p = some v) := by
  unfold spaceOf at h
  split at h
  · next hp => exact Or.inl ⟨hp, (Option.some.inj h).symm⟩
  · next hp => exact Or.inr ⟨hp, h⟩

theorem toSys_procs (objs : Nat → List Nat) (hv : s.spaces p = some v) :
    (s.toSys objs).procs p = some ⟨(objs p).map fun o => (s.heap o).area, v.pgDir⟩ := by
  change (s.spaces p).map _ = _
  rw [hv]
  rfl

section

variable (h : s.Ready objs own wr)
include h

theorem Ready.owned : s.machine.Owned own := h.inv.owned

theorem Ready.walks (hv : s.spaces p = some v) :
    s.machine.Walks own wr p (va2pa v.pgDir) ∅ := h.inv.walks p _ (toSys_procs objs hv)

theorem Ready.dir (hv : s.spaces p = some v) :
    ∃ d, own (.dir p) = some d ∧ va2pa v.pgDir = s.machine.page d := h.inv.dir_eq (toSys_procs objs hv)

theorem Ready.tablePage (hv : s.spaceOf p = some v) {page : Word}
    (hpage : s.TablePage v page) : (p = 0 ∧ page = va2pa s.kernelPgDir) ∨
      ∃ u a, own u = some a ∧ page = s.machine.page a ∧ (u = .dir p ∨ ∃ k, u = .table p k) := by
  rcases spaceOf_cases hv with ⟨rfl, rfl⟩ | ⟨hp, hv⟩
  · rcases hpage with hpage | ⟨i, hi, hpres, -⟩
    · exact Or.inl ⟨rfl, hpage⟩
    · rw [show s.machine.entry (va2pa s.kernelPgDir) i = 0 from h.inv.idlePde i hi] at hpres
      exact absurd (by decide) hpres
  · obtain ⟨d, hd, hdir⟩ := h.dir hv
    rcases hpage with hpage | ⟨i, hi, hpres, hpage⟩
    · exact Or.inr ⟨_, d, hd, hpage.trans hdir, Or.inl rfl⟩
    · have hpde := (h.walks hv).pde i hi
      cases ht : own (.table p i) with
      | none =>
        rw [hpde, ht] at hpres
        exact absurd (show (0 : Word) &&& pteP = 0 by decide) hpres
      | some t =>
        rw [hpde, ht, Machine.pdeOf_and_pageMask h.owned.layout (h.owned.holds.inside _ _ ht)] at hpage
        exact Or.inr ⟨_, t, ht, hpage, Or.inr ⟨i, rfl⟩⟩

theorem Ready.hasArea (hv : s.spaceOf p = some v) {o : Nat} (ho : s.HasArea v o) :
    s.spaces p = some v ∧ o ∈ objs p := by
  obtain ⟨os, hchain, ho⟩ := ho
  rcases spaceOf_cases hv with ⟨rfl, rfl⟩ | ⟨hp, hv⟩
  · cases os with
    | nil => cases ho
    | cons x xs => cases hchain.1
  · rw [hchain.unique (h.chain p v hv)] at ho
    exact ⟨hv, ho⟩

theorem Ready.noSharing : s.NoSharing := by
  intro p q v w hpq hv hw
  refine ⟨fun page h1 h2 => ?_, fun o h1 h2 => ?_⟩
  · rcases h.tablePage hv h1 with ⟨hp, rfl⟩ | ⟨u, a, hu, rfl, hcase⟩
    · rcases h.tablePage hw h2 with ⟨hq, -⟩ | ⟨u, a, hu, hpage, -⟩
      · exact hpq (hp.trans hq.symm)
      · exact h.inv.idleDir a (h.owned.holds.inside _ _ hu) hpage.symm
    · rcases h.tablePage hw h2 with ⟨hq, hpage⟩ | ⟨u', a', hu', hpage, hcase'⟩
      · exact h.inv.idleDir a (h.owned.holds.inside _ _ hu) hpage
      · have hne : u' ≠ u := by
          rintro rfl
          rcases hcase with rfl | ⟨k, rfl⟩
          · rcases hcase' with heq | ⟨k, heq⟩
            · cases heq
              exact hpq rfl
            · cases heq
          · rcases hcase' with heq | ⟨k, heq⟩
            · cases heq
            · cases heq
              exact hpq rfl
        refine h.owned.page_ne hu hu' ?_ hne hpage.symm
        rcases hcase with rfl | ⟨k, rfl⟩
        · rfl
        · rfl
  · obtain ⟨hv, ho⟩ := h.hasArea hv h1
    obtain ⟨hw, ho'⟩ := h.hasArea hw h2
    exact h.apart p q v w hpq hv hw ho ho'

end

variable {m m' : Machine} {c : Nat} {pgDir : Word}

theorem entry_of_mem (h : m'.mem = m.mem) (page : Word) (i : Nat) : m'.entry page i = m.entry page i :=
  Machine.entry_congr (congrFun h page)

theorem translate_of_mem (h : m'.mem = m.mem) (pgDir va : Word) (write : Bool) :
    m'.translate pgDir va write = m.translate pgDir va write := by
  unfold Machine.translate
  simp only [entry_of_mem h]

theorem Ready.tryPair (h : s.Ready objs own wr) (g : Grants) :
    (s.Refused g ∧ ∃ m, s.machine.tryPages 1 g.proc = (m, none) ∧ m.mem = s.machine.mem ∧
      m.mm.ref = s.machine.mm.ref) ∨
    ¬s.Refused g ∧ g.proc = true ∧ (∃ o, 1 ≤ o ∧ o ≤ maxOrder ∧ s.machine.mm.links.next (.head o) ≠ .head o) ∧
      ∃ mm' addr own', s.machine.tryPages 1 g.proc = ({ s.machine with mm := mm' }, some addr) ∧
        Ready { s with
          machine := { s.machine with mm := mm' }
          kernelPages := update (update s.kernelPages addr true) (addr + pageSize) true } objs own' wr ∧
        (∀ u, (∀ n, u ≠ .kernel n) → own' u = own u) ∧ mm'.freeCount + 2 = s.machine.mm.freeCount := by
  unfold Machine.tryPages
  cases hg : g.proc with
  | false => exact Or.inl ⟨Or.inl hg, s.machine, rfl, rfl, rfl⟩
  | true =>
    rw [if_pos rfl]
    obtain ⟨b, hok, -⟩ := h.owned.holds.lists
    rcases hok.allocPages (show 1 ≤ maxOrder by decide) with ⟨mm', he, -, -, href, hnil⟩ |
      ⟨b', n, mm', he, -⟩
    · rw [he]
      exact Or.inl ⟨Or.inr fun o h1 h2 => hok.next_nil h2 (hnil o h1), _, rfl, rfl, href⟩
    · have hblock : ∃ o, 1 ≤ o ∧ o ≤ maxOrder ∧ s.machine.mm.links.next (.head o) ≠ .head o := by
        refine Mm.exists_block (by decide) ?_
        rw [he]
        exact Option.some_ne_none _
      obtain ⟨own', hinv, hslots, -, hcount⟩ := h.inv.allocPair he
      rw [he]
      refine Or.inr ⟨?_, rfl, hblock, mm', _, own', rfl, ⟨hinv, h.chain, h.apart, h.free, h.pool⟩, hslots, hcount⟩
      rintro (hf | hf)
      · rw [hg] at hf
        cases hf
      · obtain ⟨o, h1, h2, h3⟩ := hblock
        exact h3 (hf o h1 h2)

structure Parent (s : ForkSys) (objs : Nat → List Nat) (p : Nat) (this : Space) (os : List Nat) : Prop where
  chain : Chain (fun o => (s.heap o).next) this.mmap os
  free : os.Disjoint s.pool
  source : (if p = 0 then some ⟨[], s.kernelPgDir⟩ else (s.toSys objs).procs p) =
    some ⟨os.map fun o => (s.heap o).area, this.pgDir⟩

theorem Ready.parent (h : s.Ready objs own wr) (hv : s.spaceOf p = some v) : ∃ os, Parent s objs p v os := by
  rcases spaceOf_cases hv with ⟨rfl, rfl⟩ | ⟨hp, hv⟩
  · exact ⟨[], rfl, disjoint_nil_left _, if_pos rfl⟩
  · refine ⟨objs p, h.chain p v hv, h.free p v hv, ?_⟩
    rw [if_neg hp]
    exact toSys_procs objs hv

theorem present_iff {dir : Word} {i : Nat} (hw : m.Walks own wr p dir ∅) (ho : m.Owned own)
    (hi : i < userPtrsPerPgd) : m.entry dir i &&& pteP ≠ 0 ↔ own (.table p i) ≠ none := by
  rw [hw.pde i hi]
  cases ht : own (.table p i) with
  | none => exact iff_of_false (fun hf => hf (show (0 : Word) &&& pteP = 0 by decide)) (fun hf => hf rfl)
  | some t =>
    exact iff_of_true (Machine.pdeOf_and_pteP ho.layout (ho.holds.inside _ _ ht)) (Option.some_ne_none t)

theorem tables_eq (hw : s.machine.Walks own wr p (va2pa v.pgDir) ∅) (ho : s.machine.Owned own) :
    s.tables v = (List.range userPtrsPerPgd).countP fun k => (own (.table p k)).isSome := by
  unfold tables
  refine countP_congr fun i hi => ?_
  rw [decide_eq_true_iff, present_iff hw ho (mem_range.mp hi), Option.isSome_iff_ne_none]

theorem Ready.unused (h : s.Ready objs own wr) (hc : s.Unused c) :
    (s.toSys objs).procs c = none ∧ Machine.Unused own c := by
  have hprocs : (s.toSys objs).procs c = none := by
    change (s.spaces c).map _ = none
    rw [hc.spaces]
    rfl
  exact ⟨hprocs, h.inv.unused hprocs hc.zombies⟩

theorem spaceOf_queueChild (hc : c ≠ 0) (m : Machine) (r : VmaCopy) (dir : Word) :
    (s.queueChild c m r dir).spaceOf c = some ⟨r.mmap, dir⟩ ∧
      ∀ q, q ≠ c → (s.queueChild c m r dir).spaceOf q = s.spaceOf q := by
  unfold spaceOf queueChild
  refine ⟨?_, fun q hq => ?_⟩
  · rw [if_neg hc]
    exact update_self _ _ _
  · dsimp only
    rw [update_of_ne hq]

theorem translate_read (hw : m.Walks own wr p (va2pa pgDir) ∅) (ho : m.Owned own) (va : Word) :
    m.translate pgDir va false = if va ≥ kernelBase then none else (own (.of p va)).map m.page := by
  by_cases hva : va ≥ kernelBase
  · rw [if_pos hva, Machine.translate, if_pos hva]
  · rw [if_neg hva, hw.translate ho (BitVec.not_le.mp hva)]
    cases own (.of p va) with
    | none => rfl
    | some n => exact if_neg fun hf => absurd hf.1 Bool.false_ne_true

theorem translate_write (hw : m.Walks own wr p (va2pa pgDir) ∅) (ho : m.Owned own)
    (hwr : ∀ i j, wr (.user p i j) = false) (va : Word) : m.translate pgDir va true = none := by
  by_cases hva : va ≥ kernelBase
  · rw [Machine.translate, if_pos hva]
  · rw [hw.translate ho (BitVec.not_le.mp hva)]
    cases own (.of p va) with
    | none => rfl
    | some n => exact if_pos ⟨rfl, hwr _ _⟩

section

variable {d : Nat} {own' : Slot → Option Nat} {os : List Nat} {grant : Nat → Bool} {r : VmaCopy}
  {this : Space}

theorem Ready.forked (h : s.Ready objs own wr) (hc : s.Unused c) (hne : p ≠ c) (hp : Parent s objs p this os)
    (hf : Machine.Forking s.machine m' own own' wr p c d this.pgDir userPtrsPerPgd)
    (hr : AreasCopied grant s.pool 0 s.heap this.mmap [] os r os.length) :
    Ready (s.queueChild c m' r (s.machine.mm.pageAddr d)) (update objs c (s.pool.take os.length)) own' (Machine.protect wr p c) := by
  obtain ⟨hprocs, -⟩ := h.unused hc
  have hkept : ∀ q w, s.spaces q = some w → ∀ o ∈ objs q, r.heap o = s.heap o := by
    intro q w hq o ho
    exact hr.kept o not_mem_nil fun hm => h.free q w hq ho (mem_of_mem_take hm)
  have hspaces : ∀ q w, update s.spaces c (some ⟨r.mmap, s.machine.mm.pageAddr d⟩) q = some w →
      (q = c ∧ w = ⟨r.mmap, s.machine.mm.pageAddr d⟩) ∨ (q ≠ c ∧ s.spaces q = some w) := by
    intro q w hq
    by_cases hqc : q = c
    · rw [hqc, update_self] at hq
      exact Or.inl ⟨hqc, (Option.some.inj hq).symm⟩
    · rw [update_of_ne hqc] at hq
      exact Or.inr ⟨hqc, hq⟩
  have hpool : (s.queueChild c m' r (s.machine.mm.pageAddr d)).pool = s.pool.drop os.length := hr.rest
  refine ⟨?_, fun q w hq => ?_, fun q q' w w' hqq hq hq' => ?_, fun q w hq => ?_, ?_⟩
  · have hinv := h.inv.forked (h.inv.source hp.source) hne hc.idle hc.zombies hf
    have hsys : (s.queueChild c m' r (s.machine.mm.pageAddr d)).toSys (update objs c (s.pool.take os.length)) =
        (s.toSys objs).setProc c m' ⟨os.map fun o => (s.heap o).area, s.machine.mm.pageAddr d⟩ := by
      unfold toSys Sys.setProc queueChild
      congr 1
      funext q
      dsimp only
      by_cases hqc : q = c
      · rw [hqc, update_self, update_self, update_self, Option.map_some, hr.areas, take_length]
      · rw [update_of_ne hqc, update_of_ne hqc, update_of_ne hqc]
        cases hq : s.spaces q with
        | none => rfl
        | some w =>
          rw [Option.map_some, Option.map_some, map_congr_left fun o ho => congrArg AreaObj.area (hkept q w hq o ho)]
    rw [hsys]
    exact hinv
  · rcases hspaces q w hq with ⟨rfl, rfl⟩ | ⟨hqc, hq⟩
    · rw [update_self]
      exact hr.chain_all hp.chain
    · rw [update_of_ne hqc]
      exact (h.chain q w hq).congr fun o ho => congrArg AreaObj.next (hkept q w hq o ho)
  · rcases hspaces q w hq with ⟨hqc, -⟩ | ⟨hqc, hq⟩
    · rcases hspaces q' w' hq' with ⟨hqc', -⟩ | ⟨hqc', hq'⟩
      · exact absurd (hqc.trans hqc'.symm) hqq
      · rw [hqc, update_self, update_of_ne hqc']
        exact fun o ho ho' => h.free q' w' hq' ho' (mem_of_mem_take ho)
    · rw [update_of_ne hqc]
      rcases hspaces q' w' hq' with ⟨hqc', -⟩ | ⟨hqc', hq'⟩
      · rw [hqc', update_self]
        exact fun o ho ho' => h.free q w hq ho (mem_of_mem_take ho')
      · rw [update_of_ne hqc']
        exact h.apart q q' w w' hqq hq hq'
  · rw [hpool]
    rcases hspaces q w hq with ⟨rfl, -⟩ | ⟨hqc, hq⟩
    · rw [update_self]
      have hsplit := h.pool
      rw [← take_append_drop os.length s.pool] at hsplit
      exact disjoint_of_nodup_append hsplit
    · rw [update_of_ne hqc]
      exact fun o ho ho' => h.free q w hq ho (mem_of_mem_drop ho')
  · rw [hpool]
    exact (drop_sublist _ _).nodup h.pool

theorem Ready.whole (h : s.Ready objs own wr) (hne : p ≠ c) (hp : Parent s objs p this os)
    (hf : Machine.Forking s.machine m' own own' wr p c d this.pgDir userPtrsPerPgd)
    (hr : AreasCopied grant s.pool 0 s.heap this.mmap [] os r os.length) :
    Whole s this (s.queueChild c m' r (s.machine.mm.pageAddr d)) c := by
  have hsource := h.inv.source hp.source
  have hw : s.machine.Walks own wr p (va2pa this.pgDir) ∅ := hsource.walks
  have hpage := Machine.page_of_fixed hf.fixed
  have hchild : m'.Walks own' (Machine.protect wr p c) c (va2pa (s.machine.mm.pageAddr d)) ∅ := by
    have hwalks := hf.walks_child h.owned.shape
    rwa [hpage] at hwalks
  have hparent := hf.walks_parent hne
  have huser : ∀ i j, own' (.user p i j) = own (.user p i j) :=
    fun i j => hf.keeps _ (by simp) (by simp) (by simp [hne])
  have hkept : ∀ o ∈ os, r.heap o = s.heap o := fun o ho =>
    hr.kept o not_mem_nil fun hm => hp.free ho (mem_of_mem_take hm)
  have hcopy := hr.chain_all hp.chain
  refine ⟨⟨_, update_self _ _ _, ?_, fun va => ⟨?_, ?_⟩, os.map fun o => (s.heap o).area, ⟨os, hp.chain, rfl⟩,
    ⟨os, ?_, ?_⟩, ?_⟩, fun va => ⟨?_, ?_⟩⟩
  · have hd := hf.owned.holds.inside _ _ hf.dir
    rw [Mm.pages_of_fixed hf.fixed] at hd
    have haddr := Mm.toNat_pageAddr (Nat.le_of_lt hd)
    have hbase := h.owned.layout.kernel
    intro hzero
    change s.machine.mm.pageAddr d = 0 at hzero
    rw [hzero, show (0 : Word).toNat = 0 from rfl] at haddr
    rw [toNat_kernelBase] at hbase
    omega
  · change m'.translate (s.machine.mm.pageAddr d) va false = _
    rw [translate_read hchild hf.owned, translate_read hw h.owned, hf.child h.owned.shape, hpage]
  · exact translate_write hchild hf.owned (fun i j => by simp [Machine.protect]) va
  · exact hp.chain.congr fun o ho => congrArg AreaObj.next (hkept o ho)
  · exact map_congr_left fun o ho => congrArg AreaObj.area (hkept o ho)
  · refine ⟨_, hcopy, ?_⟩
    have hareas := hr.areas
    rwa [take_length] at hareas
  · change m'.translate this.pgDir va false = _
    rw [translate_read hparent hf.owned, translate_read hw h.owned, huser, hpage]
  · exact translate_write hparent hf.owned (fun i j => by simp [Machine.protect]) va

theorem not_allOrNothing_of_share {t : ForkSys} (hne : p ≠ c) (hp : t.spaceOf p = some this) (hc : t.spaceOf c = some v)
    (hshare : (∃ page, t.TablePage this page ∧ t.TablePage v page) ∨ ∃ o, t.HasArea this o ∧ t.HasArea v o) :
    ¬AllOrNothing s this c (some c, t) := by
  rintro ⟨-, hno⟩
  obtain ⟨h1, h2⟩ := hno p c this v hne hp hc
  rcases hshare with ⟨page, h3, h4⟩ | ⟨o, h3, h4⟩
  · exact h1 page h3 h4
  · exact h2 o h3 h4

theorem allOrNothing_congr {s' t : ForkSys} (hmem : s'.machine.mem = s.machine.mem) (hheap : s'.heap = s.heap)
    (h : AllOrNothing s this c (some c, t)) : AllOrNothing s' this c (some c, t) := by
  obtain ⟨hwhole | hnone, hno⟩ := h
  · refine ⟨Or.inl ⟨rfl, ?_⟩, hno⟩
    obtain ⟨⟨v, hv, hdir, hread, areas, ⟨os, h1, h2⟩, h3, h4⟩, hparent⟩ := hwhole.2
    refine ⟨⟨v, hv, hdir, fun va => ?_, areas, ⟨os, ?_, ?_⟩, h3, h4⟩, fun va => ?_⟩
    · rw [translate_of_mem hmem]
      exact hread va
    · rwa [hheap]
    · rwa [hheap]
    · rw [translate_of_mem hmem]
      exact hparent va
  · cases hnone.1

theorem Ready.granted_iff (h : s.Ready objs own wr) {g : Grants} (hproc : g.proc = true)
    (hblock : ∃ o, 1 ≤ o ∧ o ≤ maxOrder ∧ s.machine.mm.links.next (.head o) ≠ .head o) (hp : Parent s objs p this os) :
    s.Granted g this ↔
      (g.dir = true ∧ Machine.Affords own p g.table (List.range userPtrsPerPgd) 3 s.machine.mm.freeCount) ∧
      (∀ i < os.length, g.area (0 + i) = true) ∧ os.length ≤ s.pool.length := by
  have hw : s.machine.Walks own wr p (va2pa this.pgDir) ∅ := (h.inv.source hp.source).walks
  have htables := tables_eq hw h.owned
  simp only [Nat.zero_add]
  constructor
  · intro hg
    obtain ⟨objs', hchain, h1, h2⟩ := hg.area
    rw [hchain.unique hp.chain] at h1 h2
    refine ⟨⟨hg.dir, fun k hk ht => ?_, ?_⟩, h1, h2⟩
    · exact hg.table k (mem_range.mp hk) ((present_iff hw h.owned (mem_range.mp hk)).mpr ht)
    · rw [← htables]
      exact hg.pages
  · rintro ⟨⟨h1, h2, h3⟩, h4, h5⟩
    refine ⟨hproc, hblock, h1, fun k hk ht => ?_, ?_, os, hp.chain, h4, h5⟩
    · exact h2 k (mem_range.mpr hk) ((present_iff hw h.owned hk).mp ht)
    · rw [htables]
      exact h3

theorem Ready.child_iff (h : s.Ready objs own wr) (hv : s.spaceOf p = some this) (hc : s.Unused c) {g : Grants}
    (hp : Parent s objs p this os) {x : Machine × Word × Bool}
    (hx : s.machine.copyPageTableWith this.pgDir g.dir g.table = x) :
    AllOrNothing s this c (some c, s.queueChild c x.1
      (if x.2.2 then copyVma g.area s.heap s.pool this.mmap else ⟨s.heap, s.pool, this.mmap, false⟩) x.2.1) ↔
      (g.dir = true ∧ Machine.Affords own p g.table (List.range userPtrsPerPgd) 1 s.machine.mm.freeCount) ∧
      (∀ i < os.length, g.area (0 + i) = true) ∧ os.length ≤ s.pool.length := by
  have hsource := h.inv.source hp.source
  obtain ⟨-, hunused⟩ := h.unused hc
  have hne : p ≠ c := by
    rintro rfl
    rcases spaceOf_cases hv with ⟨hz, -⟩ | ⟨-, hs⟩
    · exact hc.idle hz
    · rw [hc.spaces] at hs
      cases hs
  rcases h.owned.copyPageTableWith hsource.walks hne hsource.dir hunused hx with
    ⟨hdone, hgrant, own', d, hdir, hf⟩ | ⟨hdone, hnot, hbad⟩
  · rw [hdone, if_pos rfl, hdir, and_iff_right hgrant]
    obtain ⟨j, hr⟩ := @copyVmaLoop_spec g.area s.pool [] os 0 s.heap this.mmap this.mmap hp.chain
      (fun hf => absurd rfl hf) (fun o ho => ⟨not_mem_nil, hp.free ho⟩) h.pool
    change AreasCopied g.area s.pool 0 s.heap this.mmap [] os (copyVma g.area s.heap s.pool this.mmap) j at hr
    obtain ⟨r, hdef⟩ : ∃ r, r = copyVma g.area s.heap s.pool this.mmap := ⟨_, rfl⟩
    rw [← hdef] at hr ⊢
    rw [← hr.granted]
    obtain ⟨hchild, hothers⟩ := s.spaceOf_queueChild hc.idle x.1 r (s.machine.mm.pageAddr d)
    by_cases hj : j = os.length
    · rw [hj] at hr
      refine iff_of_true ⟨Or.inl ⟨rfl, h.whole hne hp hf hr⟩, (h.forked hc hne hp hf hr).noSharing⟩ (hr.done.mpr rfl)
    · refine iff_of_false ?_ fun hf => hj (hr.done.mp hf)
      by_cases hz : j = 0
      · -- no object was had, and the child still has the list of its parent
        rw [hz] at hr
        have hchain : Chain (fun o => (r.heap o).next) this.mmap os := hp.chain.congr fun o _ =>
          congrArg AreaObj.next (hr.kept o not_mem_nil not_mem_nil)
        obtain ⟨o, ho⟩ := exists_mem_of_length_pos (show 0 < os.length by omega)
        rw [hr.untouched rfl] at hchild
        exact not_allOrNothing_of_share hne ((hothers p hne).trans hv) hchild (Or.inr ⟨o, ⟨os, hchain, ho⟩, os, hchain, ho⟩)
      · have hlen : (s.pool.take j).length = j := by
          rw [length_take, Nat.min_eq_left hr.le_pool]
        have hchain : Chain (fun o => (r.heap o).next) r.mmap (s.pool.take j) := hr.chain fun hnil => hz (by
          rw [← hlen, ← nil_append (s.pool.take j), hnil]
          rfl)
        rintro ⟨hwhole | hnone, -⟩
        · obtain ⟨v, hv, -, -, areas, ⟨os', hos', h1⟩, -, objs', hobjs', h2⟩ := hwhole.2.child
          cases (update_self c _ s.spaces).symm.trans hv
          have heq := congrArg List.length (h1.trans h2.symm)
          rw [hos'.unique hp.chain, hobjs'.unique hchain, length_map, length_map, hlen] at heq
          exact hj heq.symm
        · cases hnone.1
  · rw [hdone, if_neg Bool.false_ne_true]
    refine iff_of_false ?_ fun hf => hnot hf.1
    obtain ⟨hchild, hothers⟩ := s.spaceOf_queueChild hc.idle x.1 ⟨s.heap, s.pool, this.mmap, false⟩ x.2.1
    rcases hbad with hnull | ⟨k, t, hk, ht, hlt, h1, h2⟩
    · rintro ⟨hwhole | hnone, -⟩
      · obtain ⟨v, hv, hdir, -⟩ := hwhole.2.child
        cases (update_self c _ s.spaces).symm.trans hv
        exact hdir hnull
      · cases hnone.1
    · have htable : ∀ v : Space, x.1.entry (va2pa v.pgDir) k = s.machine.pdeOf (some t) →
          TablePage { s with machine := x.1 } v (s.machine.page t) := by
        intro v hentry
        refine Or.inr ⟨k, hk, ?_⟩
        dsimp only
        rw [hentry]
        exact ⟨Machine.pdeOf_and_pteP h.owned.layout hlt, (Machine.pdeOf_and_pageMask h.owned.layout hlt).symm⟩
      exact not_allOrNothing_of_share hne ((hothers p hne).trans hv) hchild (Or.inl ⟨_, htable _ h2, htable ⟨_, x.2.1⟩ h1⟩)

end

theorem Ready.fork_iff {this : Space} (h : s.Ready objs own wr) (hv : s.spaceOf p = some this)
    (hc : s.Unused c) (g : Grants) : AllOrNothing s this c (s.fork g this c) ↔ s.Refused g ∨ s.Granted g this := by
  unfold fork
  rcases h.tryPair g with ⟨href, m, htry, hmem, hrefs⟩ |
    ⟨hno, hproc, hblock, mm', addr, own1, htry, h1, hslots, hcount⟩
  · rw [htry]
    refine iff_of_true ⟨Or.inr ⟨rfl, rfl, rfl, hrefs, hmem, fun va write => ?_⟩, fun p q v w hpq hv hw => ?_⟩ (Or.inl href)
    · exact translate_of_mem hmem this.pgDir va write
    · obtain ⟨h1, h2⟩ := h.noSharing p q v w hpq hv hw
      unfold TablePage at h1 ⊢
      simp only [entry_of_mem hmem]
      exact ⟨h1, h2⟩
  · rw [htry, or_iff_right hno]
    obtain ⟨os, hp⟩ := h.parent hv
    have hchild := h1.child_iff hv ⟨hc.idle, hc.spaces, hc.zombies⟩ (g := g) ⟨hp.chain, hp.free, hp.source⟩ rfl
    have htab : ∀ k, own1 (.table p k) = own (.table p k) := fun k => hslots _ fun n => by simp
    simp only [Machine.Affords, htab] at hchild
    rw [h.granted_iff hproc hblock hp, ← hcount, Machine.affords_succ, Machine.affords_succ]
    refine ⟨fun hall => hchild.mp (allOrNothing_congr ?_ ?_ hall), fun hg => allOrNothing_congr ?_ ?_ (hchild.mpr hg)⟩
    all_goals rfl

/-- A fork does the whole or nothing exactly when the pages of the new process are refused, or when all that it asks for
after them is granted. -/
theorem fork_all_or_nothing {this : Space} {c : Nat} (h : s.Valid) (hv : s.spaceOf p = some this) (hc : s.Unused c)
    (g : Grants) : AllOrNothing s this c (s.fork g this c) ↔ s.Refused g ∨ s.Granted g this := by
  obtain ⟨objs, own, wr, hready⟩ := h
  exact hready.fork_iff hv hc g

end

/-- The processes of a system in which each has one area, at the first object of the pool. -/
def ofSys (s : Sys) : ForkSys :=
  ⟨s.machine, fun _ => ⟨stackArea, none⟩, [1, 2], fun q => (s.procs q).map fun v => ⟨some 0, v.pgDir⟩, s.zombies,
    s.kernelPages, s.kernelPgDir, [1], [1]⟩

structure Single (s : ForkSys) (this : Space) (own : Slot → Option Nat) (wr : Slot → Bool) : Prop where
  ready : s.Ready (fun _ => [0]) own wr
  space : s.spaces 1 = some this
  chain : this.mmap = some 0
  unused : s.Unused 2
  table : ∀ k, own (.table 1 k) ≠ none ↔ k = 767
  block : ∃ o, 1 ≤ o ∧ o ≤ maxOrder ∧ s.machine.mm.links.next (.head o) ≠ .head o
  pages : 4 ≤ s.machine.mm.freeCount

theorem exists_single : ∃ s this own wr, Single (ofSys s) this own wr := by
  obtain ⟨mm, -, hbooted, hpages⟩ := Sys.smallMem_booted
  have hcount := hbooted.freeCount
  obtain ⟨s, own, wr, -, hs⟩ := hbooted.inv.spawn (c := 1) (by
    rw [hcount]
    exact Nat.le_trans (by decide) hpages) (by decide) rfl rfl
  obtain ⟨dir, hproc⟩ := hs.proc
  have hprocs : ∀ q, q ≠ 1 → s.procs q = none := fun q hq => hs.others q hq
  have hsys : (ofSys s).toSys (fun _ => [0]) = s := by
    have hmap : (fun q => ((s.procs q).map fun v => Space.mk (some 0) v.pgDir).map fun v => Vmm.mk [stackArea] v.pgDir) =
        s.procs := by
      funext q
      by_cases hq : q = 1
      · rw [hq, hproc]
        rfl
      · rw [hprocs q hq]
        rfl
    exact congrArg (fun procs => Sys.mk s.machine procs s.zombies s.kernelPages s.kernelPgDir) hmap
  have hone : ∀ q v, (ofSys s).spaces q = some v → q = 1 ∧ v = ⟨some 0, dir⟩ := by
    intro q v hq
    change (s.procs q).map _ = _ at hq
    by_cases hq1 : q = 1
    · rw [hq1, hproc] at hq
      exact ⟨hq1, (Option.some.inj hq).symm⟩
    · rw [hprocs q hq1] at hq
      cases hq
  have hheld : ∀ u n, own u = some n → u = .dir 1 ∨ u = .table 1 767 ∨ u = .user 1 767 1023 := by
    intro u n hu
    by_contra hno
    rw [not_or, not_or] at hno
    rw [hs.slots u hno.1 hno.2.1 hno.2.2] at hu
    cases hu
  have hsize : s.machine.mm.freeCount + 3 ≥ 128 := by
    have := hs.count
    rw [hcount] at this
    exact Nat.le_trans hpages this
  refine ⟨s, ⟨some 0, dir⟩, own, wr, ⟨?_, fun q v hq => ?_, fun q q' v v' hqq hq hq' => ?_, fun q v hq => ?_, ?_⟩, ?_, rfl,
    ⟨by decide, ?_, ?_⟩, fun k => ⟨fun hk => ?_, fun hk => ?_⟩, ?_, ?_⟩
  · rw [hsys]
    exact hs.inv
  · rw [(hone q v hq).2]
    exact ⟨rfl, rfl⟩
  · exact absurd ((hone q v hq).1.trans (hone q' v' hq').1.symm) hqq
  · intro o ho ho'
    rw [mem_singleton.mp ho] at ho'
    exact absurd ho' (show 0 ∉ [1, 2] by decide)
  · exact (by decide : [1, 2].Nodup)
  · change (s.procs 1).map _ = _
    rw [hproc]
    rfl
  · change (s.procs 2).map _ = _
    rw [hprocs 2 (by decide)]
    rfl
  · exact congrFun hs.zombies 2
  · obtain ⟨n, hn⟩ := Option.ne_none_iff_exists'.mp hk
    rcases hheld _ n hn with heq | heq | heq
    · cases heq
    · cases heq
      rfl
    · cases heq
  · rw [hk]
    exact hs.table
  · -- three pages are held, so one of the first four pairs is free
    have hthree : ∀ u n, own u = some n → n = (own (.dir 1)).getD 0 ∨ n = (own (.table 1 767)).getD 0 ∨
        n = (own (.user 1 767 1023)).getD 0 := by
      intro u n hu
      rcases hheld u n hu with rfl | rfl | rfl
      · rw [hu]
        exact Or.inl rfl
      · rw [hu]
        exact Or.inr (Or.inl rfl)
      · rw [hu]
        exact Or.inr (Or.inr rfl)
    obtain ⟨k, hk, hfree⟩ : ∃ k < 4, ∀ u n, own u = some n → n ≠ 2 * k ∧ n ≠ 2 * k + 1 := by
      generalize (own (.dir 1)).getD 0 = x, (own (.table 1 767)).getD 0 = y, (own (.user 1 767 1023)).getD 0 = z at hthree
      have hcard : ({x / 2, y / 2, z / 2} : Finset Nat).card < (Finset.range 4).card :=
        Finset.card_le_three.trans_lt (by decide)
      obtain ⟨k, hk, hxyz⟩ := Finset.exists_mem_notMem_of_card_lt_card hcard
      simp only [Finset.mem_insert, Finset.mem_singleton, not_or] at hxyz
      rw [Finset.mem_range] at hk
      refine ⟨k, hk, fun u n hu => ?_⟩
      rcases hthree u n hu with rfl | rfl | rfl
      all_goals omega
    have hbound : s.machine.mm.freeCount ≤ s.machine.mm.pages := by
      exact (Finset.card_filter_le _ _).trans (Nat.le_of_eq (Finset.card_range _))
    refine hs.inv.owned.holds.block_of_pair (k := k) (by omega) (fun u hu => (hfree u _ hu).1 rfl)
      (fun u hu => (hfree u _ hu).2 rfl)
  · change 4 ≤ s.machine.mm.freeCount
    omega

section

variable {s : ForkSys} {this : Space} {own : Slot → Option Nat} {wr : Slot → Bool}

theorem Single.tables (h : Single s this own wr) : s.tables this = 1 := by
  rw [tables_eq (h.ready.walks h.space) h.ready.owned]
  have hcount : (List.range userPtrsPerPgd).countP (fun k => (own (.table 1 k)).isSome) =
      (List.range userPtrsPerPgd).count 767 := by
    refine countP_congr fun k _ => ?_
    rw [Option.isSome_iff_ne_none, h.table k, beq_iff_eq]
  rw [hcount]
  exact count_eq_one_of_mem nodup_range (mem_range.mpr (by decide))

theorem Single.spaceOf (h : Single s this own wr) : s.spaceOf 1 = some this := by
  rw [ForkSys.spaceOf, if_neg (by decide)]
  exact h.space

end

theorem fork_granted_whole : ∃ s this, Valid s ∧ s.spaceOf 1 = some this ∧ s.Unused 2 ∧
    AllOrNothing s this 2 (s.fork ⟨true, true, fun _ => true, fun _ => true⟩ this 2) := by
  obtain ⟨s, this, own, wr, h⟩ := exists_single
  have hvalid : Valid (ofSys s) := ⟨_, own, wr, h.ready⟩
  refine ⟨ofSys s, this, hvalid, h.spaceOf, h.unused, (fork_all_or_nothing hvalid h.spaceOf h.unused _).mpr (Or.inr ?_)⟩
  refine ⟨rfl, h.block, rfl, fun _ _ _ => rfl, ?_, [0], h.ready.chain 1 this h.space, fun _ _ => rfl, show 1 ≤ 2 by decide⟩
  rw [h.tables]
  exact h.pages

/-- A process with a stack forks and no page is left for the table of the child: it is queued with the table of its
parent. -/
theorem fork_table_refused : ∃ s this, Valid s ∧ s.spaceOf 1 = some this ∧ s.Unused 2 ∧
    ¬AllOrNothing s this 2 (s.fork ⟨true, true, fun _ => false, fun _ => true⟩ this 2) := by
  obtain ⟨s, this, own, wr, h⟩ := exists_single
  refine ⟨ofSys s, this, ⟨_, own, wr, h.ready⟩, h.spaceOf, h.unused, fun hall => ?_⟩
  rcases (h.ready.fork_iff h.spaceOf h.unused _).mp hall with (hf | hf) | hf
  · cases hf
  · obtain ⟨o, h1, h2, h3⟩ := h.block
    exact h3 (hf o h1 h2)
  · have hpres := (present_iff (h.ready.walks h.space) h.ready.owned (show 767 < userPtrsPerPgd by decide)).mpr
      ((h.table 767).mpr rfl)
    cases hf.table 767 (by decide) hpres

end ForkSys

end BabyOS
