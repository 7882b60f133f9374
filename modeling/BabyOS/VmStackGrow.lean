import BabyOS.VmProgress

namespace BabyOS

/-- The area that `init_user_stack` makes; `do_mmap` gives no area these flags. -/
def VmArea.IsStack (a : VmArea) : Prop := a.flags = vmStack ∧ a.stop = userStackTop

/-- An address below the stack from which `do_page_fault` lets it grow. -/
def BelowStack (areas : List VmArea) (va esp : Word) : Prop :=
  ∃ a, findVma areas va = some a ∧ a.IsStack ∧ va < a.start ∧ va + 32 ≥ esp

/-- No area changes, or one does and it is the stack, of which the start is moved. -/
def GrowsStack (areas areas' : List VmArea) : Prop :=
  areas' = areas ∨ ∃ xs a ys start, areas = xs ++ a :: ys ∧ a.IsStack ∧
    areas' = xs ++ { a with start := start } :: ys

namespace Sys

/-- The areas of other processes stay, those of the process change by the growth of its stack and stay in order,
and a user access outside of all areas and not below the stack ends the process. -/
structure FaultConfined (s : Sys) (p : Nat) (vmm : Vmm) (va : Word) (user : Bool) (esp : Word)
    (r : Sys × VmEvent) : Prop where
  others : ∀ q, q ≠ p → r.1.procs q = s.procs q
  grows : ∀ vmm', r.1.procs p = some vmm' → GrowsStack vmm.areas vmm'.areas ∧
    (AreasOk vmm.areas → AreasOk vmm'.areas)
  exits : user → ¬Covered VmArea.lo VmArea.hi vmm.areas va.toNat → ¬BelowStack vmm.areas va esp →
    s.exit p vmm = some r

/-- The area above the address passes the test for a stack only if it is the stack. -/
def StackTested (areas : List VmArea) (va : Word) (user : Bool) (esp : Word) : Prop :=
  ∀ a, findVma areas va = some a → va < a.start → user → va + 32 ≥ esp → a.flags &&& vmStack ≠ 0 → a.IsStack

end Sys

section

variable {α : Type} {xs ys xs' ys' : List α} {a a' b b' : α}

theorem eq_of_replaced (h : xs ++ a :: ys = xs' ++ b :: ys') (h' : xs ++ a' :: ys = xs' ++ b' :: ys')
    (hne : a ≠ a') : a = b := by
  induction xs generalizing xs' with
  | nil =>
    cases xs' with
    | nil => exact (List.cons.inj h).1
    | cons x xs' =>
      have h1 := (List.cons.inj h).1
      have h2 := (List.cons.inj h').1
      exact absurd (h1.trans h2.symm) hne
  | cons x xs ih =>
    cases xs' with
    | nil =>
      have h1 := (List.cons.inj h).2
      have h2 := (List.cons.inj h').2
      exact absurd (List.cons.inj (List.append_cancel_left (h1.trans h2.symm))).1 hne
    | cons y xs' => exact ih (List.cons.inj h).2 (List.cons.inj h').2

end

namespace Sys

section

variable {s : Sys} {p : Nat} {vmm : Vmm} {va esp : Word} {here write user : Bool} {junk : Nat → Byte}
  {r : Sys × VmEvent}

theorem exit_procs (h : s.exit p vmm = some r) :
    r.1.procs p = none ∧ ∀ q, q ≠ p → r.1.procs q = s.procs q := by
  obtain ⟨x, _, he⟩ := Option.map_eq_some_iff.mp h
  cases he
  exact ⟨Function.update_self _ _ _, fun q hq => Function.update_of_ne hq _ _⟩

theorem expandStack_ne {a : VmArea} (hs : va < a.start) : a ≠ { a with start := va &&& pageMask } := by
  intro he
  have hstart := congrArg (fun x : VmArea => x.start.toNat) he
  have hmask := toNat_and_pageMask va
  rw [BitVec.lt_def] at hs
  simp only at hstart
  omega

section

variable (h : s.fault p vmm va here write user esp junk = some r)
include h

theorem fault_areas : (s.exit p vmm = some r ∧ ∀ a, findVma vmm.areas va = some a → va < a.start →
        ¬(user ∧ a.flags &&& vmStack ≠ 0 ∧ va + 32 ≥ esp)) ∨
      (∃ a, findVma vmm.areas va = some a ∧ va < a.start ∧ (user ∧ a.flags &&& vmStack ≠ 0 ∧ va + 32 ≥ esp) ∧
        ∃ m e, r = (s.setProc p m { vmm with areas := expandStack va vmm.areas }, e)) ∨
      ∃ a, findVma vmm.areas va = some a ∧ a.start ≤ va ∧ ∃ m e, r = (s.setProc p m vmm, e) := by
  unfold Sys.fault at h
  cases hf : findVma vmm.areas va with
  | none =>
    rw [hf] at h
    refine Or.inl ⟨h, fun a ha => ?_⟩
    cases ha
  | some vma =>
    simp only [hf] at h
    split at h
    next hlow =>
      split at h
      next hgrow =>
        obtain ⟨m, _, he⟩ := Option.map_eq_some_iff.mp h
        exact Or.inr (Or.inl ⟨vma, rfl, hlow, hgrow, m, _, he.symm⟩)
      next hno =>
        refine Or.inl ⟨h, fun a ha _ => ?_⟩
        cases ha
        exact hno
    next hhigh =>
      obtain ⟨m, _, he⟩ := Option.map_eq_some_iff.mp h
      rw [gt_iff_lt, BitVec.not_lt] at hhigh
      exact Or.inr (Or.inr ⟨vma, rfl, hhigh, m, _, he.symm⟩)

theorem FaultConfined.stackTested (hc : FaultConfined s p vmm va user esp r) : StackTested vmm.areas va user esp := by
  intro a ha hlow hu hesp hflag
  rcases fault_areas h with ⟨_, hno⟩ | ⟨b, hb, _, _, m, e, rfl⟩ | ⟨b, hb, hhigh, _⟩
  · exact absurd ⟨hu, hflag, hesp⟩ (hno a ha hlow)
  · obtain ⟨xs, ys, hsplit, hlt, hxs⟩ := findVma_split ha
    have hexp : expandStack va (xs ++ a :: ys) = _ := expandStack_append hxs hlt
    rw [← hsplit] at hexp
    obtain ⟨hg, _⟩ := hc.grows _ setProc_self
    rcases hg with hg | ⟨xs', b, ys', start, hb, hstack, hb'⟩
    · have hsame := hexp.symm.trans hg
      rw [hsplit] at hsame
      exact absurd (List.cons.inj (List.append_cancel_left hsame)).1.symm (expandStack_ne hlow)
    · rw [eq_of_replaced (hsplit.symm.trans hb) (hexp.symm.trans hb') (expandStack_ne hlow)]
      exact hstack
  · cases hb.symm.trans ha
    exact absurd hlow (BitVec.not_lt.mpr hhigh)

theorem StackTested.confined (hc : StackTested vmm.areas va user esp) : FaultConfined s p vmm va user esp r := by
  rcases fault_areas h with ⟨hexit, _⟩ | ⟨a, ha, hlow, ⟨hu, hflag, hesp⟩, m, e, rfl⟩ | ⟨a, ha, hhigh, m, e, rfl⟩
  · obtain ⟨hp, ho⟩ := exit_procs hexit
    refine ⟨ho, fun vmm' hv => ?_, fun _ _ _ => hexit⟩
    cases hp.symm.trans hv
  · have hstack := hc a ha hlow hu hesp hflag
    obtain ⟨xs, ys, hsplit, hlt, hxs⟩ := findVma_split ha
    have hexp : expandStack va (xs ++ a :: ys) = _ := expandStack_append hxs hlt
    rw [← hsplit] at hexp
    refine ⟨fun q hq => setProc_of_ne hq, fun vmm' hv => ?_, fun _ _ hno => ?_⟩
    · cases (setProc_self.symm.trans hv)
      exact ⟨Or.inr ⟨xs, a, ys, _, hsplit, hstack, hexp⟩, fun hok => (hok.expandStack ha hlow).1⟩
    · exact absurd ⟨a, ha, hstack, hlow, hesp⟩ hno
  · refine ⟨fun q hq => setProc_of_ne hq, fun vmm' hv => ?_, fun _ hno _ => ?_⟩
    · cases (setProc_self.symm.trans hv)
      exact ⟨Or.inl rfl, fun hok => hok⟩
    · obtain ⟨xs, ys, hsplit, hlt, _⟩ := findVma_split ha
      refine absurd ⟨a, ?_, hhigh, hlt⟩ hno
      rw [hsplit]
      exact List.mem_append_right _ List.mem_cons_self

end

/-- A page fault is confined just when the test for a stack lets only the stack pass. -/
theorem fault_confined_iff (h : s.fault p vmm va here write user esp junk = some r) :
    FaultConfined s p vmm va user esp r ↔ StackTested vmm.areas va user esp :=
  ⟨fun hc => hc.stackTested h, fun hc => hc.confined h⟩

theorem fault_of_next {s' : Sys} {kernelPresent : Bool} (hp : s.procs p = some vmm)
    (h : s.next (.fault p va write user kernelPresent esp junk) = some s') :
    ∃ here e, s.fault p vmm va here write user esp junk = some (s', e) := by
  obtain ⟨⟨t, e⟩, hstep, rfl⟩ := Option.map_eq_some_iff.mp h
  rw [Sys.step, hp, Option.bind_some] at hstep
  split at hstep
  next => cases hstep
  next => exact ⟨_, e, hstep⟩

def stackBelow : Word := 0xbfffe000#32

theorem fault_confined_stack : ∃ mm s vmm here r, Clients.smallMem.initFreeArea = some mm ∧
    run next (bootSys mm) (spawn 1) = some s ∧ s.procs 1 = some vmm ∧
    s.fault 1 vmm stackBelow here true true 0 (fun _ => 0) = some r ∧
    FaultConfined s 1 vmm stackBelow true 0 r := by
  obtain ⟨mm, s, own, wr, hinit, hboot, hroom, hrun, hs⟩ := smallMem_spawned
  obtain ⟨dir, hp⟩ := hs.proc
  have hcount := hs.count
  have hu : own (.user 1 (pdIndex stackBelow) (ptIndex stackBelow)) = none :=
    hs.slots _ (by simp) (by simp) (by decide)
  have hf : findVma [stackArea] stackBelow = some stackArea := by decide
  obtain ⟨s', _, _, _, hnext, _⟩ := hs.inv.touch hp hu (by omega) (Or.inl (by omega)) hf (Or.inr (by decide))
  obtain ⟨here, e, hfault⟩ := fault_of_next hp hnext
  refine ⟨mm, s, _, here, _, hinit, hrun, hp, hfault, (fault_confined_iff hfault).mpr ?_⟩
  intro a ha _ _ _ _
  cases hf.symm.trans ha
  exact ⟨rfl, rfl⟩

theorem Spawned.mmap {s s' : Sys} {own own' : Slot → Option Nat} {wr' : Slot → Bool} {c : Nat}
    (h : Spawned s s' own own' wr' c) {x : MmapCall} {areas : List VmArea} (hx : MmapFits [stackArea] x)
    (ha : (x.exec [stackArea]).2 = areas) : ∃ s2 dir, s'.next (.mmap c x) = some s2 ∧ Inv s2 own' wr' ∧
      s2.procs c = some ⟨areas, dir⟩ ∧ s2.machine = s'.machine := by
  obtain ⟨dir, hp⟩ := h.proc
  have hm := stackArea_ok.doMmap hx
  refine ⟨s'.setProc c s'.machine ⟨areas, dir⟩, dir, ?_, h.inv.setAreas hp ⟨rfl, ha ▸ hm.ok, ha ▸ hm.grows⟩,
    setProc_self, rfl⟩
  rw [Sys.next, Sys.step, hp, ← ha]
  rfl

def onePage (prot : Word) : MmapCall := ⟨0, pageSize, prot, 0, true⟩

theorem onePage_fits (prot : Word) : MmapFits [stackArea] (onePage prot) :=
  ⟨show pageSize.toNat ≤ 0xfffff000 by decide, fun _ _ _ => ⟨(vmUnmappedBase, stackArea.start), by decide,
    Or.inl (show vmUnmappedBase.toNat + (pageAlign pageSize).toNat ≤ stackArea.start.toNat by decide)⟩⟩

/-- A process maps one page, sets its stack pointer to zero and writes far below: the area of the page grows
although it is not the stack. -/
theorem fault_grows_mmap_area : ∃ mm s vmm here r, Clients.smallMem.initFreeArea = some mm ∧
    run next (bootSys mm) (spawn 1 ++ [.mmap 1 (onePage 3)]) = some s ∧ s.procs 1 = some vmm ∧
    vmm.areas = [⟨0x40000000, 0x40001000, 3, 3⟩, stackArea] ∧
    s.fault 1 vmm 0x10000000 here true true 0 (fun _ => 0) = some r ∧
    (r.1.procs 1).map Vmm.areas = some [⟨0x10000000, 0x40001000, 3, 3⟩, stackArea] ∧
    ¬FaultConfined s 1 vmm 0x10000000 true 0 r := by
  obtain ⟨mm, s1, own, wr, hinit, hboot, hroom, hrun1, hs⟩ := smallMem_spawned
  have hcount := hs.count
  obtain ⟨s, dir, hstep, hinv, hp, hm⟩ := hs.mmap (onePage_fits 3)
    (show _ = [⟨0x40000000, 0x40001000, 3, 3⟩, stackArea] by decide)
  have hfree : 2 ≤ s.machine.mm.freeCount := by
    rw [hm]
    omega
  have hu : own (.user 1 (pdIndex 0x10000000) (ptIndex 0x10000000)) = none :=
    hs.slots _ (by simp) (by simp) (by decide)
  have hf : findVma [⟨0x40000000, 0x40001000, 3, 3⟩, stackArea] 0x10000000 =
      some ⟨0x40000000, 0x40001000, 3, 3⟩ := by decide
  obtain ⟨s', _, _, _, hnext, _, hproc⟩ := hinv.touch hp hu (by omega) (Or.inl hfree) hf (Or.inr (by decide))
  obtain ⟨here, e, hfault⟩ := fault_of_next hp hnext
  refine ⟨mm, s, _, here, _, hinit, ?_, hp, rfl, hfault, ?_, fun hc => ?_⟩
  · rw [run_append hrun1]
    exact run_step hstep (run_nil _)
  · rw [hproc, if_pos (by decide), Option.map_some]
    exact congrArg some (show expandStack 0x10000000 [⟨0x40000000, 0x40001000, 3, 3⟩, stackArea] = _ by decide)
  · have hstack := hc.stackTested hfault _ hf (by decide) rfl (by decide) (by decide)
    exact absurd hstack.1 (by decide)

end

end Sys

end BabyOS
