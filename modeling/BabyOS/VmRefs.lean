import BabyOS.VmProgress

namespace BabyOS

open Machine

namespace Sys

section

variable {s s' : Sys} {own own' : Slot → Option Nat} {wr : Slot → Bool} {p : Nat} {vmm : Vmm}

/-- A present entry of a live page table, given by its process and its two indices, that maps a page. -/
def Maps (s : Sys) (n : Nat) (e : Nat × Nat × Nat) : Prop :=
  ∃ vmm, s.procs e.1 = some vmm ∧ e.2.1 < userPtrsPerPgd ∧ e.2.2 < nrPtePerPage ∧
    let pde := s.machine.entry (va2pa vmm.pgDir) e.2.1
    let pte := s.machine.entry (pde &&& pageMask) e.2.2
    pde &&& pteP ≠ 0 ∧ pte &&& pteP ≠ 0 ∧ pte &&& pageMask = s.machine.page n

/-- The pages that the kernel has for itself, page directories and page tables among them. -/
def KernelUse (s : Sys) (n : Nat) : Prop :=
  s.kernelPages (s.machine.mm.pageAddr n) = true ∨
    (∃ p dir, s.zombies p = some dir ∧ va2pa dir = s.machine.page n) ∨
    ∃ p vmm, s.procs p = some vmm ∧ (va2pa vmm.pgDir = s.machine.page n ∨
      ∃ i < userPtrsPerPgd, s.machine.entry (va2pa vmm.pgDir) i &&& pteP ≠ 0 ∧
        s.machine.entry (va2pa vmm.pgDir) i &&& pageMask = s.machine.page n)

variable {n i j : Nat}

theorem Inv.maps_iff (h : Inv s own wr) (hn : n < s.machine.mm.pages) :
    s.Maps n (p, i, j) ↔ own (.user p i j) = some n := by
  constructor
  · rintro ⟨vmm, hp, hi, hj, hpde, hpte, hpage⟩
    have hw := h.walks p vmm hp
    rw [hw.pde i hi] at hpde hpte hpage
    cases ht : own (.table p i) with
    | none => simp [ht, Machine.pdeOf] at hpde
    | some t =>
      have hlt := h.owned.holds.inside _ _ ht
      rw [ht, pdeOf_and_pageMask h.owned.layout hlt, hw.pte i t ht j hj (Set.notMem_empty _)]
        at hpte hpage
      cases hu : own (.user p i j) with
      | none => simp [hu, Machine.pteOf] at hpte
      | some k =>
        have hk := h.owned.holds.inside _ _ hu
        rw [hu, (pteOf_some h.owned.layout hk _).2.1] at hpage
        rw [page_inj h.owned.layout hk hn hpage]
  · intro hu
    obtain ⟨t, ht⟩ := h.owned.shape.backed p i j n hu
    obtain ⟨vmm, hp⟩ := Option.isSome_iff_exists.mp (h.onlyTables p i t ht)
    have hi := h.owned.shape.table_lt p i t ht
    have hj := h.owned.shape.user_lt p i j n hu
    have hlt := h.owned.holds.inside _ _ ht
    have hw := h.walks p vmm hp
    obtain ⟨-, h2, h3, -⟩ := pteOf_some h.owned.layout hn (wr (.user p i j))
    refine ⟨vmm, hp, hi, hj, ?_⟩
    dsimp only
    rw [hw.pde i hi, ht, pdeOf_and_pageMask h.owned.layout hlt, hw.pte i t ht j hj (Set.notMem_empty _), hu]
    exact ⟨pdeOf_and_pteP h.owned.layout hlt, h3, h2⟩

theorem Inv.user_of (h : Inv s own wr) (hk : ¬s.KernelUse n) {u : Slot} (hu : own u = some n) : u.isUser := by
  cases u with
  | user => rfl
  | spare => simp [h.spare] at hu
  | kernel k =>
    obtain ⟨rfl, hkept⟩ := h.kernel k n hu
    exact absurd (Or.inl hkept) hk
  | dir p =>
    refine absurd ?_ hk
    rcases h.onlyDirs p n hu with hp | hz
    · obtain ⟨vmm, hp⟩ := Option.isSome_iff_exists.mp hp
      obtain ⟨d, hd, hpg⟩ := h.dir_eq hp
      obtain rfl : d = n := Option.some.inj (hd.symm.trans hu)
      exact Or.inr (Or.inr ⟨p, vmm, hp, Or.inl hpg⟩)
    · obtain ⟨dir, hz⟩ := Option.isSome_iff_exists.mp hz
      obtain ⟨-, d, hd, rfl⟩ := h.zombie p dir hz
      obtain rfl : d = n := Option.some.inj (hd.symm.trans hu)
      exact Or.inr (Or.inl ⟨p, _, hz, rfl⟩)
  | table p i =>
    obtain ⟨vmm, hp⟩ := Option.isSome_iff_exists.mp (h.onlyTables p i n hu)
    have hi := h.owned.shape.table_lt p i n hu
    have hlt := h.owned.holds.inside _ _ hu
    refine absurd (Or.inr (Or.inr ⟨p, vmm, hp, Or.inr ⟨i, hi, ?_⟩⟩)) hk
    rw [(h.walks p vmm hp).pde i hi, hu, pdeOf_and_pageMask h.owned.layout hlt]
    exact ⟨pdeOf_and_pteP h.owned.layout hlt, rfl⟩

theorem Inv.count_maps (h : Inv s own wr) (hn : n < s.machine.mm.pages)
    (hk : ¬s.KernelUse n) : {e | s.Maps n e}.Finite ∧
      (s.machine.mm.ref (s.machine.mm.frame n)).toNat = {e | s.Maps n e}.ncard := by
  let f : Nat × Nat × Nat → Slot := fun e => .user e.1 e.2.1 e.2.2
  have hinj : Function.Injective f := by
    rintro ⟨p, i, j⟩ ⟨q, k, l⟩ he
    simpa [f] using he
  have himage : f '' {e | s.Maps n e} = holders own n := by
    ext u
    constructor
    · rintro ⟨⟨p, i, j⟩, he, rfl⟩
      exact (h.maps_iff hn).mp he
    · intro hu
      have huser := h.user_of hk hu
      cases u with
      | user p i j => exact ⟨(p, i, j), (h.maps_iff hn).mpr hu, rfl⟩
      | dir | table | kernel | spare => simp [Slot.isUser] at huser
  refine ⟨Set.Finite.of_finite_image (himage ▸ h.owned.holds.finite.holders n) hinj.injOn, ?_⟩
  rw [h.owned.holds.counted n hn, holdCount, ← himage, Set.ncard_image_of_injective _ hinj]

theorem Inv.not_kernelUse (h : Inv s own wr) (hu : own (.user p i j) = some n) : ¬s.KernelUse n := by
  have hn := h.owned.holds.inside _ _ hu
  have hno : ∀ u : Slot, u.isUser = false → own u ≠ some n := by
    intro u hk hun
    have := h.owned.shape.alone u _ n hk hun hu
    rw [← this] at hk
    simp [Slot.isUser] at hk
  have hpage : ∀ u a, u.isUser = false → own u = some a → s.machine.page a ≠ s.machine.page n := by
    intro u a hk hua he
    exact hno u hk (page_inj h.owned.layout (h.owned.holds.inside _ _ hua) hn he ▸ hua)
  rintro (hkept | ⟨q, dir, hz, he⟩ | ⟨q, vmm, hq, he | ⟨k, hk, hpres, he⟩⟩)
  · obtain ⟨a, haddr, ha⟩ := h.kept _ hkept
    refine hpage _ a rfl ha ?_
    rw [Machine.page, Machine.page, haddr]
  · obtain ⟨-, d, hd, rfl⟩ := h.zombie q dir hz
    exact hpage _ d rfl hd he
  · obtain ⟨d, hd, hpg⟩ := h.dir_eq hq
    exact hpage _ d rfl hd (hpg.symm.trans he)
  · rw [(h.walks q vmm hq).pde k hk] at hpres he
    cases ht : own (.table q k) with
    | none => simp [ht, Machine.pdeOf] at hpres
    | some t =>
      rw [ht, pdeOf_and_pageMask h.owned.layout (h.owned.holds.inside _ _ ht)] at he
      exact hpage _ t rfl ht he

section

variable {m' : Machine} {vmm' : Vmm}

theorem entry_of_mem (hmem : m'.mem = s.machine.mem) (q : Word) (i : Nat) :
    m'.entry q i = s.machine.entry q i :=
  entry_congr (congrFun hmem q)

theorem Maps.setProc {e : Nat × Nat × Nat} (h : s.Maps n e) (hp : s.procs p = some vmm)
    (hmem : m'.mem = s.machine.mem) (hfix : m'.mm.fixed = s.machine.mm.fixed)
    (hdir : vmm'.pgDir = vmm.pgDir) : (s.setProc p m' vmm').Maps n e := by
  obtain ⟨v, hv, hi, hj, hrest⟩ := h
  have hprocs : ∃ v', (s.setProc p m' vmm').procs e.1 = some v' ∧ v'.pgDir = v.pgDir := by
    by_cases hq : e.1 = p
    · rw [hq] at hv
      obtain rfl : v = vmm := Option.some.inj (hv.symm.trans hp)
      exact ⟨vmm', by rw [hq, setProc_self], hdir⟩
    · exact ⟨v, by rw [setProc_of_ne hq, hv], rfl⟩
  obtain ⟨v', hv', hpg⟩ := hprocs
  refine ⟨v', hv', hi, hj, ?_⟩
  show _ ∧ _ ∧ _ = m'.page n
  rw [hpg, page_of_fixed hfix]
  simp only [Sys.setProc, entry_of_mem hmem]
  exact hrest

theorem KernelUse.of_setProc (h : (s.setProc p m' vmm').KernelUse n) (hp : s.procs p = some vmm)
    (hmem : m'.mem = s.machine.mem) (hfix : m'.mm.fixed = s.machine.mm.fixed)
    (hdir : vmm'.pgDir = vmm.pgDir) : s.KernelUse n := by
  have hpage : (s.setProc p m' vmm').machine.page n = s.machine.page n :=
    congrFun (page_of_fixed hfix) n
  rcases h with h | ⟨q, dir, hz, he⟩ | ⟨q, v, hq, h⟩
  · refine Or.inl ?_
    rw [← Mm.pageAddr_of_fixed hfix]
    exact h
  · exact Or.inr (Or.inl ⟨q, dir, hz, he.trans hpage⟩)
  · have hprocs : ∃ v', s.procs q = some v' ∧ v'.pgDir = v.pgDir := by
      by_cases hqp : q = p
      · subst q
        obtain rfl : vmm' = v := Option.some.inj (setProc_self.symm.trans hq)
        exact ⟨vmm, hp, hdir.symm⟩
      · exact ⟨v, (setProc_of_ne hqp).symm.trans hq, rfl⟩
    obtain ⟨v', hv', hpg⟩ := hprocs
    refine Or.inr (Or.inr ⟨q, v', hv', ?_⟩)
    rw [hpage] at h
    rw [hpg]
    simp only [Sys.setProc, entry_of_mem hmem] at h
    exact h

end

theorem Inv.munmap_leaves (h : Inv s own wr) (hp : s.procs p = some vmm) {addr len : Word}
    (hpass : Unmaps vmm addr len) (hu : own (.user p i j) = some n)
    (hwr : wr (.user p i j) = true) (h1 : addr.toNat ≤ vpage i j) (h2 : vpage i j < (addr + pageAlign len).toNat) :
    ∃ s', s.next (.munmap p addr len true 0 0) = some s' ∧ n < s'.machine.mm.pages ∧ ¬s'.KernelUse n ∧
      s'.Maps n (p, i, j) ∧ s'.machine.mm.ref (s'.machine.mm.frame n) = 0 ∧
      ∃ b, s'.machine.mm.Ok b ∧ b.Covers n := by
  obtain ⟨haddr, -, -, -, vma, hf, -, hstop⟩ := id hpass
  have hn := h.owned.holds.inside _ _ hu
  have hend : (addr + pageAlign len).toNat ≤ kernelBase.toNat := by
    have hin := (h.areas p vmm hp).inUser vma (List.mem_of_find?_eq_some hf)
    rw [BitVec.le_def] at hstop
    exact hstop.trans hin.user
  obtain ⟨m', own', he, hfree⟩ := freePageRange_spec h.owned (h.walks p vmm hp) h.owned rfl
    rfl (paged_of_and_eq_zero haddr) hend (fun _ _ _ _ => rfl)
  have hnone : own' (.user p i j) = none :=
    hfree.empties i j (h.owned.shape.user_lt p i j n hu) ⟨h1, h2, Dvd.intro _ rfl⟩
  have hzero : holdCount own' n = 0 := by
    refine hfree.owned.holds.finite.eq_zero_iff.mpr fun u hun => ?_
    by_cases hr : ∃ k l, u = .user p k l ∧
        vpage k l ∈ {x | addr.toNat ≤ x ∧ x < (addr + pageAlign len).toNat ∧ 4096 ∣ x}
    · obtain ⟨k, l, rfl, hin⟩ := hr
      rw [hfree.empties k l (hfree.owned.shape.user_lt p k l n hun) hin] at hun
      simp at hun
    · have hold := hfree.keeps u fun k l hkl hm => hr ⟨k, l, hkl, hm⟩
      obtain rfl := h.sole p i j n hu hwr u (hold.symm.trans hun)
      simp [hnone] at hun
  have hn' : n < m'.mm.pages := by
    rw [Mm.pages_of_fixed hfree.fixed]
    exact hn
  have hstep : s.next (.munmap p addr len true 0 0) =
      some (s.setProc p m' { vmm with areas := cutArea addr (addr + pageAlign len) 0 0 vmm.areas }) := by
    simp only [Sys.next, Sys.step, hp, Option.bind_some, munmap_passed hpass, he, Option.map_some]
  refine ⟨_, hstep, hn', fun hk => ?_, ?_, ?_, ?_⟩
  · exact h.not_kernelUse hu (hk.of_setProc hp hfree.mem hfree.fixed rfl)
  · exact ((h.maps_iff hn).mpr hu).setProc hp hfree.mem hfree.fixed rfl
  · apply BitVec.eq_of_toNat_eq
    exact (hfree.owned.holds.counted n hn').trans hzero
  · obtain ⟨b, hok, hcov⟩ := hfree.owned.holds.lists
    exact ⟨b, hok, (hcov n hn').mpr hzero⟩

/-- In every state that fitting steps reach from boot, the counter of a page outside the kernel's is the number
of present entries that map it, and no entry maps a page of a free list. -/
theorem page_refs_match_tables {s0 : Sys} {acts : List VmAct} (hboot : Booted s0)
    (hfit : Along next Fits s0 acts) (hrun : run next s0 acts = some s) :
    (∀ n < s.machine.mm.pages, ¬s.KernelUse n → {e | s.Maps n e}.Finite ∧
      (s.machine.mm.ref (s.machine.mm.frame n)).toNat = {e | s.Maps n e}.ncard) ∧
    ∃ free : Nat → List Word,
      (∀ o ≤ maxOrder, Ring s.machine.mm.links (.head o) ((free o).map .block)) ∧
      ∀ o ≤ maxOrder, ∀ a ∈ free o, ∀ n < s.machine.mm.pages, a.toNat ≤ (s.machine.mm.pageAddr n).toNat →
        (s.machine.mm.pageAddr n).toNat < a.toNat + 4096 * 2 ^ o → ∀ e, ¬s.Maps n e := by
  obtain ⟨own, wr, h⟩ := hboot.run hfit hrun
  refine ⟨fun n hn hk => h.count_maps hn hk, ?_⟩
  obtain ⟨b, hok, hfree⟩ := h.owned.holds.lists
  refine ⟨fun o => (b.free o).map s.machine.mm.pageAddr, fun o ho => ?_, fun o ho a ha n hn h1 h2 e he => ?_⟩
  · rw [List.map_map]
    exact hok.rep.rings o ho
  · obtain ⟨k, hk, rfl⟩ := List.mem_map.mp ha
    have hbound := hok.wf.bound o k hk
    have hka := Mm.toNat_pageAddr (show k ≤ s.machine.mm.pages by omega)
    rw [hka, Mm.toNat_pageAddr hn.le] at h1 h2
    have hzero := (hfree n hn).mp ⟨o, k, hk, by omega, by omega⟩
    obtain ⟨p, i, j⟩ := e
    exact h.owned.holds.finite.eq_zero_iff.mp hzero _ ((h.maps_iff hn).mp he)

theorem page_refs_match_tables_fork : ∃ mm s, Clients.smallMem.initFreeArea = some mm ∧
    run next (bootSys mm) (spawn 1 ++ [.fork 1 2]) = some s ∧
    (∀ n < s.machine.mm.pages, ¬s.KernelUse n → {e | s.Maps n e}.Finite ∧
      (s.machine.mm.ref (s.machine.mm.frame n)).toNat = {e | s.Maps n e}.ncard) := by
  obtain ⟨mm, s, hinit, hboot, hrun⟩ := smallMem_forked
  have hfit : Along next Fits (bootSys mm) (spawn 1 ++ [.fork 1 2]) :=
    ⟨trivial, fun _ _ => ⟨trivial, fun _ _ => ⟨trivial, fun _ _ => ⟨trivial, fun _ _ => trivial⟩⟩⟩⟩
  exact ⟨mm, s, hinit, hrun, (page_refs_match_tables hboot hfit hrun).1⟩

/-- A process writes to its stack and unmaps it: the entry is there, the counter is zero and the page stands in a
free list. -/
theorem unmapped_page_stays_mapped : ∃ mm s n, Clients.smallMem.initFreeArea = some mm ∧
    run next (bootSys mm) (spawn 1 ++ [.munmap 1 stackPage pageSize true 0 0]) = some s ∧
    n < s.machine.mm.pages ∧ ¬s.KernelUse n ∧ s.Maps n (1, 767, 1023) ∧
    s.machine.mm.ref (s.machine.mm.frame n) = 0 ∧ ∃ b, s.machine.mm.Ok b ∧ b.Covers n := by
  obtain ⟨mm, s, own, wr, hinit, hboot, hroom, hrun, hs⟩ := smallMem_spawned
  obtain ⟨dir, hp⟩ := hs.proc
  obtain ⟨n, hu⟩ := Option.ne_none_iff_exists'.mp hs.user
  obtain ⟨s', hstep, h1, h2, h3, h4, h5⟩ := hs.inv.munmap_leaves hp
    (show Unmaps ⟨[stackArea], dir⟩ stackPage pageSize from
      ⟨by decide, by decide, by decide, by decide, stackArea,
        show findVma [stackArea] stackPage = some stackArea by decide, by decide, by decide⟩)
    hu hs.writable (by decide) (by decide)
  exact ⟨mm, s', n, hinit, (run_append hrun).trans (run_step hstep (run_nil _)), h1, h2, h3, h4, h5⟩

end

end Sys

end BabyOS
