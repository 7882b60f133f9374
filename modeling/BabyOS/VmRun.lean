import BabyOS.MmBoot
import BabyOS.VmSteps

open Option

namespace BabyOS

/-- The checks that `do_munmap` makes before it changes anything. -/
def Unmaps (vmm : Vmm) (addr len : Word) : Prop :=
  addr &&& ~~~pageMask = 0 ∧ addr ≤ userVmSize ∧ len ≤ userVmSize - addr ∧ pageAlign len ≠ 0 ∧
    ∃ vma, findVma vmm.areas addr = some vma ∧ vma.start ≤ addr ∧ addr + pageAlign len ≤ vma.stop

namespace Sys

/-- A `do_mmap` stays in the user part, and a `do_munmap` is of a range where no page is mapped. -/
def Fits (s : Sys) : VmAct → Prop
  | .mmap p c => ∀ vmm, s.procs p = some vmm → MmapFits vmm.areas c
  | .munmap p addr len pool _ _ => ∀ vmm, s.procs p = some vmm → pool = true → Unmaps vmm addr len →
    ∀ va, addr ≤ va → va < addr + pageAlign len → present s.machine vmm.pgDir va = false
  | _ => True

section

variable {s s' : Sys} {own : Slot → Option Nat} {wr : Slot → Bool} {p : Nat} {vmm : Vmm}

theorem Inv.absent (h : Inv s own wr) (hp : s.procs p = some vmm) {lo hi : Word}
    (hhi : hi.toNat ≤ kernelBase.toNat)
    (hfree : ∀ va, lo ≤ va → va < hi → present s.machine vmm.pgDir va = false) {i j : Nat}
    (hj : j < nrPtePerPage) (h1 : lo.toNat ≤ vpage i j) (h2 : vpage i j < hi.toNat) :
    own (.user p i j) = none := by
  have hnat : (BitVec.ofNat 32 (vpage i j)).toNat = vpage i j := by
    rw [BitVec.toNat_ofNat, Nat.mod_eq_of_lt (by omega)]
  have hva : BitVec.ofNat 32 (vpage i j) < kernelBase := by
    rw [BitVec.lt_def, hnat]
    omega
  have hidx := vpage_index (show 4096 ∣ (BitVec.ofNat 32 (vpage i j)).toNat by rw [hnat]; exact Dvd.intro _ rfl)
  rw [hnat] at hidx
  obtain ⟨hi', hj'⟩ := vpage_inj (ptIndex_lt _) hj hidx
  have hno := hfree (BitVec.ofNat 32 (vpage i j)) (by rw [BitVec.le_def, hnat]; exact h1)
    (by rw [BitVec.lt_def, hnat]; exact h2)
  rw [(h.walks p vmm hp).present h.owned hva, Slot.of, hi', hj'] at hno
  simpa using hno

theorem munmap_passed {addr len prot flags : Word} (h : Unmaps vmm addr len) : s.munmap p vmm addr len true prot flags =
    (s.machine.freePageRange vmm.pgDir addr (addr + pageAlign len)).map fun m =>
      s.setProc p m { vmm with areas := cutArea addr (addr + pageAlign len) prot flags vmm.areas } := by
  obtain ⟨haddr, hle, hlen, hpos, vma, hf, hstart, hstop⟩ := h
  have hr : ¬(addr &&& ~~~pageMask ≠ 0 ∨ addr > userVmSize ∨ len > userVmSize - addr) := by
    simp only [not_or, ne_eq, not_not, gt_iff_lt, BitVec.not_lt]
    exact ⟨haddr, hle, hlen⟩
  have hin : ¬(addr < vma.start ∨ addr + pageAlign len > vma.stop) := by
    simp only [not_or, gt_iff_lt, BitVec.not_lt]
    exact ⟨hstart, hstop⟩
  simp only [Sys.munmap, if_neg hr, if_neg hpos, hf, if_neg hin, if_true]

theorem munmap_refused {addr len prot flags : Word} {pool : Bool} (h : ¬(pool = true ∧ Unmaps vmm addr len)) :
    s.munmap p vmm addr len pool prot flags = some s := by
  unfold Sys.munmap
  dsimp only
  split
  next => rfl
  next hrange =>
  split
  next => rfl
  next hlen =>
  cases hf : findVma vmm.areas addr with
  | none => rfl
  | some vma =>
    dsimp only
    split
    next => rfl
    next hin =>
    cases pool with
    | false => rfl
    | true =>
      simp only [not_or, ne_eq, not_not, gt_iff_lt, BitVec.not_lt] at hrange hin
      exact absurd ⟨rfl, hrange.1, hrange.2.1, hrange.2.2, hlen, vma, hf, hin⟩ h

theorem Inv.munmap (h : Inv s own wr) (hp : s.procs p = some vmm) {addr len prot flags : Word}
    {pool : Bool} (hfit : s.Fits (.munmap p addr len pool prot flags))
    (hs : s.munmap p vmm addr len pool prot flags = some s') :
    Inv s' own wr ∧ s'.views own = s.views own ∧ s'.machine.mm.fixed = s.machine.mm.fixed := by
  by_cases hpass : pool = true ∧ Unmaps vmm addr len
  swap
  · rw [munmap_refused hpass] at hs
    cases hs
    exact ⟨h, rfl, rfl⟩
  obtain ⟨rfl, hu⟩ := hpass
  have habsent := hfit vmm hp rfl hu
  rw [munmap_passed hu] at hs
  obtain ⟨haddr, hle, hlen', hlen, vma, hf, hstart, hstop⟩ := hu
  have hareas := h.areas p vmm hp
  have ha : 4096 ∣ addr.toNat := paged_of_and_eq_zero haddr
  have huser : userVmSize.toNat = 3221225472 := by decide
  have hk := toNat_kernelBase
  rw [BitVec.le_def, BitVec.toNat_sub_of_le hle, huser] at hlen'
  rw [BitVec.le_def, huser] at hle
  have halign := toNat_pageAlign (show len.toNat ≤ 0xfffff000 by omega)
  have hpos : 0 < (pageAlign len).toNat := by
    rcases Nat.eq_zero_or_pos (pageAlign len).toNat with h0 | h0
    · exact absurd (BitVec.eq_of_toNat_eq h0) hlen
    · exact h0
  have hsum : (addr + pageAlign len).toNat = addr.toNat + (pageAlign len).toNat := by
    rw [BitVec.toNat_add]
    omega
  have hend : (addr + pageAlign len).toNat ≤ kernelBase.toNat := by
    rw [hsum]
    omega
  obtain ⟨m', own', he, hfree⟩ := Machine.freePageRange_spec h.owned (h.walks p vmm hp) h.owned rfl
    rfl ha hend (fun _ _ _ _ => rfl)
  rw [he] at hs
  cases hs
  have hown : own' = own := by
    funext u
    by_cases hu : ∃ i j, u = .user p i j ∧
        vpage i j ∈ {x | addr.toNat ≤ x ∧ x < (addr + pageAlign len).toNat ∧ 4096 ∣ x}
    · obtain ⟨i, j, rfl, h1, h2, h3⟩ := hu
      by_cases hj : j < nrPtePerPage
      · rw [hfree.empties i j hj ⟨h1, h2, h3⟩, h.absent hp hend habsent hj h1 h2]
      · have hnone : ∀ {m : Machine} {o}, m.Owned o → o (.user p i j) = none := fun {m o} ho => by
          cases hn : o (.user p i j) with
          | none => rfl
          | some n => exact absurd (ho.shape.user_lt p i j n hn) hj
        rw [hnone hfree.owned, hnone h.owned]
    · exact hfree.keeps u fun i j hij hm => hu ⟨i, j, hij, hm⟩
  obtain ⟨hcut, hcov⟩ := hareas.cutArea hf hstart
    (show addr < addr + pageAlign len by rw [BitVec.lt_def]; omega) hstop ha (by omega) prot flags
  have hfreed := hfree.owned
  rw [hown] at hfreed
  refine ⟨h.setProc hp hfreed hfree.fixed rfl (fun _ _ _ => rfl) (fun _ _ => rfl)
    (fun q _ => by rw [hfree.mem]) ?_ hcut (fun i j n hn => ?_) h.sole,
    views_congr hfree.fixed (fun _ _ _ => rfl) fun _ _ _ _ _ => congrFun hfree.mem _, hfree.fixed⟩
  · exact (h.walks p vmm hp).congr hfree.fixed (by rw [hfree.mem]) (fun _ => rfl)
      (fun _ _ _ => by rw [hfree.mem]) (fun _ _ _ => rfl) (fun _ _ _ => rfl)
  · refine hcov _ (h.covered p vmm hp i j n hn) fun ⟨h1, h2⟩ => ?_
    have := h.absent hp hend habsent (h.owned.shape.user_lt p i j n hn) h1 h2
    simp [hn] at this

theorem step_eq {x : Option Sys} {d e : VmEvent} (h : x.map (fun t => (t, d)) = some (s', e)) : x = some s' ∧ d = e := by
  obtain ⟨t, ht, he⟩ := map_eq_some_iff.mp h
  cases he
  exact ⟨ht, rfl⟩

theorem Inv.step (h : Inv s own wr) {a : VmAct} {e : VmEvent} (hfit : s.Fits a)
    (hs : s.step a = some (s', e)) : Follows s own s' e := by
  cases a with
  | store p va b =>
    obtain ⟨ht, rfl⟩ := step_eq hs
    exact h.store ht
  | fault p va write user kernelPresent esp junk =>
    obtain ⟨vmm, hp, hs⟩ := bind_eq_some_iff.mp hs
    split at hs
    next => simp at hs
    next => exact h.fault hp hs
  | fork p c =>
    obtain ⟨ht, rfl⟩ := step_eq hs
    exact h.fork ht
  | exit p =>
    obtain ⟨vmm, hp, hs⟩ := bind_eq_some_iff.mp hs
    exact h.exit_follows hp hs
  | reap p =>
    obtain ⟨ht, rfl⟩ := step_eq hs
    obtain ⟨own', -, h1, h2⟩ := h.reap ht
    exact ⟨own', wr, h1, h2⟩
  | release p =>
    obtain ⟨vmm, hp, hs⟩ := bind_eq_some_iff.mp hs
    obtain ⟨m', own', hr, hinv, hviews, -⟩ := h.release hp
    rw [hr] at hs
    cases hs
    exact ⟨own', wr, hinv, hviews⟩
  | loadSegment p vaddr pool content =>
    obtain ⟨vmm, hp, hs⟩ := bind_eq_some_iff.mp hs
    exact h.loadSegment hp (paged_and vaddr) hs
  | initUserStack p pool =>
    obtain ⟨vmm, hp, he⟩ := map_eq_some_iff.mp hs
    cases he
    exact h.initUserStack hp pool
  | mmap p c =>
    obtain ⟨vmm, hp, he⟩ := map_eq_some_iff.mp hs
    cases he
    have hm := (h.areas p vmm hp).doMmap (hfit vmm hp)
    exact h.extend hp ⟨rfl, hm.ok, hm.grows⟩
  | munmap p addr len pool prot flags =>
    obtain ⟨vmm, hp, hs⟩ := bind_eq_some_iff.mp hs
    obtain ⟨ht, rfl⟩ := step_eq hs
    obtain ⟨h1, h2, -⟩ := h.munmap hp hfit ht
    exact ⟨own, wr, h1, h2⟩
  | kalloc =>
    obtain ⟨ht, rfl⟩ := step_eq hs
    obtain ⟨n, h1, h2⟩ := h.kalloc ht
    exact ⟨_, wr, h1, h2⟩
  | kfree addr =>
    obtain ⟨ht, rfl⟩ := step_eq hs
    obtain ⟨own', -, h1, h2⟩ := h.kfree ht
    exact ⟨own', wr, h1, h2⟩

/-- All pages are free, there is no process, and the idle page directory is boot memory without an entry in the
user part. -/
structure Booted (s : Sys) : Prop where
  memory : ∃ mm, Mm.BootMem mm ∧ mm.initFreeArea = some s.machine.mm ∧
    kernelBase ≤ s.kernelPgDir ∧ s.kernelPgDir < mm.memStart
  procs : ∀ p, s.procs p = none
  zombies : ∀ p, s.zombies p = none
  kernelPages : ∀ addr, s.kernelPages addr = false
  idlePde : ∀ i < userPtrsPerPgd, s.machine.entry (va2pa s.kernelPgDir) i = 0

theorem Booted.inv (h : Booted s) : Inv s (fun _ => none) (fun _ => false) := by
  obtain ⟨mm, hboot, hinit, h1, h2⟩ := h.memory
  obtain ⟨mm', b, he, hok, hcov, href, -, hbase, -⟩ := hboot.initFreeArea
  obtain rfl : mm' = s.machine.mm := some.inj (he.symm.trans hinit)
  refine ⟨⟨hok.holds_none hcov href, ?_⟩, rfl, by simp [h.procs],
    by simp [h.zombies], by simp, by simp, by simp [h.procs], by simp [h.procs], by simp, by simp,
    by simp [h.kernelPages], ⟨h.procs 0, h.zombies 0⟩, fun n hn he => ?_, h.idlePde, by simp⟩
  · exact ⟨by simp, by simp, by simp, by simp⟩
  · have hpage := Machine.toNat_page hok.layout hn
    rw [he, va2pa, BitVec.toNat_sub_of_le h1] at hpage
    rw [BitVec.le_def] at h1
    rw [BitVec.lt_def] at h2
    omega

theorem Inv.next (h : Inv s own wr) {a : VmAct} (hfit : s.Fits a) (hs : s.next a = some s') :
    ∃ own' wr', Inv s' own' wr' := by
  obtain ⟨⟨t, e⟩, hstep, rfl⟩ := map_eq_some_iff.mp hs
  obtain ⟨own', wr', hinv, -⟩ := h.step hfit hstep
  exact ⟨own', wr', hinv⟩

theorem Booted.run {s0 : Sys} (h : Booted s0) {acts : List VmAct} (hfit : Along next Fits s0 acts)
    (hrun : run next s0 acts = some s) : ∃ own wr, Inv s own wr :=
  run_invariant (I := fun s => ∃ own wr, Inv s own wr)
    (fun _ _ _ ⟨_, _, hinv⟩ hc he => hinv.next hc he) ⟨_, _, h.inv⟩ hfit hrun

end

end Sys

end BabyOS
