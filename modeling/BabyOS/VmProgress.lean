import BabyOS.MmRun
import BabyOS.VmRun

open BitVec Option

namespace BabyOS

open Machine

namespace Machine

variable {m m' : Machine} {own : Slot → Option Nat} {pgDir : Word}

theorem Owned.allocPage_some (h : Owned m own) (hroom : 0 < m.mm.freeCount) :
    ∃ r, m.allocPage = some r ∧ r.1.mm.freeCount + 1 = m.mm.freeCount := by
  obtain ⟨mm', addr, he, hcount⟩ := h.holds.alloc_some hroom
  refine ⟨({ m with mm := mm' }, addr), ?_, hcount⟩
  rw [Machine.allocPage, he]

theorem copyTables_skip {newDir : Word} {k fuel i : Nat} (hz : ∀ l, i ≤ l → l < i + k → m.entry (va2pa pgDir) l = 0) :
    m.copyTables pgDir newDir (k + fuel) i = m.copyTables pgDir newDir fuel (i + k) := by
  induction k generalizing i with
  | zero => rw [Nat.zero_add, Nat.add_zero]
  | succ k ih =>
    rw [Nat.add_right_comm, copyTables, hz i (Nat.le_refl i) (by omega)]
    simp only [show (0 : Word) &&& pteP = 0 by decide, if_true]
    rw [ih fun l h1 h2 => hz l (by omega) (by omega)]
    congr 1
    omega

theorem Owned.tableOf_some (h : Owned m own) {k : Nat}
    (hroom : m.entry (va2pa pgDir) k &&& pteP ≠ 0 ∨ 0 < m.mm.freeCount) :
    ∃ r, m.tableOf pgDir k = some r ∧ m.mm.freeCount ≤ r.1.mm.freeCount + 1 := by
  unfold tableOf
  dsimp only
  split_ifs with hp
  · exact ⟨_, rfl, by simp⟩
  · obtain ⟨r, hr, hcount⟩ := h.allocPage_some (hroom.resolve_left hp)
    rw [hr]
    exact ⟨_, rfl, hcount.symm.le⟩

end Machine

namespace Sys

section

variable {s s' : Sys} {own own' : Slot → Option Nat} {wr : Slot → Bool} {p n : Nat} {vmm vmm' : Vmm}
  {va : Word}

theorem Booted.freeCount (h : Booted s) : s.machine.mm.freeCount = s.machine.mm.pages := by
  obtain ⟨mm, hboot, hinit, -⟩ := h.memory
  obtain ⟨mm', b, he, -, -, href, -⟩ := hboot.initFreeArea
  obtain rfl : mm' = s.machine.mm := some.inj (he.symm.trans hinit)
  rw [Mm.freeCount, Finset.filter_true_of_mem fun n hn => href n (Finset.mem_range.mp hn), Finset.card_range]

theorem Inv.freeCount_pos (h : Inv s own wr) (hn : n < s.machine.mm.pages) (hu : ∀ u, own u ≠ some n) :
    0 < s.machine.mm.freeCount := by
  refine Finset.card_pos.mpr ⟨n, Finset.mem_filter.mpr ⟨Finset.mem_range.mpr hn, ?_⟩⟩
  apply eq_of_toNat_eq
  rw [h.owned.holds.counted n hn, h.owned.holds.finite.eq_zero_iff.mpr hu]
  rfl

theorem Inv.fork_idle (h : Inv s own wr) (hroom : 0 < s.machine.mm.freeCount) {c : Nat} (hc : c ≠ 0)
    (hp : s.procs c = none) (hz : s.zombies c = none) :
    ∃ m' addr own' wr', s.next (.fork 0 c) = some (s.setProc c m' ⟨[], addr⟩) ∧
      Inv (s.setProc c m' ⟨[], addr⟩) own' wr' ∧ (∀ u, u ≠ .dir c → own' u = own u) ∧
      m'.mm.freeCount + 1 = s.machine.mm.freeCount := by
  obtain ⟨r, ha, hcount⟩ := h.owned.allocPage_some hroom
  obtain ⟨d, hpa, haddr, hlt, hnew, hown, hfix, hmem⟩ := h.owned.allocPage ha h.spare (by simp) (by simp)
  generalize hm : r.1.fill (va2pa r.2) (r.1.mem (va2pa s.kernelPgDir)) = m'
  have hzero : ∀ k < userPtrsPerPgd, m'.entry (va2pa s.kernelPgDir) k = 0 := by
    intro k hk
    rw [entry_congr (m := s.machine), h.idlePde k hk]
    rw [← hm, fill_mem_of_ne _ (hpa ▸ (h.idleDir d hlt).symm), hmem]
  have hcopy : s.machine.copyPageTable s.kernelPgDir = some (m', r.2) := by
    unfold Machine.copyPageTable
    rw [ha]
    simp only [hm]
    have hskip : m'.copyTables s.kernelPgDir r.2 (userPtrsPerPgd + 0) 0 = some m' :=
      copyTables_skip fun k _ hk => hzero k (by simpa using hk)
    rw [show m'.copyTables s.kernelPgDir r.2 userPtrsPerPgd 0 = some m' from hskip, map_some]
  have hstep : s.fork 0 c = some (s.setProc c m' ⟨[], r.2⟩) := by simp [Sys.fork, hc, hp, hz, hcopy]
  have hunused := h.unused hp hz
  have hv : Source s own wr 0 ⟨[], s.kernelPgDir⟩ := h.source (by simp)
  obtain ⟨own', d', hd', hf⟩ := copyPageTable_spec h.owned hv.walks hc.symm hv.dir hunused hcopy
  dsimp only at hd' hf
  refine ⟨m', r.2, own', _, by rw [Sys.next, Sys.step, hstep]; rfl, hd' ▸ h.forked hv hc.symm hc hz hf,
    fun u hu => ?_, by rw [← hm]; exact hcount⟩
  by_cases htab : ∃ k, u = .table c k
  · obtain ⟨k, rfl⟩ := htab
    rw [hunused.2.1]
    by_cases hk : k < userPtrsPerPgd
    · have hpde := hf.newPde k hk
      rw [if_pos hk] at hpde
      have hentry : m'.entry (m'.page d') k = 0 := by
        rw [← h.idlePde k hk, page_of_fixed hf.fixed, Machine.page, ← hd', Machine.entry,
          Machine.entry, ← hm, fill_mem_self, hmem]
      cases ht : own' (.table c k) with
      | none => rfl
      | some t =>
        have hpres := pdeOf_and_pteP hf.owned.layout (hf.owned.holds.inside _ _ ht)
        rw [← ht, ← hpde, hentry] at hpres
        exact absurd (by decide) hpres
    · exact (hf.todo k (by omega)).1
  · by_cases huser : ∃ i j, u = .user c i j
    · obtain ⟨i, j, rfl⟩ := huser
      rw [hf.child h.owned.shape, hunused.2.2]
      exact (h.not_live h.idle.1).2 i j
    · exact hf.keeps u hu (fun k hk => htab ⟨k, hk⟩) (fun i j hij => huser ⟨i, j, hij⟩)

structure Touches (s s' : Sys) (own own' : Slot → Option Nat) (wr' : Slot → Bool) (p : Nat) (va : Word)
    (n : Nat) : Prop where
  inv : Inv s' own' wr'
  touched : ∃ d t, own (.dir p) = some d ∧
    s.machine.Touched s'.machine own own' p d (pdIndex va) (ptIndex va) n t
  writable : wr' (.user p (pdIndex va) (ptIndex va)) = true
  count : s.machine.mm.freeCount ≤ s'.machine.mm.freeCount + 2
  bytes : ∀ b, 8 ≤ b → s'.machine.mem (s.machine.page n) b = s.machine.mem (s.machine.page n) b
  others : ∀ q, q ≠ p → s'.procs q = s.procs q
  zombies : s'.zombies = s.zombies

theorem Inv.goodArea_some (h : Inv s own wr) (hp : s.procs p = some vmm) (hva : va < kernelBase)
    (hu : own (.of p va) = none) (hroom : 0 < s.machine.mm.freeCount)
    (htab : 2 ≤ s.machine.mm.freeCount ∨ own (.table p (pdIndex va)) ≠ none) (he : Extends vmm vmm')
    (hnew : PageIn vmm'.areas va)
    {vma : VmArea} (hstart : vma.start ≤ va) (write : Bool) (junk : Nat → Byte) :
    ∃ m' own' wr' n, s.machine.goodArea vmm.pgDir vma va false write junk = some m' ∧
      Touches s (s.setProc p m' vmm') own own' wr' p va n := by
  obtain ⟨d, hd, hpg⟩ := h.dir_eq hp
  obtain ⟨r, ha, hcount⟩ := h.owned.allocPage_some hroom
  obtain ⟨n, hpa, -, hlt, hfresh, hown, hfix, hmem⟩ := h.owned.allocPage ha h.spare (by simp) (by simp)
  have hdn : va2pa vmm.pgDir ≠ va2pa r.2 := by
    rw [hpg, hpa]
    intro heq
    exact hfresh _ (page_inj h.owned.layout (h.owned.holds.inside _ _ hd) hlt heq ▸ hd)
  generalize hm2 : r.1.fill (va2pa r.2) (r.1.recycled (va2pa r.2) junk) = m2
  have hown2 : m2.Owned (Function.update own .spare (some n)) := hown.of_eq (by rw [← hm2]; rfl)
  have hcount2 : m2.mm.freeCount = r.1.mm.freeCount := by rw [← hm2]; rfl
  have hdir : m2.mem (va2pa vmm.pgDir) = s.machine.mem (va2pa vmm.pgDir) := by
    rw [← hm2, fill_mem_of_ne _ hdn, hmem]
  have htable : m2.entry (va2pa vmm.pgDir) (pdIndex va) &&& pteP ≠ 0 ∨ 0 < m2.mm.freeCount := by
    refine htab.symm.imp (fun ht => ?_) (fun h2 => by omega)
    obtain ⟨t, ht⟩ := ne_none_iff_exists'.mp ht
    rw [entry_congr hdir, (h.walks p vmm hp).pde _ (pdIndex_lt hva), ht]
    exact pdeOf_and_pteP h.owned.layout (h.owned.holds.inside _ _ ht)
  obtain ⟨tab, hr, hle⟩ := hown2.tableOf_some htable
  have hmask := and_pageMask_lt hva
  have hmap : ∃ m', m2.mapPages vmm.pgDir (va &&& pageMask) (va2pa r.2) pageSize (pteW ||| pteU) = some m' ∧
      m'.mm = tab.1.mm := by
    rw [mapPages_page hmask, pdIndex_and, hr]
    exact ⟨_, rfl, rfl⟩
  obtain ⟨m', hmap, hmm⟩ := hmap
  have hgood : s.machine.goodArea vmm.pgDir vma va false write junk = some m' := by
    rw [Machine.goodArea, if_pos hstart, ha]
    simp only [Bool.false_eq_true, if_false, hm2]
    exact hmap
  rw [← hm2] at hmap
  obtain ⟨own', k, t, ht, hw, hpa', hbytes, -⟩ := h.owned.firstTouch h.spare (h.walks p vmm hp) hd hpg hmask
    (by rw [Slot.of_and, hu]) ha hmap
  rw [pdIndex_and, ptIndex_and] at ht
  rw [Slot.of_and] at hw
  refine ⟨m', own', _, k, hgood, h.touched hp hd ht hw he.pgDir he.areas he.covers hnew, ⟨d, t, hd, ht⟩,
    Function.update_self _ _ _, ?_, fun b hb => ?_, fun q hq => setProc_of_ne hq, rfl⟩
  · show s.machine.mm.freeCount ≤ m'.mm.freeCount + 2
    rw [hmm]
    omega
  · show m'.mem (s.machine.page k) b = _
    rw [hbytes, Machine.recycled, if_neg (by omega), hmem, hpa']

theorem Inv.touch (h : Inv s own wr) (hp : s.procs p = some vmm)
    (hu : own (.of p va) = none) (hroom : 0 < s.machine.mm.freeCount)
    (htab : 2 ≤ s.machine.mm.freeCount ∨ own (.table p (pdIndex va)) ≠ none) {vma : VmArea}
    (hf : findVma vmm.areas va = some vma) (hgrow : vma.start ≤ va ∨ vma.flags &&& vmStack ≠ 0) :
    ∃ s' own' wr' n, s.next (.fault p va true true false 0 fun _ => 0) = some s' ∧
      Touches s s' own own' wr' p va n ∧ s'.procs p = some
        (if vma.start > va then { vmm with areas := expandStack va vmm.areas } else vmm) := by
  have hareas := h.areas p vmm hp
  have hva := hareas.findVma_user hf
  have hw := h.walks p vmm hp
  have hno : ¬(s.machine.translate vmm.pgDir va true).isSome := by
    rw [hw.translate h.owned hva, hu]
    simp
  have habs : present s.machine vmm.pgDir va = false := by
    rw [hw.present h.owned hva, hu]
    rfl
  by_cases hlow : vma.start > va
  · obtain ⟨h1, h2, h3⟩ := hareas.expandStack hf hlow
    have hflags := hgrow.resolve_left (by rw [BitVec.not_le]; exact hlow)
    have hmask := toNat_and_pageMask va
    have hle : { vma with start := va &&& pageMask }.start ≤ va := by
      show (va &&& pageMask) ≤ va
      rw [le_def]
      omega
    have hext : Extends vmm { vmm with areas := expandStack va vmm.areas } := ⟨rfl, h1, h2⟩
    obtain ⟨m', own', wr', n, hm, ht⟩ :=
      h.goodArea_some hp hva hu hroom htab hext h3 hle true (fun _ => 0)
    refine ⟨_, own', wr', n, ?_, ht, ?_⟩
    · have hesp : va + 32 ≥ (0 : Word) := by simp [le_def]
      simp only [Sys.next, Sys.step, hp, bind_some, if_neg hno, if_pos hva, habs, Sys.fault, hf,
        if_pos hlow]
      rw [if_pos ⟨trivial, hflags, hesp⟩, hm]
      rfl
    · rw [if_pos hlow, setProc_self]
  · rw [gt_iff_lt, BitVec.not_lt] at hlow
    obtain ⟨m', own', wr', n, hm, ht⟩ := h.goodArea_some hp hva hu hroom htab
      ⟨rfl, hareas, fun _ hx => hx⟩ (hareas.covered_page hf hlow) hlow true (fun _ => 0)
    have hlow' : ¬vma.start > va := by rw [gt_iff_lt, BitVec.not_lt]; exact hlow
    refine ⟨_, own', wr', n, ?_, ht, ?_⟩
    · simp only [Sys.next, Sys.step, hp, Option.bind_some, if_neg hno, if_pos hva, habs, Sys.fault, hf,
        if_neg hlow', hm]
      rfl
    · rw [if_neg hlow', setProc_self]

def stackPage : Word := 0xbffff000#32

def spawn (c : Nat) : List VmAct :=
  [.fork 0 c, .initUserStack c true, .fault c stackPage true true false 0 fun _ => 0]

structure Spawned (s s' : Sys) (own own' : Slot → Option Nat) (wr' : Slot → Bool) (c : Nat) : Prop where
  inv : Inv s' own' wr'
  proc : ∃ dir, s'.procs c = some ⟨[stackArea], dir⟩
  user : own' (.user c 767 1023) ≠ none
  writable : wr' (.user c 767 1023) = true
  table : own' (.table c 767) ≠ none
  slots : ∀ u, u ≠ .dir c → u ≠ .table c 767 → u ≠ .user c 767 1023 → own' u = own u
  count : s.machine.mm.freeCount ≤ s'.machine.mm.freeCount + 3
  others : ∀ q, q ≠ c → s'.procs q = s.procs q
  zombies : s'.zombies = s.zombies

theorem Inv.spawn (h : Inv s own wr) (hroom : 3 ≤ s.machine.mm.freeCount) {c : Nat} (hc : c ≠ 0)
    (hp : s.procs c = none) (hz : s.zombies c = none) :
    ∃ s' own' wr', run Sys.next s (Sys.spawn c) = some s' ∧ Spawned s s' own own' wr' c := by
  obtain ⟨m1, dir, own1, wr1, hfork, h1, hslots1, hcount1⟩ := h.fork_idle (by omega) hc hp hz
  have hstack := stackArea_ok
  have hinit : insertVma [] stackArea = some [stackArea] := by decide
  have hext : Extends ⟨[], dir⟩ ⟨[stackArea], dir⟩ := ⟨rfl, hstack, fun x ⟨a, ha, _⟩ => by simp at ha⟩
  have h2 := h1.setAreas setProc_self hext
  have hstep2 : (s.setProc c m1 ⟨[], dir⟩).next (.initUserStack c true) =
      some ((s.setProc c m1 ⟨[], dir⟩).setProc c m1 ⟨[stackArea], dir⟩) := by
    simp only [Sys.next, Sys.step, setProc_self, map_some, Sys.initUserStack, if_true, hinit, getD_some]
    rfl
  have hidx : pdIndex stackPage = 767 ∧ ptIndex stackPage = 1023 := by decide
  have hnone : own1 (.user c (pdIndex stackPage) (ptIndex stackPage)) = none := by
    rw [hslots1 _ (by simp), (h.not_live hp).2]
  obtain ⟨s3, own3, wr3, n, hstep3, ht, hproc⟩ := h2.touch setProc_self hnone
    (by show 0 < m1.mm.freeCount; omega) (Or.inl (by show 2 ≤ m1.mm.freeCount; omega))
    (show findVma [stackArea] stackPage = some stackArea by decide) (Or.inl (by decide))
  rw [if_neg (by decide)] at hproc
  obtain ⟨d, t, hd, htouch⟩ := ht.touched
  rw [hidx.1, hidx.2] at htouch
  refine ⟨s3, own3, wr3, run_step hfork (run_step hstep2 (run_step hstep3 (run_nil _))), ht.inv, ⟨dir, hproc⟩,
    by simp [htouch.user], ?_, by simp [htouch.table], fun u hd ht hu => ?_, ?_, fun q hq => ?_, ?_⟩
  · have := ht.writable
    rwa [hidx.1, hidx.2] at this
  · rw [htouch.slots u ht hu, hslots1 u hd]
  · have hle : m1.mm.freeCount ≤ s3.machine.mm.freeCount + 2 := ht.count
    omega
  · rw [ht.others q hq, setProc_of_ne hq, setProc_of_ne hq]
  · rw [ht.zombies]
    rfl

/-- A machine as it boots, with cleared memory and the idle directory below the memory it manages. -/
def bootSys (mm : Mm) : Sys :=
  ⟨⟨mm, fun _ _ => 0⟩, fun _ => none, fun _ => none, fun _ => false, kernelBase⟩

theorem smallMem_booted : ∃ mm, Clients.smallMem.initFreeArea = some mm ∧ Booted (bootSys mm) ∧
    128 ≤ mm.pages := by
  obtain ⟨mm, b, he, hok, -, -, hbig, -⟩ := Clients.smallMem_bootMem.initFreeArea
  refine ⟨mm, he, ⟨⟨_, Clients.smallMem_bootMem, he, show kernelBase ≤ kernelBase by decide,
    show kernelBase < Clients.smallMem.memStart by decide⟩, fun _ => rfl, fun _ => rfl, fun _ => rfl,
    fun i _ => getWord_zero _⟩, ?_⟩
  exact Nat.le_of_dvd (hbig 0 (by decide)) hok.layout.pages_dvd

theorem smallMem_room : ∃ mm, Clients.smallMem.initFreeArea = some mm ∧ Booted (bootSys mm) ∧
    128 ≤ (bootSys mm).machine.mm.freeCount := by
  obtain ⟨mm, hinit, hboot, hpages⟩ := smallMem_booted
  refine ⟨mm, hinit, hboot, ?_⟩
  rw [hboot.freeCount]
  exact hpages

theorem smallMem_spawned : ∃ mm s own wr, Clients.smallMem.initFreeArea = some mm ∧ Booted (bootSys mm) ∧
    128 ≤ (bootSys mm).machine.mm.freeCount ∧ BabyOS.run next (bootSys mm) (spawn 1) = some s ∧
      Spawned (bootSys mm) s (fun _ => none) own wr 1 := by
  obtain ⟨mm, hinit, hboot, hroom⟩ := smallMem_room
  obtain ⟨s, own, wr, hrun, hs⟩ := hboot.inv.spawn (c := 1) (by omega) (by decide) rfl rfl
  exact ⟨mm, s, own, wr, hinit, hboot, hroom, hrun, hs⟩

theorem Inv.fork_some (h : Inv s own wr) (hp : s.procs p = some vmm) (hroom : 2 ≤ s.machine.mm.freeCount)
    (honly : ∀ k, Slot.table p k ≠ .table p 767 → own (.table p k) = none) {c : Nat} (hc : c ≠ 0)
    (hpc : s.procs c = none) (hzc : s.zombies c = none) : ∃ s', s.next (.fork p c) = some s' := by
  have hp0 : p ≠ 0 := by
    rintro rfl
    cases h.idle.1.symm.trans hp
  obtain ⟨d, hd, hpg⟩ := h.dir_eq hp
  obtain ⟨r, ha, hcount⟩ := h.owned.allocPage_some (by omega)
  obtain ⟨k, hpa, -, hlt, hnew, hown, -, hmem⟩ := h.owned.allocPage ha h.spare (by simp) (by simp)
  generalize hm : r.1.fill (va2pa r.2) (r.1.mem (va2pa vmm.pgDir)) = m
  have hownm : m.Owned (Function.update own .spare (some k)) := hown.of_eq (by rw [← hm]; rfl)
  have hcountm : m.mm.freeCount = r.1.mm.freeCount := by rw [← hm]; rfl
  have hdir : va2pa vmm.pgDir ≠ va2pa r.2 := by
    rw [hpg, hpa]
    intro he
    exact hnew _ (page_inj h.owned.layout (h.owned.holds.inside _ _ hd) hlt he ▸ hd)
  have hentry : ∀ l, m.entry (va2pa vmm.pgDir) l = s.machine.entry (va2pa vmm.pgDir) l := by
    intro l
    refine entry_congr ?_
    rw [← hm, fill_mem_of_ne _ hdir, hmem]
  have hzero : ∀ l, 0 ≤ l → l < 0 + 767 → m.entry (va2pa vmm.pgDir) l = 0 := by
    intro l _ hl
    rw [hentry, (h.walks p vmm hp).pde l (by unfold userPtrsPerPgd; omega), honly l (by simp; omega)]
    rfl
  have hcopy : ∃ m', m.copyTables vmm.pgDir r.2 userPtrsPerPgd 0 = some m' := by
    rw [show userPtrsPerPgd = 767 + 1 from rfl, copyTables_skip hzero, copyTables]
    split_ifs with hpres
    · exact ⟨m, rfl⟩
    · obtain ⟨r', ha', -⟩ := hownm.allocPage_some (by omega)
      rw [ha']
      exact ⟨_, rfl⟩
  obtain ⟨m', hcopy⟩ := hcopy
  have hpt : s.machine.copyPageTable vmm.pgDir = some (m', r.2) := by
    unfold copyPageTable
    rw [ha]
    simp only [hm]
    rw [hcopy, map_some]
  refine ⟨s.setProc c m' ⟨vmm.areas, r.2⟩, ?_⟩
  simp [Sys.next, Sys.step, Sys.fork, hp0, hp, hc, hpc, hzc, hpt]

/-- A process with a page of its own and a process that it has forked, which shares the page. -/
theorem smallMem_forked : ∃ mm s, Clients.smallMem.initFreeArea = some mm ∧ Booted (bootSys mm) ∧
    BabyOS.run next (bootSys mm) (spawn 1 ++ [.fork 1 2]) = some s := by
  obtain ⟨mm, s, own, wr, hinit, hboot, hroom, hrun, hs⟩ := smallMem_spawned
  have hcount := hs.count
  obtain ⟨dir, hp⟩ := hs.proc
  obtain ⟨t, hfork⟩ := hs.inv.fork_some hp (by omega) (fun k hk => hs.slots _ (by simp) hk (by simp)) (c := 2) (by decide)
    (hs.others 2 (by decide)) (by rw [hs.zombies]; rfl)
  exact ⟨mm, t, hinit, hboot, (run_append hrun).trans (run_step hfork (run_nil _))⟩

end

end Sys

end BabyOS
