import BabyOS.VmProgress

open Function BitVec Option

namespace BabyOS

open Machine

namespace Sys

section

variable {s s' : Sys} {own own' : Slot → Option Nat} {wr wr' : Slot → Bool} {p n : Nat} {vmm : Vmm}
  {va : Word}

def nextBeside (x : Sys × Views) (a : VmAct) : Option (Sys × Views) :=
  (x.1.step a).map fun r => (r.1, x.2.after r.2)

theorem Inv.load_eq (h : Inv s own wr) (p : Nat) (va : Word) :
    s.load p va = (s.views own p (pdIndex va) (ptIndex va)).map fun bytes => bytes (pageOffset va) := by
  cases hp : s.procs p with
  | none => rw [load, hp, views, (h.not_live hp).2]; rfl
  | some vmm =>
    rw [load, hp, bind_some, views]
    by_cases hva : va < kernelBase
    · rw [(h.walks p vmm hp).translate h.owned hva]
      cases own (.of p va) with
      | none => rfl
      | some n => simp
    · have hge : va ≥ kernelBase := by rwa [BitVec.not_lt] at hva
      have hnone : own (.of p va) = none := by
        cases hu : own (.of p va) with
        | none => rfl
        | some n =>
          obtain ⟨t, ht⟩ := h.owned.shape.backed _ _ _ _ hu
          have hlt := h.owned.shape.table_lt _ _ _ ht
          have hk := toNat_kernelBase
          rw [ge_iff_le, le_def] at hge
          rw [pdIndex_eq, userPtrsPerPgd] at hlt
          omega
      rw [hnone, Machine.translate, if_pos hge]
      rfl

theorem Inv.fault_enables_store (h : Inv s own wr) (hp : s.procs p = some vmm) {vma : VmArea}
    (hf : findVma vmm.areas va = some vma) (hstart : vma.start ≤ va) (hflag : vma.flags &&& vmWrite ≠ 0)
    {user kernelPresent : Bool} {esp : Word} {junk : Nat → Byte}
    (hs : s.next (.fault p va true user kernelPresent esp junk) = some s') (b : Byte) :
    (s'.store p va b).isSome := by
  obtain ⟨d, hd, hpg⟩ := h.dir_eq hp
  have hareas := h.areas p vmm hp
  have hva := hareas.findVma_user hf
  have hw := h.walks p vmm hp
  have hlow : ¬vma.start > va := by rw [gt_iff_lt, BitVec.not_lt]; exact hstart
  have hdone : ∀ {m' : Machine} {page}, m'.translate vmm.pgDir va true = some page →
      ((s.setProc p m' vmm).store p va b).isSome := by
    intro m' page ht
    have ht' : (s.setProc p m' vmm).machine.translate vmm.pgDir va true = some page := ht
    rw [Sys.store, setProc_self, bind_some, ht']
    rfl
  obtain ⟨⟨t, e⟩, hstep, rfl⟩ := map_eq_some_iff.mp hs
  rw [Sys.step, hp, bind_some] at hstep
  split at hstep
  next => simp at hstep
  next hno =>
  simp only [Sys.fault, hf, if_neg hlow] at hstep
  obtain ⟨m', hm, he⟩ := map_eq_some_iff.mp hstep
  cases he
  rw [hw.present h.owned hva, Machine.goodArea, if_pos hstart] at hm
  cases hu : own (.of p va) with
  | none =>
    simp only [hu, isSome_none, Bool.false_eq_true, if_false] at hm
    cases ha : s.machine.allocPage with
    | none => simp [ha] at hm
    | some r =>
      rw [ha] at hm
      obtain ⟨-, ht, -⟩ := h.firstTouch hp (and_pageMask_lt hva)
        (by rw [Slot.of_and, hu]) ⟨rfl, hareas, fun _ hx => hx⟩
        (by rw [PageIn, pdIndex_and, ptIndex_and]; exact hareas.covered_page hf hstart) ha hm
      exact hdone ((translate_and hva m' _ true).symm.trans (ht true))
  | some n =>
    have hn := h.owned.holds.inside _ _ hu
    simp only [hu, isSome_some, if_true] at hm
    have hpa : s.machine.va2paOf vmm.pgDir va ≠ -1 := by
      rw [hw.va2paOf h.owned hva, hu]
      intro he
      have hmask := page_add_and_pageMask h.owned.layout hn va
      dsimp only at he
      rw [he] at hmask
      have hlt := toNat_page h.owned.layout hn
      have hend := h.owned.layout.end_of_pages hn
      have hk := toNat_kernelBase
      rw [← hmask, show ((-1 : Word) &&& pageMask).toNat = 4294963200 by decide] at hlt
      omega
    unfold Machine.doProtectionFault at hm
    simp only [if_neg hpa, hflag, and_false, if_false] at hm
    split at hm
    next =>
      cases hm
      obtain ⟨t, -, hmm, -, hw'⟩ := hw.makePteWrite h.owned hd hpg hva hu
      refine hdone (show _ = some ((s.machine.makePteWrite vmm.pgDir va).page n) from ?_)
      rw [hw'.translate (h.owned.of_eq hmm) hva, hu]
      simp
    next =>
      cases ha : s.machine.allocPage with
      | none => simp [ha] at hm
      | some r =>
        rw [ha] at hm
        obtain ⟨own', k, t, ht, hw', -⟩ := h.owned.copyOnWrite h.spare hw hd hpg hva hu ha hm
        refine hdone (show _ = some (m'.page k) from ?_)
        rw [hw'.translate ht.owned hva, ht.user]
        simp

/-- After every fitting run a load returns the byte of the model in which a fork copies all pages, a store
changes the page of one process and a page first touched has the bytes it came with; and a write that faults in
an area with the write flag goes through. -/
theorem loads_as_private_pages {s0 : Sys} {v : Views} {acts : List VmAct} (hboot : Booted s0)
    (hfit : Along nextBeside (fun x a => x.1.Fits a) (s0, fun _ _ _ => none) acts)
    (hrun : run nextBeside (s0, fun _ _ _ => none) acts = some (s, v)) :
    (∀ p va, s.load p va = (v p (pdIndex va) (ptIndex va)).map fun bytes => bytes (pageOffset va)) ∧
    ∀ p vmm va vma user kernelPresent esp junk s', s.procs p = some vmm → findVma vmm.areas va = some vma →
      vma.start ≤ va → vma.flags &&& vmWrite ≠ 0 →
      s.next (.fault p va true user kernelPresent esp junk) = some s' → ∀ b, (s'.store p va b).isSome := by
  have hinv : ∃ own wr, Inv s own wr ∧ s.views own = v := by
    refine run_invariant (I := fun x : Sys × Views => ∃ own wr, Inv x.1 own wr ∧ x.1.views own = x.2) ?_
      ⟨_, _, hboot.inv, rfl⟩ hfit hrun
    rintro ⟨s, v⟩ a x ⟨own, wr, h, hv⟩ hf hs
    obtain ⟨⟨t, e⟩, hstep, rfl⟩ := map_eq_some_iff.mp hs
    obtain ⟨own', wr', h', hv'⟩ := h.step hf hstep
    exact ⟨own', wr', h', hv'.trans (by rw [hv])⟩
  obtain ⟨own, wr, h, rfl⟩ := hinv
  exact ⟨h.load_eq, fun p vmm va vma user kernelPresent esp junk s' hp hf hstart hflag hs b =>
    h.fault_enables_store hp hf hstart hflag hs b⟩

theorem run_beside {acts : List VmAct} (h : run next s acts = some s') (v : Views) :
    ∃ v', run nextBeside (s, v) acts = some (s', v') := by
  induction acts generalizing s v with
  | nil =>
    cases some.inj h
    exact ⟨v, rfl⟩
  | cons a acts ih =>
    obtain ⟨t, ht, hr⟩ := run_cons h
    obtain ⟨⟨t', e⟩, hstep, rfl⟩ := map_eq_some_iff.mp ht
    obtain ⟨v', hv'⟩ := ih hr (v.after e)
    refine ⟨v', run_step (t := (t', v.after e)) ?_ hv'⟩
    rw [nextBeside, hstep]
    rfl

theorem loads_as_private_pages_fork : ∃ mm s v, Clients.smallMem.initFreeArea = some mm ∧
    run nextBeside (bootSys mm, fun _ _ _ => none) (spawn 1 ++ [.fork 1 2]) = some (s, v) ∧
    ∀ p va, s.load p va = (v p (pdIndex va) (ptIndex va)).map fun bytes => bytes (pageOffset va) := by
  obtain ⟨mm, s, hinit, hboot, hrun⟩ := smallMem_forked
  obtain ⟨v, hv⟩ := run_beside hrun fun _ _ _ => none
  have hfit : Along nextBeside (fun x a => x.1.Fits a) (bootSys mm, fun _ _ _ => none) (spawn 1 ++ [.fork 1 2]) :=
    ⟨trivial, fun _ _ => ⟨trivial, fun _ _ => ⟨trivial, fun _ _ => ⟨trivial, fun _ _ => trivial⟩⟩⟩⟩
  exact ⟨mm, s, v, hinit, hv, (loads_as_private_pages hboot hfit hv).1⟩

theorem Inv.kallocs (h : Inv s own wr) (n : Nat) (hn : s.machine.mm.freeCount = n) :
    ∃ s' own', run Sys.next s (List.replicate n VmAct.kalloc) = some s' ∧ Inv s' own' wr ∧
      s'.machine.mm.freeCount = 0 ∧ (∀ u, (∀ k, u ≠ .kernel k) → own' u = own u) ∧
      s'.procs = s.procs ∧ s'.zombies = s.zombies := by
  induction n generalizing s own with
  | zero => exact ⟨s, own, rfl, h, hn, fun _ _ => rfl, rfl, rfl⟩
  | succ n ih =>
    obtain ⟨r, ha, hcount⟩ := h.owned.allocPage_some (by omega)
    have hk : s.kalloc = some { s with
        machine := r.1
        kernelPages := update s.kernelPages r.2 true } := by
      rw [Sys.kalloc, ha, map_some]
    obtain ⟨k, h1, -⟩ := h.kalloc hk
    obtain ⟨s', own', hrun, hinv, hzero, hslots, hprocs, hzombies⟩ := ih h1 (by dsimp only; omega)
    refine ⟨s', own', ?_, hinv, hzero, fun u hu => ?_, hprocs, hzombies⟩
    · rw [List.replicate_succ]
      refine run_step ?_ hrun
      rw [Sys.next, Sys.step, hk]
      rfl
    · rw [hslots u hu, update_of_ne (hu k)]

/-- Two processes with a stack of one page on a machine without a free page. -/
structure Full (s : Sys) (own : Slot → Option Nat) (wr : Slot → Bool) : Prop where
  inv : Inv s own wr
  full : s.machine.mm.freeCount = 0
  proc1 : ∃ dir, s.procs 1 = some ⟨[stackArea], dir⟩
  proc2 : ∃ dir, s.procs 2 = some ⟨[stackArea], dir⟩
  user1 : own (.user 1 767 1023) ≠ none
  writable1 : wr (.user 1 767 1023) = true
  onlyUser1 : ∀ i j, Slot.user 1 i j ≠ .user 1 767 1023 → own (.user 1 i j) = none
  onlyTable1 : ∀ k, Slot.table 1 k ≠ .table 1 767 → own (.table 1 k) = none
  table2 : own (.table 2 767) ≠ none
  onlyUser2 : ∀ i j, Slot.user 2 i j ≠ .user 2 767 1023 → own (.user 2 i j) = none

def crowd (n : Nat) : List VmAct := spawn 2 ++ (spawn 1 ++ List.replicate n .kalloc)

theorem Booted.full (h : Booted s) (hpages : 128 ≤ s.machine.mm.pages) :
    ∃ n s' own wr, BabyOS.run next s (crowd n) = some s' ∧ Full s' own wr := by
  have hcount := h.freeCount
  obtain ⟨s1, own1, wr1, hrun1, h1⟩ := h.inv.spawn (c := 2) (by omega) (by decide) (h.procs 2) (h.zombies 2)
  have hc1 := h1.count
  obtain ⟨s2, own2, wr2, hrun2, h2⟩ := h1.inv.spawn (c := 1) (by omega) (by decide)
    ((h1.others 1 (by decide)).trans (h.procs 1)) (by rw [h1.zombies, h.zombies])
  obtain ⟨s3, own3, hrun3, hinv, hfull, hslots, hprocs, -⟩ := h2.inv.kallocs _ rfl
  have hown : ∀ u, (∀ k, u ≠ .kernel k) → own3 u = own2 u := hslots
  have hnone : ∀ u, u ≠ .dir 1 → u ≠ .table 1 767 → u ≠ .user 1 767 1023 → u ≠ .dir 2 → u ≠ .table 2 767 →
      u ≠ .user 2 767 1023 → own2 u = none := by
    intro u a1 a2 a3 b1 b2 b3
    rw [h2.slots u a1 a2 a3, h1.slots u b1 b2 b3]
  refine ⟨s2.machine.mm.freeCount, s3, own3, wr2, ?_, hinv, hfull, ?_, ?_, ?_, h2.writable, fun i j hij => ?_,
    fun k hk => ?_, ?_, fun i j hij => ?_⟩
  · rw [crowd, run_append hrun1, run_append hrun2, hrun3]
  · rw [hprocs]
    exact h2.proc
  · rw [hprocs, h2.others 2 (by decide)]
    exact h1.proc
  · rw [hown _ (by simp)]
    exact h2.user
  · rw [hown _ (by simp)]
    exact hnone _ (by simp) (by simp) hij (by simp) (by simp) (by simp)
  · rw [hown _ (by simp)]
    exact hnone _ (by simp) hk (by simp) (by simp) (by simp) (by simp)
  · rw [hown _ (by simp), h2.slots _ (by simp) (by simp) (by simp)]
    exact h1.table
  · rw [hown _ (by simp)]
    exact hnone _ (by simp) (by simp) (by simp) (by simp) (by simp) hij

/-- A page that process 1 wrote to and gave back when it left: `a` is that page and `t` the other
one that is free. -/
structure Leaving (s : Sys) (own : Slot → Option Nat) (wr : Slot → Bool) (b : Byte) (a t : Nat) : Prop where
  inv : Inv s own wr
  proc2 : ∃ dir, s.procs 2 = some ⟨[stackArea], dir⟩
  inside : a < s.machine.mm.pages ∧ t < s.machine.mm.pages
  ne : a ≠ t
  free : ∀ n < s.machine.mm.pages, (∀ u, own u ≠ some n) ↔ n = a ∨ n = t
  byte : s.machine.mem (s.machine.page a) 100 = b
  table2 : own (.table 2 767) ≠ none
  onlyUser2 : ∀ i j, Slot.user 2 i j ≠ .user 2 767 1023 → own (.user 2 i j) = none

theorem Full.leave (h : Full s own wr) (b : Byte) :
    ∃ s' own' a t, run next s [.store 1 (stackPage + 100) b, .exit 1] = some s' ∧
      Leaving s' own' wr b a t := by
  obtain ⟨dir, hp⟩ := h.proc1
  obtain ⟨dir2, hp2⟩ := h.proc2
  obtain ⟨a, ha⟩ := ne_none_iff_exists'.mp h.user1
  obtain ⟨t, ht⟩ := h.inv.owned.shape.backed _ _ _ _ ha
  obtain ⟨hi, hj, ho⟩ : pdIndex (stackPage + 100) = 767 ∧ ptIndex (stackPage + 100) = 1023 ∧
      pageOffset (stackPage + 100) = 100 := by decide
  have ha' : own (.user 1 (pdIndex (stackPage + 100)) (ptIndex (stackPage + 100))) = some a := by rw [hi, hj, ha]
  have hw' : wr (.user 1 (pdIndex (stackPage + 100)) (ptIndex (stackPage + 100))) = true := by
    rw [hi, hj, h.writable1]
  have htr : s.machine.translate dir (stackPage + 100) true = some (s.machine.page a) := by
    rw [(h.inv.walks 1 _ hp).translate h.inv.owned (by decide), ha', hw']
    simp
  generalize hbytes : update (s.machine.mem (s.machine.page a)) 100 b = bytes
  obtain ⟨h1, -⟩ := h.inv.fill hp ha' hw' bytes
  generalize hs1 : ({ s with machine := s.machine.fill (s.machine.page a) bytes } : Sys) = s1 at h1
  have hstore : s.next (.store 1 (stackPage + 100) b) = some s1 := by
    simp only [Sys.next, Sys.step, Sys.store, hp, bind_some, htr, map_some, ho, hbytes, hs1]
  have hp1 : s1.procs 1 = some ⟨[stackArea], dir⟩ := by rw [← hs1]; exact hp
  have hmem1 : s1.machine.mem (s.machine.page a) 100 = b := by
    rw [← hs1]
    show (s.machine.fill (s.machine.page a) bytes).mem (s.machine.page a) 100 = b
    rw [fill_mem_self, ← hbytes, update_self]
  have hfix1 : s1.machine.mm = s.machine.mm := by rw [← hs1]; rfl
  obtain ⟨m', own', hr, hinv, -, hnone, htab, hkeep, hfix, hmem⟩ := h1.release hp1
  have hbury := hinv.bury setProc_self hnone htab
  have hprocs : update (s1.setProc 1 m' { areas := [], pgDir := dir }).procs 1 none =
      update s1.procs 1 none := update_idem _ _ _
  rw [hprocs] at hbury
  have hexit : s1.next (.exit 1) = some { s1 with
      machine := m'
      procs := update s1.procs 1 none
      zombies := update s1.zombies 1 (some dir) } := by
    simp only [Sys.next, Sys.step, hp1, bind_some, Sys.exit, hr, map_some]
  have hfixed : m'.mm.fixed = s.machine.mm.fixed := by rw [hfix, hfix1]
  have hpages := Mm.pages_of_fixed hfixed
  have hpage := page_of_fixed hfixed
  have hat := h.inv.owned.page_ne ht ha rfl (by simp)
  refine ⟨_, own', a, t, run_step hstore (run_step hexit (run_nil _)), hbury, ⟨dir2, ?_⟩, ⟨?_, ?_⟩,
    fun he => hat (by rw [he]), fun n hn => ⟨fun hfree => ?_, fun hcase u hu => ?_⟩, ?_, ?_, fun i j hij => ?_⟩
  · show update s1.procs 1 none 2 = _
    rw [update_of_ne (by decide), ← hs1]
    exact hp2
  · show a < m'.mm.pages
    rw [hpages]
    exact h.inv.owned.holds.inside _ _ ha
  · show t < m'.mm.pages
    rw [hpages]
    exact h.inv.owned.holds.inside _ _ ht
  · obtain ⟨u, hu⟩ : ∃ u, own u = some n := by
      by_contra hno
      exact (h.inv.freeCount_pos (hn.trans_eq hpages) fun u hu => hno ⟨u, hu⟩).ne' h.full
    by_cases hu1 : ∃ k, u = .table 1 k
    · obtain ⟨k, rfl⟩ := hu1
      by_cases hk : Slot.table 1 k = .table 1 767
      · rw [hk, ht, Option.some.injEq] at hu
        exact Or.inr hu.symm
      · simp [h.onlyTable1 k hk] at hu
    · by_cases hu2 : ∃ i j, u = .user 1 i j
      · obtain ⟨i, j, rfl⟩ := hu2
        by_cases hij : Slot.user 1 i j = .user 1 767 1023
        · rw [hij, ha, Option.some.injEq] at hu
          exact Or.inl hu.symm
        · simp [h.onlyUser1 i j hij] at hu
      · refine absurd ?_ (hfree u)
        rw [hkeep u (fun k hk => hu1 ⟨k, hk⟩) (fun i j hij => hu2 ⟨i, j, hij⟩), hu]
  · have hback : own u = some n := by
      rw [← hkeep u, hu]
      · rintro k rfl
        simp [htab] at hu
      · rintro i j rfl
        simp [hnone] at hu
    rcases hcase with rfl | rfl
    · obtain rfl := h.inv.sole 1 767 1023 n ha h.writable1 u hback
      simp [hnone] at hu
    · obtain rfl := h.inv.owned.shape.alone (.table 1 767) u n rfl ht hback
      simp [htab] at hu
  · show m'.mem (m'.page a) 100 = b
    rw [hpage, hmem, hmem1]
    intro d hd
    rw [← page_of_fixed (show s1.machine.mm.fixed = s.machine.mm.fixed by rw [hfix1])]
    exact h1.owned.page_ne hd ha rfl (by simp)
  · rw [hkeep _ (by simp) (by simp)]
    exact h.table2
  · rw [hkeep _ (by simp) (by simp)]
    exact h.onlyUser2 i j hij

theorem touched_free {m m' : Machine} {d i j t x : Nat} (h : m.Touched m' own own' p d i j n t)
    (ht : own (.table p i) ≠ none) (hu : own (.user p i j) = none) :
    (∀ u, own' u ≠ some x) ↔ (∀ u, own u ≠ some x) ∧ x ≠ n := by
  obtain ⟨a, ha⟩ := ne_none_iff_exists'.mp ht
  obtain rfl : a = t := h.old a ha
  constructor
  · refine fun hx => ⟨fun u hux => ?_, fun he => hx _ (he ▸ h.user)⟩
    by_cases hu1 : u = .table p i
    · rw [hu1, ha] at hux
      exact hx _ (hux ▸ h.table)
    · by_cases hu2 : u = .user p i j
      · simp [hu2, hu] at hux
      · exact hx u ((h.slots u hu1 hu2).trans hux)
  · rintro ⟨hx, hne⟩ u hux
    by_cases hu1 : u = .table p i
    · rw [hu1, h.table] at hux
      exact hx _ (hux ▸ ha)
    · by_cases hu2 : u = .user p i j
      · rw [hu2, h.user, Option.some.injEq] at hux
        exact hne hux.symm
      · exact hx u ((h.slots u hu1 hu2).symm.trans hux)

theorem Inv.load_user (h : Inv s own wr) {i j : Nat} (hi : pdIndex va = i) (hj : ptIndex va = j)
    (hu : own (.user p i j) = some n) :
    s.load p va = some (s.machine.mem (s.machine.page n) (pageOffset va)) := by
  rw [h.load_eq, views, hi, hj, hu]
  rfl

def below (k : Word) : Word := stackPage - k * pageSize

theorem Leaving.seen {b : Byte} {a t : Nat} (h : Leaving s own wr b a t) :
    ∃ s', run next s [.fault 2 (below 1) true true false 0 fun _ => 0,
      .fault 2 (below 2) true true false 0 fun _ => 0] = some s' ∧
      (s'.load 2 (below 1 + 100) = some b ∨ s'.load 2 (below 2 + 100) = some b) := by
  obtain ⟨dir, hp⟩ := h.proc2
  obtain ⟨i1, j1, i2, j2⟩ : pdIndex (below 1) = 767 ∧ ptIndex (below 1) = 1022 ∧ pdIndex (below 2) = 767 ∧
      ptIndex (below 2) = 1021 := by decide
  obtain ⟨k1, l1, o1⟩ : pdIndex (below 1 + 100) = 767 ∧ ptIndex (below 1 + 100) = 1022 ∧
      pageOffset (below 1 + 100) = 100 := by decide
  obtain ⟨k2, l2, o2⟩ : pdIndex (below 2 + 100) = 767 ∧ ptIndex (below 2 + 100) = 1021 ∧
      pageOffset (below 2 + 100) = 100 := by decide
  have hu1 : own (.user 2 767 1022) = none := h.onlyUser2 _ _ (by simp)
  have hpagea : ∀ u x, own u = some x → s.machine.page a ≠ s.machine.page x := fun u x hx he =>
    (h.free a h.inside.1).mpr (Or.inl rfl) u
      (page_inj h.inv.owned.layout h.inside.1 (h.inv.owned.holds.inside u x hx) he ▸ hx)
  obtain ⟨s1, own1, wr1, n1, hstep1, h1, hproc1⟩ := h.inv.touch hp
    (show own (.user 2 (pdIndex (below 1)) (ptIndex (below 1))) = none by rw [i1, j1, hu1])
    (h.inv.freeCount_pos h.inside.1 ((h.free a h.inside.1).mpr (Or.inl rfl)))
    (Or.inr (by rw [i1]; exact h.table2)) (show findVma [stackArea] (below 1) = some stackArea by decide)
    (Or.inr (by decide))
  obtain ⟨d, t1, hd, hT1⟩ := h1.touched
  rw [i1, j1] at hT1
  have hpages := Mm.pages_of_fixed hT1.fixed
  have hpage := page_of_fixed hT1.fixed
  have hfree1 := fun x => touched_free (x := x) hT1 h.table2 hu1
  have hn1 : n1 = a ∨ n1 = t :=
    (h.free n1 (by rw [← hpages]; exact h1.inv.owned.holds.inside _ _ hT1.user)).mp hT1.fresh
  have hroom : ∃ x, x < s1.machine.mm.pages ∧ ∀ u, own1 u ≠ some x := by
    rcases hn1 with rfl | rfl
    · exact ⟨t, hpages.symm ▸ h.inside.2, (hfree1 t).mpr ⟨(h.free t h.inside.2).mpr (Or.inr rfl), h.ne.symm⟩⟩
    · exact ⟨a, hpages.symm ▸ h.inside.1, (hfree1 a).mpr ⟨(h.free a h.inside.1).mpr (Or.inl rfl), h.ne⟩⟩
  obtain ⟨x, hx, hxfree⟩ := hroom
  have hu2 : own1 (.user 2 767 1021) = none := by
    rw [hT1.slots _ (by simp) (by simp)]
    exact h.onlyUser2 _ _ (by simp)
  have ht1 : own1 (.table 2 767) ≠ none := by simp [hT1.table]
  rw [if_pos (by decide)] at hproc1
  obtain ⟨s2, own2, wr2, n2, hstep2, h2, -⟩ := h1.inv.touch hproc1
    (show own1 (.user 2 (pdIndex (below 2)) (ptIndex (below 2))) = none by rw [i2, j2, hu2])
    (h1.inv.freeCount_pos hx hxfree) (Or.inr (by rw [i2]; exact ht1))
    (show findVma (expandStack (below 1) [stackArea]) (below 2) = some { stackArea with start := below 1 } by decide)
    (Or.inr (by decide))
  obtain ⟨d', t2, hd', hT2⟩ := h2.touched
  rw [i2, j2] at hT2
  obtain rfl : t1 = t2 := hT2.old t1 hT1.table
  have hn2 : n2 = a ∨ n2 = t :=
    (h.free n2 (by
      rw [← hpages, ← Mm.pages_of_fixed hT2.fixed]
      exact h2.inv.owned.holds.inside _ _ hT2.user)).mp ((hfree1 n2).mp hT2.fresh).1
  have hne : n2 ≠ n1 := ((hfree1 n2).mp hT2.fresh).2
  have hpage2 := page_of_fixed hT2.fixed
  refine ⟨s2, run_step hstep1 (run_step hstep2 (run_nil _)), ?_⟩
  by_cases ha : n1 = a
  · subst ha
    refine Or.inl ?_
    have huser : own2 (.user 2 767 1022) = some n1 := (hT2.slots _ (by simp) (by simp)).trans hT1.user
    rw [h2.inv.load_user k1 l1 huser, o1, hpage2, hT2.mem, hpage, h1.bytes 100 (by decide), h.byte]
    · exact h1.inv.owned.page_ne hd' hT1.user rfl (by simp)
    · exact h1.inv.owned.page_ne hT1.table hT1.user rfl (by simp)
    · intro he
      refine hne (page_inj h1.inv.owned.layout ?_ (h1.inv.owned.holds.inside _ _ hT1.user) he.symm)
      rw [← Mm.pages_of_fixed hT2.fixed]
      exact h2.inv.owned.holds.inside _ _ hT2.user
  · obtain rfl : n2 = a := by omega
    refine Or.inr ?_
    obtain ⟨t0, ht0⟩ := ne_none_iff_exists'.mp h.table2
    rw [h2.inv.load_user k2 l2 hT2.user, o2, hpage2, h2.bytes 100 (by decide), hpage, hT1.mem, h.byte]
    · exact hpagea _ d hd
    · obtain rfl := hT1.old t0 ht0
      exact hpagea _ t0 ht0
    · intro he
      refine hne (page_inj h.inv.owned.layout h.inside.1 ?_ he)
      rw [← hpages]
      exact h1.inv.owned.holds.inside _ _ hT1.user

/-- Two processes, neither the parent of the other: whatever byte process 1 stores before it exits, process 2
loads afterwards from its own stack that it never wrote to. -/
theorem store_seen_after_exit : ∃ mm n, Clients.smallMem.initFreeArea = some mm ∧
    ∀ b, ∃ s, run next (bootSys mm) (crowd n ++ ([.store 1 (stackPage + 100) b, .exit 1] ++
      [.fault 2 (below 1) true true false 0 fun _ => 0, .fault 2 (below 2) true true false 0 fun _ => 0])) =
        some s ∧
      (s.load 2 (below 1 + 100) = some b ∨ s.load 2 (below 2 + 100) = some b) := by
  obtain ⟨mm, hinit, hboot, hpages⟩ := smallMem_booted
  obtain ⟨n, s1, own1, wr1, hrun1, h1⟩ := hboot.full hpages
  refine ⟨mm, n, hinit, fun b => ?_⟩
  obtain ⟨s2, own2, a, t, hrun2, h2⟩ := h1.leave b
  obtain ⟨s3, hrun3, h3⟩ := h2.seen
  exact ⟨s3, by rw [run_append hrun1, run_append hrun2, hrun3], h3⟩

end

end Sys

end BabyOS
