import BabyOS.VmPrivate
import BabyOS.VmRefs

open Function Option

namespace BabyOS

open Machine

def cr0Pe : Word := 0x1#32
def cr0Pg : Word := 0x80000000#32
def cr0Wp : Word := 0x10000#32

/-- Control register 0 as the processor comes up, with what `boot.S` and `entry.S` set in it. -/
def kernelCr0 : Word := (0x60000010#32 ||| cr0Pe) ||| cr0Pg

namespace Machine

/-- The page that an access of the kernel reaches: the entries are to be present, and the write bits count only
while the processor protects writes of the kernel too. -/
def kernelTranslate (m : Machine) (cr0 pgDir va : Word) (write : Bool) : Option Word :=
  if va ≥ kernelBase then none
  else
    let pde := m.entry (va2pa pgDir) (pdIndex va)
    if pde &&& pteP = 0 ∨ (write ∧ cr0 &&& cr0Wp ≠ 0 ∧ pde &&& pteW = 0) then none
    else
      let pte := m.entry (pde &&& pageMask) (ptIndex va)
      if pte &&& pteP = 0 ∨ (write ∧ cr0 &&& cr0Wp ≠ 0 ∧ pte &&& pteW = 0) then none
      else some (pte &&& pageMask)

end Machine

/-- The steps of the system with the stores of system calls into user memory (`read_inode`, `recv_from`,
`do_pipe`, `do_stat`), byte by byte. -/
inductive KernelAct
  | vm (a : VmAct)
  | store (p : Nat) (va : Word) (b : Byte)

namespace Sys

def kernelStore (s : Sys) (p : Nat) (va : Word) (b : Byte) : Option Sys :=
  (s.procs p).bind fun vmm => (s.machine.kernelTranslate kernelCr0 vmm.pgDir va true).map fun page =>
    let bytes := update (s.machine.mem page) (pageOffset va) b
    { s with machine := s.machine.fill page bytes }

def nextKernel (s : Sys) : KernelAct → Option Sys
  | .vm a => s.next a
  | .store p va b => s.kernelStore p va b

def KernelFits (s : Sys) : KernelAct → Prop
  | .vm a => s.Fits a
  | .store _ _ _ => True

/-- The page that a store of the kernel goes to is behind no entry of another process, or has the byte
already. -/
def StoresApart (s : Sys) (p : Nat) (va : Word) (b : Byte) : Prop :=
  ∀ vmm n, s.procs p = some vmm → n < s.machine.mm.pages →
    s.machine.kernelTranslate kernelCr0 vmm.pgDir va true = some (s.machine.page n) →
    (∀ q i j, q ≠ p → ¬s.Maps n (q, i, j)) ∨ s.machine.mem (s.machine.page n) (pageOffset va) = b

section

variable {s s' : Sys} {own : Slot → Option Nat} {wr : Slot → Bool} {p n : Nat} {vmm : Vmm} {va : Word} {b : Byte}

theorem Inv.kernelTranslate (h : Inv s own wr) (hp : s.procs p = some vmm) (hva : va < kernelBase) :
    s.machine.kernelTranslate kernelCr0 vmm.pgDir va true = (own (.of p va)).map s.machine.page := by
  have hk : ¬va ≥ kernelBase := by
    rw [ge_iff_le, BitVec.not_le]
    exact hva
  have hwp : ¬kernelCr0 &&& cr0Wp ≠ 0 := by decide
  unfold Machine.kernelTranslate
  rw [if_neg hk]
  rcases (h.walks p vmm hp).cases h.owned hva with ⟨hz, hu⟩ | ⟨t, hlt, _, hpde, hpte⟩
  · simp only [hz, hu]
    rfl
  · simp only [hwp, false_and, and_false, or_false, hpde, pdeOf_and_pteP h.owned.layout hlt, if_false,
      pdeOf_and_pageMask h.owned.layout hlt, hpte]
    cases hu : own (.of p va) with
    | none => exact if_pos (by rw [pteOf]; decide)
    | some n =>
      obtain ⟨-, h2, h3, -⟩ := pteOf_some h.owned.layout (h.owned.holds.inside _ _ hu)
        (wr (.of p va))
      simp only [h2, h3, if_false, map_some]

theorem Inv.kernelStore_eq (h : Inv s own wr) (hs : s.kernelStore p va b = some s') :
    ∃ vmm n, s.procs p = some vmm ∧ va < kernelBase ∧ own (.of p va) = some n ∧
      s' = { s with
        machine := s.machine.fill (s.machine.page n)
          (update (s.machine.mem (s.machine.page n)) (pageOffset va) b) } := by
  obtain ⟨vmm, hp, hs⟩ := Option.bind_eq_some_iff.mp hs
  obtain ⟨page, ht, rfl⟩ := Option.map_eq_some_iff.mp hs
  have hva : va < kernelBase := by
    rw [← BitVec.not_le]
    intro hge
    rw [Machine.kernelTranslate, if_pos (show va ≥ kernelBase from hge)] at ht
    cases ht
  rw [h.kernelTranslate hp hva] at ht
  obtain ⟨n, hu, rfl⟩ := Option.map_eq_some_iff.mp ht
  exact ⟨vmm, n, hp, hva, hu, rfl⟩

theorem Inv.nextKernel (h : Inv s own wr) {a : KernelAct} (hc : s.KernelFits a) (hs : s.nextKernel a = some s') :
    ∃ own' wr', Inv s' own' wr' := by
  cases a with
  | vm a => exact h.next hc hs
  | store p va b =>
    obtain ⟨vmm, n, hp, hva, hu, rfl⟩ := h.kernelStore_eq hs
    exact ⟨own, wr, h.fillUser hp hu _⟩

theorem Inv.load_fill (h : Inv s own wr) (hp : s.procs p = some vmm) {i j : Nat}
    (hu : own (.user p i j) = some n) (bytes : Nat → Byte) (q : Nat) (x : Word) :
    { s with machine := s.machine.fill (s.machine.page n) bytes }.load q x =
      if own (.of q x) = some n then some (bytes (pageOffset x)) else s.load q x := by
  have h' := h.fillUser hp hu bytes
  rw [h'.load_eq, h.load_eq, views, views]
  cases ha : own (.of q x) with
  | none => rfl
  | some a =>
    by_cases han : a = n
    · subst han
      rw [if_pos rfl, Option.map_some, Option.map_some]
      exact congrArg (fun f : Nat → Byte => some (f (pageOffset x))) (fill_mem_self _)
    · rw [if_neg fun he => han (Option.some.inj he), Option.map_some, Option.map_some, Option.map_some, Option.map_some]
      refine congrArg (fun f : Nat → Byte => some (f (pageOffset x))) (fill_mem_of_ne _ fun he => han ?_)
      exact page_inj h.owned.layout (h.owned.holds.inside _ _ ha) (h.owned.holds.inside _ _ hu) he

theorem pageOffset_eq (va : Word) : pageOffset va = va.toNat % 4096 := by
  have hmask : pageMask = highMask 12 := by decide
  rw [pageOffset, hmask, BitVec.and_comm, BitVec.and_comm]
  exact not_highMask_and va 12 (by decide)

theorem exists_address {i j : Nat} (hi : i < userPtrsPerPgd) (hj : j < nrPtePerPage) (va : Word) :
    ∃ x, pdIndex x = i ∧ ptIndex x = j ∧ pageOffset x = pageOffset va := by
  unfold userPtrsPerPgd at hi
  unfold nrPtePerPage at hj
  have hlt : (vpage i j + va.toNat % 4096) < 2 ^ 32 := by
    unfold vpage
    omega
  refine ⟨BitVec.ofNat 32 (vpage i j + va.toNat % 4096), ?_, ?_, ?_⟩
  · rw [pdIndex_eq, BitVec.toNat_ofNat, Nat.mod_eq_of_lt hlt]
    unfold vpage
    omega
  · rw [ptIndex_eq, BitVec.toNat_ofNat, Nat.mod_eq_of_lt hlt]
    unfold vpage
    omega
  · rw [pageOffset_eq, pageOffset_eq, BitVec.toNat_ofNat, Nat.mod_eq_of_lt hlt]
    unfold vpage
    omega

/-- In every state reached from boot, a store of the kernel for a process leaves the memory of all others as it
was just when the page is behind no entry of theirs or has the byte already. -/
theorem kernel_store_private_iff {s0 : Sys} {acts : List KernelAct} (hboot : Booted s0)
    (hfit : Along nextKernel KernelFits s0 acts) (hrun : run nextKernel s0 acts = some s)
    (hs : s.kernelStore p va b = some s') :
    (∀ q, q ≠ p → ∀ x, s'.load q x = s.load q x) ↔ s.StoresApart p va b := by
  obtain ⟨own, wr, h⟩ := run_invariant (I := fun s => ∃ own wr, Inv s own wr)
    (fun _ _ _ ⟨_, _, hinv⟩ hc he => hinv.nextKernel hc he) ⟨_, _, hboot.inv⟩ hfit hrun
  obtain ⟨vmm, n, hp, hva, hu, rfl⟩ := h.kernelStore_eq hs
  have hn := h.owned.holds.inside _ _ hu
  have hload := h.load_fill hp hu (update (s.machine.mem (s.machine.page n)) (pageOffset va) b)
  constructor
  · intro hsame vmm' k hp' hk ht
    cases hp.symm.trans hp'
    rw [h.kernelTranslate hp hva, hu, map_some, some.injEq] at ht
    cases page_inj h.owned.layout hn hk ht
    by_cases hmaps : ∃ q i j, q ≠ p ∧ s.Maps n (q, i, j)
    · obtain ⟨q, i, j, hq, hm⟩ := hmaps
      have hqn := (h.maps_iff hn).mp hm
      obtain ⟨t, ht⟩ := h.owned.shape.backed q i j n hqn
      obtain ⟨x, rfl, rfl, hx⟩ := exists_address (h.owned.shape.table_lt q i t ht) (h.owned.shape.user_lt q i j n hqn) va
      have hx' := hsame q hq x
      rw [hload, if_pos hqn, hx, update_self, h.load_eq, views, hqn] at hx'
      refine Or.inr ?_
      rw [map_some, map_some, some.injEq, hx] at hx'
      exact hx'.symm
    · refine Or.inl fun q i j hq hm => hmaps ⟨q, i, j, hq, hm⟩
  · intro hc q hq x
    rw [hload]
    split_ifs with hqn
    · rcases hc vmm n hp hn (by rw [h.kernelTranslate hp hva, hu, map_some]) with hno | hsame
      · exact absurd ((h.maps_iff hn).mpr hqn) (hno q _ _ hq)
      · rw [← hsame, update_eq_self, h.load_eq, views, hqn]
        rfl
    · rfl

end

section

variable {s s' : Sys} {own own' : Slot → Option Nat} {wr wr' : Slot → Bool} {p n : Nat} {vmm : Vmm}

theorem run_vm {acts : List VmAct} (h : run next s acts = some s') :
    run nextKernel s (acts.map .vm) = some s' := by
  induction acts generalizing s with
  | nil => exact h
  | cons a acts ih =>
    obtain ⟨t, ht, hr⟩ := run_cons h
    exact run_step ht (ih hr)

theorem Inv.kernelStore_some (h : Inv s own wr) (hp : s.procs p = some vmm) {va : Word} (hva : va < kernelBase)
    (hu : own (.of p va) = some n) (b : Byte) :
    s.kernelStore p va b = some { s with
      machine := s.machine.fill (s.machine.page n)
        (update (s.machine.mem (s.machine.page n)) (pageOffset va) b) } := by
  rw [kernelStore, hp, Option.bind_some, h.kernelTranslate hp hva, hu]
  rfl

theorem kernel_store_private_two : ∃ mm s s', Clients.smallMem.initFreeArea = some mm ∧
    run nextKernel (bootSys mm) ((spawn 1 ++ spawn 2).map .vm) = some s ∧ s.kernelStore 2 stackPage 7 = some s' ∧
    ∀ q, q ≠ 2 → ∀ x, s'.load q x = s.load q x := by
  obtain ⟨mm, s1, own1, wr1, hinit, hboot, hroom, hrun1, hs1⟩ := smallMem_spawned
  have hcount := hs1.count
  obtain ⟨s, own, wr, hrun2, hs⟩ := hs1.inv.spawn (c := 2) (by omega) (by decide) (hs1.others 2 (by decide))
    (by rw [hs1.zombies]; rfl)
  have hrun := (run_append hrun1).trans hrun2
  obtain ⟨dir, hp⟩ := hs.proc
  obtain ⟨n, hu⟩ := ne_none_iff_exists'.mp hs.user
  have hn := hs.inv.owned.holds.inside _ _ hu
  have hstore := hs.inv.kernelStore_some hp (show stackPage < kernelBase by decide) hu 7
  have hfit : Along nextKernel KernelFits (bootSys mm) ((spawn 1 ++ spawn 2).map .vm) :=
    ⟨trivial, fun _ _ => ⟨trivial, fun _ _ => ⟨trivial, fun _ _ => ⟨trivial, fun _ _ => ⟨trivial, fun _ _ =>
      ⟨trivial, fun _ _ => trivial⟩⟩⟩⟩⟩⟩
  refine ⟨mm, s, _, hinit, run_vm hrun, hstore, (kernel_store_private_iff hboot hfit (run_vm hrun) hstore).mpr ?_⟩
  intro vmm k hp' hk ht
  cases hp.symm.trans hp'
  rw [hs.inv.kernelTranslate hp (show stackPage < kernelBase by decide),
    show Slot.of 2 stackPage = .user 2 767 1023 from rfl, hu, map_some, some.injEq] at ht
  cases page_inj hs.inv.owned.layout hn hk ht
  refine Or.inl fun q i j hq hm => ?_
  have hsame := hs.inv.sole 2 767 1023 n hu hs.writable _ ((hs.inv.maps_iff hn).mp hm)
  cases hsame
  exact hq rfl

/-- Process 1 forks process 2 and makes a system call that stores a byte to its stack: the page is shared and
write-protected, the kernel writes through it, and process 2 loads the byte. -/
theorem kernel_store_seen_by_child : ∃ mm s b s', Clients.smallMem.initFreeArea = some mm ∧
    run nextKernel (bootSys mm) ((spawn 1 ++ [VmAct.fork 1 2]).map .vm) = some s ∧
    s.kernelStore 1 stackPage b = some s' ∧ s'.load 2 stackPage = some b ∧ s.load 2 stackPage ≠ some b := by
  obtain ⟨mm, s1, own1, wr1, hinit, hboot, hroom, hrun1, hs⟩ := smallMem_spawned
  have hcount := hs.count
  obtain ⟨dir, hp1⟩ := hs.proc
  obtain ⟨s, hnext⟩ := hs.inv.fork_some hp1 (by omega)
    (fun k hk => hs.slots _ (by simp) hk (by simp)) (c := 2) (by decide) (hs.others 2 (by decide))
    (by rw [hs.zombies]; rfl)
  have hfork : s1.fork 1 2 = some s := by
    obtain ⟨⟨t, e⟩, hstep, rfl⟩ := map_eq_some_iff.mp hnext
    obtain ⟨t', ht', he⟩ := map_eq_some_iff.mp hstep
    cases he
    exact ht'
  obtain ⟨own, wr, h, -, hchild, hkeep⟩ := hs.inv.fork_shares hfork
  obtain ⟨n, hu1⟩ := ne_none_iff_exists'.mp hs.user
  have hu : own (.user 1 (pdIndex stackPage) (ptIndex stackPage)) = some n := (hkeep 1 _ _ (by decide)).trans hu1
  have hu2 : own (.user 2 (pdIndex stackPage) (ptIndex stackPage)) = some n := (hchild _ _).trans hu1
  obtain ⟨t, ht⟩ := h.owned.shape.backed _ _ _ _ hu
  obtain ⟨vmm, hp⟩ := isSome_iff_exists.mp (h.onlyTables _ _ _ ht)
  have hload := (h.load_user rfl rfl hu2 : s.load 2 stackPage = _)
  generalize hold : s.machine.mem (s.machine.page n) (pageOffset stackPage) = old at hload
  refine ⟨mm, s, old + 1, _, hinit, ?_, h.kernelStore_some hp (by decide) hu (old + 1), ?_, ?_⟩
  · refine run_vm ?_
    rw [run_append hrun1]
    exact run_step hnext (run_nil _)
  · rw [h.load_fill hp hu, if_pos hu2, update_self]
  · rw [hload]
    intro he
    have hne : ∀ x : Byte, x ≠ x + 1 := by decide
    exact hne old (some.inj he)

end

end Sys

end BabyOS
