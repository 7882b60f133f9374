import BabyOS.PageTable
import BabyOS.VmAreas

open Function

namespace BabyOS

/-- The address space of a process: its areas and the kernel address of its page directory. -/
structure Vmm where
  areas : List VmArea
  pgDir : Word

/-- `expand_stack` on the first area that ends above the address. -/
def expandStack (addr : Word) : List VmArea → List VmArea
  | [] => []
  | a :: rest =>
    if addr < a.stop then { a with start := addr &&& pageMask } :: rest
    else a :: expandStack addr rest

/-- The area part of `do_munmap`: what remains of the area is one, two or none. The upper one keeps the
protection and flags that the object of the pool came with. -/
def cutArea (addr stop prot flags : Word) : List VmArea → List VmArea
  | [] => []
  | a :: rest =>
    if addr < a.stop then
      let first := if a.start = addr then [] else [{ a with stop := addr }]
      let second := if stop = a.stop then [] else [⟨stop, a.stop, prot, flags⟩]
      first ++ second ++ rest
    else a :: cutArea addr stop prot flags rest

namespace Machine

def releaseAreas (m : Machine) (pgDir : Word) : List VmArea → Option Machine
  | [] => some m
  | a :: rest => (m.freePageRange pgDir a.start a.stop).bind fun m => releaseAreas m pgDir rest

def release (m : Machine) (vmm : Vmm) : Option (Machine × Vmm) :=
  (m.releaseAreas vmm.pgDir vmm.areas).bind fun m =>
    (m.freePageTable vmm.pgDir).map fun m => (m, { vmm with areas := [] })

def doProtectionFault (m : Machine) (pgDir : Word) (vma : VmArea) (addr : Word) (write : Bool) :
    Option Machine :=
  let pa := m.va2paOf pgDir addr
  if pa = -1 then some m
  else if write ∧ vma.flags &&& vmWrite = 0 then some m
  else if m.mm.getPageRef pa = 1 then some (m.makePteWrite pgDir addr)
  else
    match m.allocPage with
    | none => none
    | some (m, mem) =>
      let m := m.fill (m.va2paOf pgDir mem &&& pageMask) (m.mem (m.va2paOf pgDir addr &&& pageMask))
      (m.freePage (pa2va pa)).bind fun m =>
        m.mapPages pgDir addr (va2pa mem) pageSize (pteW ||| pteU)

/-- A page from `alloc_pages`: the free lists have used its first eight bytes for two links, the rest is as it
was. -/
def recycled (m : Machine) (page : Word) (junk : Nat → Byte) : Nat → Byte :=
  fun k => if k < 8 then junk k else m.mem page k

def goodArea (m : Machine) (pgDir : Word) (vma : VmArea) (addr : Word) (present write : Bool)
    (junk : Nat → Byte) : Option Machine :=
  if vma.start ≤ addr then
    if present then m.doProtectionFault pgDir vma addr write
    else
      match m.allocPage with
      | none => none
      | some (m, mem) =>
        let m := m.fill (va2pa mem) (m.recycled (va2pa mem) junk)
        m.mapPages pgDir (addr &&& pageMask) (va2pa mem) pageSize (pteW ||| pteU)
  else some m

/-- The page a user access reaches, as the processor walks the tables. -/
def translate (m : Machine) (pgDir va : Word) (write : Bool) : Option Word :=
  if va ≥ kernelBase then none
  else
    let pde := m.entry (va2pa pgDir) (pdIndex va)
    if pde &&& pteP = 0 ∨ pde &&& pteU = 0 ∨ (write ∧ pde &&& pteW = 0) then none
    else
      let pte := m.entry (pde &&& pageMask) (ptIndex va)
      if pte &&& pteP = 0 ∨ pte &&& pteU = 0 ∨ (write ∧ pte &&& pteW = 0) then none
      else some (pte &&& pageMask)

end Machine

/-- The machine, the live address spaces, the page directories of the exited processes not yet reaped, the pages
the kernel keeps, and the page directory of the idle process. -/
structure Sys where
  machine : Machine
  procs : Nat → Option Vmm
  zombies : Nat → Option Word
  kernelPages : Word → Bool
  kernelPgDir : Word

inductive VmEvent
  | silent
  | store (p : Nat) (va : Word) (b : Byte)
  | fresh (p : Nat) (va : Word) (content : Nat → Byte)
  | fork (p c : Nat)
  | release (p : Nat)

/-- The steps of the system. A fault names its access; `junk` is what the free lists left in the page handed
out. The idle process has number 0 and only forks. -/
inductive VmAct
  | store (p : Nat) (va : Word) (b : Byte)
  | fault (p : Nat) (va : Word) (write user kernelPresent : Bool) (esp : Word) (junk : Nat → Byte)
  | fork (p c : Nat)
  | exit (p : Nat)
  | reap (p : Nat)
  | release (p : Nat)
  | loadSegment (p : Nat) (vaddr : Word) (pool : Bool) (content : Nat → Byte)
  | initUserStack (p : Nat) (pool : Bool)
  | mmap (p : Nat) (c : MmapCall)
  | munmap (p : Nat) (addr len : Word) (pool : Bool) (prot flags : Word)
  | kalloc
  | kfree (addr : Word)

def pageOffset (va : Word) : Nat := (va &&& ~~~pageMask).toNat

namespace Sys

def load (s : Sys) (p : Nat) (va : Word) : Option Byte :=
  (s.procs p).bind fun vmm => (s.machine.translate vmm.pgDir va false).map fun page =>
    s.machine.mem page (pageOffset va)

def store (s : Sys) (p : Nat) (va : Word) (b : Byte) : Option Sys :=
  (s.procs p).bind fun vmm => (s.machine.translate vmm.pgDir va true).map fun page =>
    let bytes := update (s.machine.mem page) (pageOffset va) b
    { s with machine := s.machine.fill page bytes }

def setProc (s : Sys) (p : Nat) (m : Machine) (vmm : Vmm) : Sys :=
  { s with machine := m, procs := update s.procs p (some vmm) }

def exit (s : Sys) (p : Nat) (vmm : Vmm) : Option (Sys × VmEvent) :=
  (s.machine.release vmm).map fun r =>
    let procs := update s.procs p none
    let zombies := update s.zombies p (some vmm.pgDir)
    ({ s with machine := r.1, procs := procs, zombies := zombies }, .release p)

def present (m : Machine) (pgDir va : Word) : Bool :=
  let pde := m.entry (va2pa pgDir) (pdIndex va)
  pde &&& pteP ≠ 0 && m.entry (pde &&& pageMask) (ptIndex va) &&& pteP ≠ 0

def faultEvent (p : Nat) (pgDir va : Word) (here : Bool) (m : Machine) : VmEvent :=
  match here, m.translate pgDir va false with
  | false, some page => .fresh p va (m.mem page)
  | _, _ => .silent

def fault (s : Sys) (p : Nat) (vmm : Vmm) (va : Word) (here write user : Bool) (esp : Word)
    (junk : Nat → Byte) : Option (Sys × VmEvent) :=
  let event := faultEvent p vmm.pgDir va here
  match findVma vmm.areas va with
  | none => s.exit p vmm
  | some vma =>
    if vma.start > va then
      if user ∧ vma.flags &&& vmStack ≠ 0 ∧ va + 32 ≥ esp then
        (s.machine.goodArea vmm.pgDir { vma with start := va &&& pageMask } va here write junk).map
          fun m => (s.setProc p m { vmm with areas := expandStack va vmm.areas }, event m)
      else s.exit p vmm
    else
      (s.machine.goodArea vmm.pgDir vma va here write junk).map fun m => (s.setProc p m vmm, event m)

def fork (s : Sys) (p c : Nat) : Option Sys :=
  (if p = 0 then some ⟨[], s.kernelPgDir⟩ else s.procs p).bind fun vmm =>
    if c = 0 ∨ (s.procs c).isSome ∨ (s.zombies c).isSome then none
    else (s.machine.copyPageTable vmm.pgDir).map fun r => s.setProc c r.1 ⟨vmm.areas, r.2⟩

def munmap (s : Sys) (p : Nat) (vmm : Vmm) (addr len : Word) (pool : Bool) (prot flags : Word) :
    Option Sys :=
  if addr &&& ~~~pageMask ≠ 0 ∨ addr > userVmSize ∨ len > userVmSize - addr then some s
  else
    let len := pageAlign len
    if len = 0 then some s
    else
      match findVma vmm.areas addr with
      | none => some s
      | some vma =>
        if addr < vma.start ∨ addr + len > vma.stop then some s
        else if pool then
          (s.machine.freePageRange vmm.pgDir addr (addr + len)).map fun m =>
            s.setProc p m { vmm with areas := cutArea addr (addr + len) prot flags vmm.areas }
        else some s

/-- One segment of one page of `load_elf_binary`; where the mapping fails, `exec` exits. -/
def loadSegment (s : Sys) (p : Nat) (vmm : Vmm) (vaddr : Word) (pool : Bool)
    (content : Nat → Byte) : Option (Sys × VmEvent) :=
  let r := doMmap vmm.areas vaddr pageSize (protRead ||| protWrite ||| protExec) mapFixed pool
  let vmm := { vmm with areas := r.2 }
  if r.1.toInt < 0 then s.exit p vmm
  else
    match s.machine.allocPage with
    | none => none
    | some (m, mem) =>
      (m.mapPages vmm.pgDir vaddr (va2pa mem) pageSize (pteW ||| pteU)).map fun m =>
        (s.setProc p (m.fill (va2pa mem) content) vmm, .fresh p vaddr content)

def initUserStack (s : Sys) (p : Nat) (vmm : Vmm) (pool : Bool) : Sys :=
  if pool then
    s.setProc p s.machine { vmm with areas := (insertVma vmm.areas stackArea).getD vmm.areas }
  else s

def reap (s : Sys) (p : Nat) : Option Sys :=
  (s.zombies p).bind fun pgDir => (s.machine.freePage pgDir).map fun m =>
    { s with machine := m, zombies := update s.zombies p none }

def kalloc (s : Sys) : Option Sys :=
  s.machine.allocPage.map fun r =>
    { s with machine := r.1, kernelPages := update s.kernelPages r.2 true }

def kfree (s : Sys) (addr : Word) : Option Sys :=
  if s.kernelPages addr then
    (s.machine.freePage addr).map fun m =>
      { s with machine := m, kernelPages := update s.kernelPages addr false }
  else none

def step (s : Sys) : VmAct → Option (Sys × VmEvent)
  | .store p va b => (s.store p va b).map fun s => (s, .store p va b)
  | .fault p va write user kernelPresent esp junk =>
    (s.procs p).bind fun vmm =>
      if (s.machine.translate vmm.pgDir va write).isSome then none
      else
        let here := if va < kernelBase then present s.machine vmm.pgDir va else kernelPresent
        s.fault p vmm va here write user esp junk
  | .fork p c => (s.fork p c).map fun s => (s, .fork p c)
  | .exit p => (s.procs p).bind fun vmm => s.exit p vmm
  | .reap p => (s.reap p).map fun s => (s, .silent)
  | .release p =>
    (s.procs p).bind fun vmm => (s.machine.release vmm).map fun r => (s.setProc p r.1 r.2, .release p)
  | .loadSegment p vaddr pool content =>
    (s.procs p).bind fun vmm => s.loadSegment p vmm (vaddr &&& pageMask) pool content
  | .initUserStack p pool => (s.procs p).map fun vmm => (s.initUserStack p vmm pool, .silent)
  | .mmap p c =>
    (s.procs p).map fun vmm =>
      (s.setProc p s.machine { vmm with areas := (c.exec vmm.areas).2 }, .silent)
  | .munmap p addr len pool prot flags =>
    (s.procs p).bind fun vmm => (s.munmap p vmm addr len pool prot flags).map fun s => (s, .silent)
  | .kalloc => s.kalloc.map fun s => (s, .silent)
  | .kfree addr => (s.kfree addr).map fun s => (s, .silent)

def next (s : Sys) (a : VmAct) : Option Sys := (s.step a).map Prod.fst

end Sys

end BabyOS
