import BabyOS.Bytes
import BabyOS.MmPages

namespace BabyOS

def pteP : Word := 0x1#32
def pteW : Word := 0x2#32
def pteU : Word := 0x4#32
def nrPtePerPage : Nat := 1024
def userPtrsPerPgd : Nat := 768
def pdIndex (va : Word) : Nat := ((va >>> 22) &&& 0x3ff#32).toNat
def ptIndex (va : Word) : Nat := ((va >>> 12) &&& 0x3ff#32).toNat

/-- The page allocator and the physical memory, by the address of the page and the offset in it. -/
structure Machine where
  mm : Mm
  mem : Word → Nat → Byte

namespace Machine

def entry (m : Machine) (page : Word) (i : Nat) : Word := getWord (m.mem page) (4 * i)

/-- Overwrite a whole page, as `memset` and `memcpy` of `PAGE_SIZE` bytes do. -/
def fill (m : Machine) (page : Word) (bytes : Nat → Byte) : Machine :=
  { m with mem := Function.update m.mem page bytes }

def setEntry (m : Machine) (page : Word) (i : Nat) (w : Word) : Machine :=
  m.fill page (setWord (m.mem page) (4 * i) w)

/-- `alloc_pages(0)`; the callers modelled here go on only with a page. -/
def allocPage (m : Machine) : Option (Machine × Word) :=
  match m.mm.allocPages 0 with
  | (mm, some addr) => some ({ m with mm := mm }, addr)
  | (_, none) => none

def freePage (m : Machine) (addr : Word) : Option Machine :=
  (m.mm.freePages addr 0).map fun mm => { m with mm := mm }

/-- `va_2_pa` with the current page directory; an entry counts as present when it is not zero, as `!table[i] &
PTE_P` tests. -/
def va2paOf (m : Machine) (pgDir va : Word) : Word :=
  if va ≥ kernelBase then va2pa va
  else
    let pde := m.entry (va2pa pgDir) (pdIndex va)
    if pde &&& pteP = 0 then -1
    else
      let pte := m.entry (pde &&& pageMask) (ptIndex va)
      if pte = 0 then -1 else (pte &&& pageMask) + (va - (va &&& pageMask))

def tableOf (m : Machine) (pgDir : Word) (k : Nat) : Option (Machine × Word) :=
  let pde := m.entry (va2pa pgDir) k
  if pde &&& pteP ≠ 0 then some (m, pde &&& pageMask)
  else
    match m.allocPage with
    | none => none
    | some (m, table) =>
      let m := m.fill (va2pa table) fun _ => 0
      some (m.setEntry (va2pa pgDir) k (va2pa table ||| pteP ||| pteW ||| 0x04), va2pa table)

/-- The inner `for` of `map_pages`; the first number counts the entries left in the table. -/
def mapEntries (m : Machine) (table e perm : Word) : Nat → Nat → Word → Word → Machine × Word × Word
  | 0, _, v, pa => (m, v, pa)
  | fuel + 1, i, v, pa =>
    if v < e then
      mapEntries (m.setEntry table i (pa ||| pteP ||| perm)) table e perm fuel (i + 1)
        (v + pageSize) (pa + pageSize)
    else (m, v, pa)

/-- The `while (v < e)` of `map_pages`; the first number counts the tables left. -/
def mapTables (m : Machine) (pgDir e perm : Word) : Nat → Nat → Word → Word → Option Machine
  | 0, _, _, _ => some m
  | fuel + 1, k, v, pa =>
    if v < e then
      match m.tableOf pgDir k with
      | none => none
      | some (m, table) =>
        let r := m.mapEntries table e perm (nrPtePerPage - ptIndex v) (ptIndex v) v pa
        mapTables r.1 pgDir e perm fuel (k + 1) r.2.1 r.2.2
    else some m

def mapPages (m : Machine) (pgDir va pa size perm : Word) : Option Machine :=
  m.mapTables pgDir ((va + size) &&& pageMask) perm nrPtePerPage (pdIndex va) (va &&& pageMask)
    (pa &&& pageMask)

/-- The loop of `copy_page_table` over one table: count the pages and write-protect them. -/
def shareEntries (m : Machine) (table : Word) : Nat → Nat → Machine
  | 0, _ => m
  | fuel + 1, j =>
    let pte := m.entry table j
    if pte &&& pteP ≠ 0 then
      shareEntries ({ m with mm := m.mm.incPageRef (pte &&& pageMask) }.setEntry table j
        (pte &&& ~~~pteW)) table fuel (j + 1)
    else shareEntries m table fuel (j + 1)

def copyTables (m : Machine) (pgDir newDir : Word) : Nat → Nat → Option Machine
  | 0, _ => some m
  | fuel + 1, i =>
    let pde := m.entry (va2pa pgDir) i
    if pde &&& pteP = 0 then copyTables m pgDir newDir fuel (i + 1)
    else
      match m.allocPage with
      | none => none
      | some (m, newTable) =>
        let table := pde &&& pageMask
        let m := m.shareEntries table nrPtePerPage 0
        let m := m.fill (va2pa newTable) (m.mem table)
        let m := m.setEntry (va2pa newDir) i (va2pa newTable ||| (pde &&& ~~~pageMask))
        copyTables m pgDir newDir fuel (i + 1)

def copyPageTable (m : Machine) (pgDir : Word) : Option (Machine × Word) :=
  match m.allocPage with
  | none => none
  | some (m, newDir) =>
    let m := m.fill (va2pa newDir) (m.mem (va2pa pgDir))
    (m.copyTables pgDir newDir userPtrsPerPgd 0).map fun m => (m, newDir)

def makePteWrite (m : Machine) (pgDir va : Word) : Machine :=
  if va ≥ kernelBase then m
  else
    let pde := m.entry (va2pa pgDir) (pdIndex va)
    if pde &&& pteP = 0 then m
    else
      let table := pde &&& pageMask
      let pte := m.entry table (ptIndex va)
      if pte = 0 then m else m.setEntry table (ptIndex va) (pte ||| pteW)

/-- The loop of `free_page_range`; the first number bounds the pages of the range. -/
def freePageLoop (m : Machine) (pgDir stop : Word) : Nat → Word → Option Machine
  | 0, _ => some m
  | fuel + 1, addr =>
    if addr < stop then
      let pa := m.va2paOf pgDir addr
      if pa ≠ -1 then
        match m.freePage (pa2va pa) with
        | none => none
        | some m => freePageLoop m pgDir stop fuel (addr + pageSize)
      else freePageLoop m pgDir stop fuel (addr + pageSize)
    else some m

def freePageRange (m : Machine) (pgDir start stop : Word) : Option Machine :=
  m.freePageLoop pgDir stop ((stop.toNat - (start &&& pageMask).toNat + 4095) / 4096)
    (start &&& pageMask)

def freeTables (m : Machine) (pgDir : Word) : Nat → Nat → Option Machine
  | 0, _ => some m
  | fuel + 1, i =>
    let pde := m.entry (va2pa pgDir) i
    if pde &&& pteP = 0 then freeTables m pgDir fuel (i + 1)
    else
      match m.freePage (pa2va (pde &&& pageMask)) with
      | none => none
      | some m => freeTables (m.setEntry (va2pa pgDir) i 0) pgDir fuel (i + 1)

def freePageTable (m : Machine) (pgDir : Word) : Option Machine :=
  m.freeTables pgDir userPtrsPerPgd 0

end Machine

end BabyOS
