import BabyOS.Ring
import BabyOS.Word

open Function

namespace BabyOS

abbrev Word := BitVec 32

def pageShift : Nat := 12
def pageSize : Word := 1 <<< pageShift
def pageMask : Word := ~~~(pageSize - 1)
def pageAlign (addr : Word) : Word := (addr + pageSize - 1) &&& pageMask
def kernelBase : Word := 0xc0000000#32
def va2pa (x : Word) : Word := x - kernelBase
def pa2va (x : Word) : Word := x + kernelBase
def maxOrder : Nat := 6
def mapNr (addr : Word) : Word := addr >>> pageShift

theorem toNat_kernelBase : kernelBase.toNat = 3221225472 := by decide

def mathPow (x : Word) : Nat → Word
  | 0 => 1
  | p + 1 => mathPow x p * x

inductive FreeNode
  | head (order : Nat)
  | block (addr : Word)
  deriving DecidableEq

/-- The page allocator. `bits` is the memory of the pair bitmaps by bit address, `map` their
byte addresses and `ref` the 32-bit counters of `m_pages`. -/
structure Mm where
  links : Links FreeNode
  bits : Nat → Bool
  map : Nat → Word
  base : Word
  memStart : Word
  memEnd : Word
  ref : Nat → Word
  freePageNum : Word

namespace Mm

def addToHead (mm : Mm) (order : Nat) (addr : Word) : Mm :=
  { mm with links := mm.links.insertAfter (.head order) (.block addr) }

def removeHead (mm : Mm) (addr : Word) : Mm :=
  { mm with links := mm.links.unlink (.block addr) }

def bitAddr (mm : Mm) (order : Nat) (nr : Word) : Nat := 8 * (mm.map order).toNat + nr.toNat

def oldBit (mm : Mm) (order : Nat) (nr : Word) : Bool := mm.bits (mm.bitAddr order nr)

def changeBit (mm : Mm) (order : Nat) (nr : Word) : Mm :=
  { mm with bits := update mm.bits (mm.bitAddr order nr) (!mm.oldBit order nr) }

def getBuddy (mm : Mm) (addr mask : Word) : Word := ((addr - mm.base) ^^^ (-mask)) + mm.base

def markUsed (mm : Mm) (addr : Word) (order : Nat) : Mm :=
  mm.changeBit order (mapNr (addr - mm.base) >>> (1 + order))

def incPageRef (mm : Mm) (pa : Word) : Mm :=
  let page := (pa >>> pageShift).toNat
  { mm with ref := update mm.ref page (mm.ref page + 1) }

/-- The counter is an `int`; a count that is not positive panics. -/
def decPageRef (mm : Mm) (pa : Word) : Option (Mm × Bool) :=
  let page := (pa >>> pageShift).toNat
  if (mm.ref page).toInt ≤ 0 then none
  else
    let count := mm.ref page - 1
    some ({ mm with ref := update mm.ref page count }, count == 0)

def getPageRef (mm : Mm) (pa : Word) : Word := mm.ref (pa >>> pageShift).toNat

/-- The `while (order < MAX_ORDER)` of `free_pages`; the first argument counts the orders left. -/
def freeLoop (mm : Mm) : Nat → Nat → Word → Word → Word → Mm
  | 0, order, address, _, _ => mm.addToHead order address
  | fuel + 1, order, address, mask, index =>
    if mm.oldBit order index then
      let mm := mm.changeBit order index
      let buddy := mm.getBuddy address mask
      freeLoop (mm.removeHead buddy) fuel (order + 1) (address &&& (mask <<< 1)) (mask <<< 1)
        (index >>> 1)
    else (mm.changeBit order index).addToHead order address

def freePages (mm : Mm) (addr : Word) (order : Nat) : Option Mm :=
  match mm.decPageRef (va2pa addr) with
  | none => none
  | some (mm, false) => some mm
  | some (mm, true) =>
    let mm := { mm with freePageNum := mm.freePageNum + mathPow 2 order }
    let index := mapNr (addr - mm.base) >>> (1 + order)
    let mask := pageMask <<< order
    some (mm.freeLoop (maxOrder - order) order (addr &&& mask) mask index)

/-- The `while (low < high)` of `expand`; the first argument is `high - low`. -/
def expandLoop (mm : Mm) (low : Nat) : Nat → Word → Word → Mm × Word
  | 0, _, addr => (mm, addr)
  | fuel + 1, size, addr =>
    let size := size >>> 1
    expandLoop ((mm.addToHead (low + fuel) addr).markUsed addr (low + fuel)) low fuel size
      (size + addr)

def incPages (mm : Mm) : Nat → Word → Mm
  | 0, _ => mm
  | n + 1, p => incPages (mm.incPageRef (va2pa p)) n (p + pageSize)

def expand (mm : Mm) (addr : Word) (low high : Nat) : Mm × Word :=
  let r := mm.expandLoop low (high - low) (pageSize <<< high) addr
  (r.1.incPages (mathPow 2 low).toNat r.2, r.2)

/-- The `do … while (new_order <= MAX_ORDER)` of `alloc_pages`. -/
def allocLoop (mm : Mm) (order : Nat) : Nat → Nat → Mm × Option Word
  | 0, _ => (mm, none)
  | fuel + 1, newOrder =>
    match mm.links.next (.head newOrder) with
    | .block next =>
      let mm := { mm with links := mm.links.popAfter (.head newOrder) (.block next) }
      let r := (mm.markUsed next newOrder).expand next order newOrder
      (r.1, some r.2)
    | .head _ => allocLoop mm order fuel (newOrder + 1)

def allocPages (mm : Mm) (order : Nat) : Mm × Option Word :=
  allocLoop { mm with freePageNum := mm.freePageNum - mathPow 2 order } order
    (maxOrder - order + 1) order

/-- One turn of the loop of `init_free_area`; `mask` is its running mask. -/
def initOrder (mm : Mm) (i : Nat) (mask : Word) : Mm :=
  let memEnd := mm.memEnd &&& mask
  let bitmapSize := (memEnd - mm.memStart) >>> (pageShift + i)
  let bitmapSize := (bitmapSize + 7) >>> 3
  let bitmapSize := (bitmapSize + 4 - 1) &&& ~~~(4 - 1)
  let lo := 8 * mm.memStart.toNat
  { mm with
    links :=
      { next := update mm.links.next (.head i) (.head i)
        prev := update mm.links.prev (.head i) (.head i) }
    memEnd := memEnd
    map := update mm.map i mm.memStart
    bits := fun a => if lo ≤ a ∧ a < lo + 8 * bitmapSize.toNat then false else mm.bits a
    memStart := mm.memStart + bitmapSize }

def initOrders (mm : Mm) : Nat → Nat → Word → Mm × Word
  | 0, _, mask => (mm, mask)
  | fuel + 1, i, mask => initOrders (mm.initOrder i (mask + mask)) fuel (i + 1) (mask + mask)

def initPages (mm : Mm) : Mm :=
  let pageNum := (mm.memEnd - kernelBase) / pageSize
  { mm with
    memStart := mm.memStart + pageNum * 4
    ref := fun i => if i < pageNum.toNat then 1 else mm.ref i }

def freeBootLoop (mm : Mm) : Nat → Word → Option Mm
  | 0, _ => some mm
  | fuel + 1, p =>
    if p < mm.memEnd then
      match mm.freePages p 0 with
      | none => none
      | some mm => freeBootLoop mm fuel (p + pageSize)
    else some mm

/-- `free_boot_mem`; the budget is the number of pages from the base to the end of the memory. -/
def freeBootMem (mm : Mm) : Option Mm :=
  let mm := { mm with freePageNum := 0 }
  mm.freeBootLoop ((mm.memEnd.toNat - mm.base.toNat + 4095) / 4096) mm.base

def initFreeArea (mm : Mm) : Option Mm :=
  let r := mm.initOrders (maxOrder + 1) 0 pageMask
  let mm := r.1.initPages
  let mm := { mm with base := (mm.memStart + ~~~r.2) &&& r.2 }
  mm.freeBootMem

end Mm

end BabyOS
