import BabyOS.FsDisk
import BabyOS.Runs

open Function

namespace BabyOS

structure IoBuffer where
  lba : Word
  done : Bool
  sem : Nat
  semWaitDone : Nat
  data : Block

/-- The block cache. Its buffers are numbered; the lists hold their numbers. -/
structure BlockDev where
  bufs : Nat → IoBuffer
  usedList : List Nat
  freeList : List Nat

namespace BlockDev

def init (bufNum : Nat) (mem : Nat → Block) : BlockDev where
  bufs b := ⟨0, false, 1, 0, mem b⟩
  usedList := []
  freeList := List.range bufNum

def mapBuf (d : BlockDev) (b : Nat) (f : IoBuffer → IoBuffer) : BlockDev :=
  { d with bufs := update d.bufs b (f (d.bufs b)) }

def hit (d : BlockDev) (lba : Word) : Option Nat := d.usedList.find? fun b => (d.bufs b).lba = lba

/-- A buffer for a block that is not cached: the first free one, or the front of the used list. -/
def recycle (d : BlockDev) (lba : Word) : Option (Nat × BlockDev) :=
  match d.freeList, d.usedList with
  | b :: free, _ => some (b, { d with freeList := free }.mapBuf b fun e => { e with lba := lba, done := false })
  | [], b :: used => some (b, { d with usedList := used }.mapBuf b fun e => { e with lba := lba, done := false })
  | [], [] => none

/-- The critical section of `get_block`. Where both lists are empty it follows a null pointer. -/
def lookup (d : BlockDev) (lba : Word) : Option (Nat × BlockDev) :=
  match d.hit lba with
  | some b => some (b, d)
  | none => d.recycle lba

def lock (d : BlockDev) (b : Nat) : Option BlockDev :=
  if (d.bufs b).sem = 0 then none else some (d.mapBuf b fun e => { e with sem := e.sem - 1 })

def unlock (d : BlockDev) (b : Nat) : BlockDev := d.mapBuf b fun e => { e with sem := e.sem + 1 }

def getBlock (d : BlockDev) (lba : Word) : Option (Nat × BlockDev) :=
  (d.lookup lba).bind fun r => (r.2.lock r.1).map fun d => (r.1, d)

def putBack (d : BlockDev) (b : Nat) : BlockDev := { d with usedList := d.usedList ++ [b] }

def releaseBlock (d : BlockDev) (b : Nat) : BlockDev := (d.putBack b).unlock b

section

variable {d : BlockDev} {b c : Nat} {lba : Word} {f : IoBuffer → IoBuffer}

@[simp]
theorem mapBuf_self : (d.mapBuf b f).bufs b = f (d.bufs b) := update_self _ _ _

theorem mapBuf_of_ne (h : c ≠ b) : (d.mapBuf b f).bufs c = d.bufs c := update_of_ne h _ _

theorem mapBuf_field {β : Type} (g : IoBuffer → β) (h : g (f (d.bufs b)) = g (d.bufs b)) (c : Nat) :
    g ((d.mapBuf b f).bufs c) = g (d.bufs c) := by
  by_cases hcb : c = b
  · rw [hcb, mapBuf_self, h]
  · rw [mapBuf_of_ne hcb]

theorem mapBuf_mapBuf {g : IoBuffer → IoBuffer} : (d.mapBuf b f).mapBuf b g = d.mapBuf b fun e => g (f e) := by
  unfold mapBuf
  dsimp only
  rw [update_self, update_idem]

theorem hit_some (h : d.hit lba = some b) : b ∈ d.usedList ∧ (d.bufs b).lba = lba :=
  ⟨List.mem_of_find?_eq_some h, by simpa using List.find?_some h⟩

theorem hit_none (h : d.hit lba = none) : ∀ c ∈ d.usedList, (d.bufs c).lba ≠ lba := by
  simpa using List.find?_eq_none.mp h

theorem lookup_cases {r : Nat × BlockDev} (h : d.lookup lba = some r) :
    (d.hit lba = some r.1 ∧ r.2 = d) ∨
      (d.hit lba = none ∧ ∃ used free, r.2 = { d with usedList := used, freeList := free }.mapBuf r.1
          (fun e => { e with lba := lba, done := false }) ∧
        ((d.freeList = r.1 :: free ∧ used = d.usedList) ∨
          (d.freeList = [] ∧ free = [] ∧ d.usedList = r.1 :: used))) := by
  unfold lookup at h
  cases hhit : d.hit lba with
  | some b =>
    rw [hhit] at h
    cases h
    exact Or.inl ⟨rfl, rfl⟩
  | none =>
    rw [hhit] at h
    refine Or.inr ⟨rfl, ?_⟩
    cases hfree : d.freeList with
    | cons b free =>
      simp only [recycle, hfree, Option.some.injEq] at h
      cases h
      exact ⟨d.usedList, free, rfl, Or.inl ⟨rfl, rfl⟩⟩
    | nil =>
      cases hused : d.usedList with
      | cons b used =>
        simp only [recycle, hfree, hused, Option.some.injEq] at h
        cases h
        exact ⟨used, [], rfl, Or.inr ⟨rfl, rfl, rfl⟩⟩
      | nil => simp [recycle, hfree, hused] at h

theorem lookup_isSome (h : d.freeList ≠ [] ∨ d.usedList ≠ []) (lba : Word) : ∃ r, d.lookup lba = some r := by
  unfold lookup
  cases d.hit lba with
  | some b => exact ⟨_, rfl⟩
  | none =>
    cases hfree : d.freeList with
    | cons b free => simp [recycle, hfree]
    | nil =>
      cases hused : d.usedList with
      | cons b used => simp [recycle, hfree, hused]
      | nil => simp [hfree, hused] at h

theorem lock_ok (h : (d.bufs b).sem ≠ 0) : d.lock b = some (d.mapBuf b fun e => { e with sem := e.sem - 1 }) :=
  if_neg h

end

end BlockDev

inductive DiskCmd
  | read
  | write

structure Request where
  lba : Word
  cmd : DiskCmd
  buffer : Nat

/-- The hard disk: the request under way, those that wait, and the sectors. -/
structure HardDisk where
  current : Option Request
  reqList : List Request
  sectors : Word → Block

def HardDisk.setSector (hd : HardDisk) (lba : Word) (data : Block) : HardDisk :=
  { hd with sectors := update hd.sectors lba data }

structure CachedDisk where
  dev : BlockDev
  hd : HardDisk

namespace CachedDisk

/-- `hard_disk_t::do_request`: the contents of a buffer that is written go out at once. -/
def doRequest (s : CachedDisk) : CachedDisk :=
  match s.hd.current with
  | some ⟨lba, .write, b⟩ => { s with hd := s.hd.setSector lba (s.dev.bufs b).data }
  | _ => s

def addRequest (s : CachedDisk) (req : Request) : CachedDisk :=
  match s.hd.current with
  | none => { s with hd := { s.hd with current := some req } }.doRequest
  | some _ => { s with hd := { s.hd with reqList := s.hd.reqList ++ [req] } }

def endRequest (s : CachedDisk) : Option CachedDisk :=
  s.hd.current.map fun req =>
    let dev := match req.cmd with
      | .read => s.dev.mapBuf req.buffer fun e => { e with data := s.hd.sectors req.lba }
      | .write => s.dev
    let dev := dev.mapBuf req.buffer fun e => { e with done := true, semWaitDone := e.semWaitDone + 1 }
    CachedDisk.doRequest ⟨dev, { s.hd with current := s.hd.reqList.head?, reqList := s.hd.reqList.tail }⟩

/-- `io_buffer_t::wait`, which returns once the interrupt has come. -/
def wait (s : CachedDisk) (b : Nat) : Option CachedDisk :=
  if (s.dev.bufs b).semWaitDone = 0 then none
  else some { s with dev := s.dev.mapBuf b fun e => { e with semWaitDone := e.semWaitDone - 1 } }

def transfer (s : CachedDisk) (req : Request) : Option CachedDisk :=
  (s.addRequest req).endRequest.bind fun s => s.wait req.buffer

def read (s : CachedDisk) (lba : Word) : Option (Nat × CachedDisk) :=
  (s.dev.getBlock lba).bind fun r =>
    let s := { s with dev := r.2 }
    if (r.2.bufs r.1).done then some (r.1, s)
    else (s.transfer ⟨lba, .read, r.1⟩).map fun s => (r.1, s)

def write (s : CachedDisk) (b : Nat) : Option CachedDisk := s.transfer ⟨(s.dev.bufs b).lba, .write, b⟩

section

variable {s : CachedDisk} {b : Nat}

theorem transfer_write (h : s.hd.current = none) (hq : s.hd.reqList = []) (lba : Word) :
    s.transfer ⟨lba, .write, b⟩ =
      some ⟨s.dev.mapBuf b fun e => { e with done := true }, s.hd.setSector lba (s.dev.bufs b).data⟩ := by
  obtain ⟨dev, current, reqList, sectors⟩ := s
  cases h
  cases hq
  simp [transfer, HardDisk.setSector, addRequest, doRequest, endRequest, wait, BlockDev.mapBuf_mapBuf]

theorem read_fetch {lba : Word} {d : BlockDev} (h : s.dev.lookup lba = some (b, d)) (hsem : (d.bufs b).sem ≠ 0)
    (hdone : (d.bufs b).done = false) (hc : s.hd.current = none) (hq : s.hd.reqList = []) :
    s.read lba = some (b, { s with dev := d.mapBuf b fun e =>
      { e with sem := e.sem - 1, data := s.hd.sectors lba, done := true } }) := by
  obtain ⟨dev, current, reqList, sectors⟩ := s
  cases hc
  cases hq
  simp [read, transfer, addRequest, doRequest, endRequest, wait, BlockDev.getBlock, h, BlockDev.lock_ok hsem, hdone,
    BlockDev.mapBuf_mapBuf]

end

end CachedDisk

end BabyOS
