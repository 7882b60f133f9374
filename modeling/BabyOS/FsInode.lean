import BabyOS.FsDisk

open Function

namespace BabyOS

namespace Fs

def inodeAt (i : InodeIx) : FsM Inode := do
  let s ← get
  pure (s.inodes i)

def setInode (i : InodeIx) (f : Inode → Inode) : FsM Unit :=
  modify fun s => { s with inodes := update s.inodes i (f (s.inodes i)) }

/-- `inode_t::lock`. Where the count is zero the caller waits for a holder that is itself or is gone. -/
def lock (i : InodeIx) : FsM Unit := do
  let inode ← inodeAt i
  if inode.sem = 0 then throw .inodeLock
  else setInode i fun e => { e with sem := e.sem - 1 }

def unlock (i : InodeIx) : FsM Unit := setInode i fun e => { e with sem := e.sem + 1 }

def inodeBlock (id : Nat) : Nat := 2 + id / (blockSize / inodeSize)

def inodeOffset (id : Nat) : Nat := id % (blockSize / inodeSize)

def readFromDisk (i : InodeIx) (id : Word) : FsM Unit := do
  let inode ← inodeAt i
  if inode.valid then pure ()
  else do
    let b ← devRead (inodeBlock id.toNat)
    releaseBlock (inodeBlock id.toNat)
    setInode i fun e =>
      { e with toDiskInode := DiskInode.load b (inodeOffset id.toNat * inodeSize), valid := true }

def writeToDisk (i : InodeIx) : FsM Unit := do
  let inode ← inodeAt i
  let block := inode.inum.toNat / (blockSize / inodeSize) + 2
  let offset := inode.inum.toNat % (blockSize / inodeSize)
  let b ← devRead block
  devWrite block (inode.toDiskInode.store b (offset * inodeSize))
  releaseBlock block

def setAddr (i : InodeIx) (k : Fin 13) (lba : Nat) : FsM Unit :=
  setInode i fun e => { e with addrs := update e.addrs k (BitVec.ofNat 32 lba) }

/-- The entry of the inode's own table, with a block allocated for it where it has none. -/
def ownAddr (i : InodeIx) (k : Fin 13) : FsM Nat := do
  let inode ← inodeAt i
  if inode.addrs k = 0 then do
    let lba ← allocBlock
    setAddr i k lba
    pure lba
  else pure (inode.addrs k).toNat

def blockMap (i : InodeIx) (block : Nat) : FsM Nat :=
  if h : block < ndirect then ownAddr i ⟨block, Nat.lt_succ_of_lt h⟩
  else do
    let table ← ownAddr i 12
    let b ← devRead table
    if nindirect ≤ block - ndirect then throw .bounds
    else do
      let lba := getWord b (4 * (block - ndirect))
      if lba = 0 then do
        let lba ← allocBlock
        devWrite table (setWord b (4 * (block - ndirect)) (BitVec.ofNat 32 lba))
        releaseBlock table
        pure lba
      else do
        releaseBlock table
        pure lba.toNat

/-- The bytes that one round of the loops of `read_inode` and `write_inode` copies. -/
def roundSize (offset : Word) (left : Nat) : Nat := min (blockSize - offset.toNat % blockSize) left

theorem roundSize_pos {offset : Word} {left : Nat} (h : left ≠ 0) : 0 < roundSize offset left := by
  unfold roundSize blockSize
  omega

def readLoop (i : InodeIx) (offset : Word) (left : Nat) : FsM (List Byte) :=
  if left = 0 then pure []
  else do
    let lba ← blockMap i (offset.toNat / blockSize)
    let b ← devRead lba
    let nbyte := roundSize offset left
    releaseBlock lba
    let rest ← readLoop i (offset + BitVec.ofNat 32 nbyte) (left - nbyte)
    pure ((List.range nbyte).map (fun k => b (offset.toNat % blockSize + k)) ++ rest)
termination_by left
decreasing_by exact Nat.sub_lt (Nat.pos_of_ne_zero ‹_›) (roundSize_pos ‹_›)

/-- The bytes read, or `none` for the result -1. -/
def readInode (i : InodeIx) (offset size : Word) : FsM (Option (List Byte)) := do
  let inode ← inodeAt i
  if inode.type = typeDev then
    if inode.major ≠ 0 then pure none
    else do
      let s ← get
      pure (some (s.env.console size))
  else if inode.size < offset then pure none
  else do
    let size := if inode.size < offset + size then inode.size - offset else size
    let bytes ← readLoop i offset size.toNat
    pure (some bytes)

def writeLoop (i : InodeIx) (src : Nat → Byte) (offset : Word) (left : Nat) : FsM Word :=
  if left = 0 then pure offset
  else do
    let lba ← blockMap i (offset.toNat / blockSize)
    let b ← devRead lba
    let nbyte := roundSize offset left
    devWrite lba (setBytes b (offset.toNat % blockSize) src nbyte)
    releaseBlock lba
    writeLoop i (fun k => src (k + nbyte)) (offset + BitVec.ofNat 32 nbyte) (left - nbyte)
termination_by left
decreasing_by exact Nat.sub_lt (Nat.pos_of_ne_zero ‹_›) (roundSize_pos ‹_›)

def writeInode (i : InodeIx) (src : Nat → Byte) (offset size : Word) : FsM Int := do
  let inode ← inodeAt i
  if inode.type = typeDev then
    if inode.major ≠ 0 then pure (-1) else pure size.toInt
  else if inode.size < offset then pure (-1)
  else if maxFileSize * blockSize < (offset + size).toNat then pure (-1)
  else do
    let last ← writeLoop i src offset size.toNat
    let inode ← inodeAt i
    if 0 < size.toInt ∧ inode.size < last then do
      setInode i fun e => { e with size := last }
      writeToDisk i
      pure size.toInt
    else pure size.toInt

def cached (s : Fs) (dev inum : Word) : Option InodeIx :=
  (List.finRange 64).find? fun j =>
    (s.inodes j).ref ≠ 0 ∧ (s.inodes j).dev = dev ∧ (s.inodes j).inum = inum

def emptyEntry (s : Fs) : Option InodeIx := (List.finRange 64).find? fun j => (s.inodes j).ref = 0

def getInode (dev inum : Word) : FsM (Option InodeIx) := do
  let s ← get
  match s.cached dev inum with
  | some j => do
    setInode j fun e => { e with ref := e.ref + 1 }
    pure (some j)
  | none =>
    match s.emptyEntry with
    | some j => do
      setInode j fun e =>
        { e with dev := dev, inum := inum, ref := 1, valid := false, sem := 1, size := 0, addrs := fun _ => 0 }
      pure (some j)
    | none => pure none

def freeDirect (i : InodeIx) : List (Fin 13) → FsM Unit
  | [] => pure ()
  | k :: ks => do
    let inode ← inodeAt i
    if inode.addrs k ≠ 0 then do
      freeBlock (inode.addrs k).toNat
      setAddr i k 0
      freeDirect i ks
    else freeDirect i ks

/-- The loop over the entries of the indirect block; it frees the entries that are zero, too. -/
def freeEntries (b : Block) : List Nat → FsM Block
  | [] => pure b
  | k :: ks => do
    freeBlock (getWord b (4 * k)).toNat
    freeEntries (setWord b (4 * k) 0) ks

def freeIndirect (i : InodeIx) : FsM Unit := do
  let inode ← inodeAt i
  if inode.addrs 12 ≠ 0 then do
    let table := (inode.addrs 12).toNat
    let b ← devRead table
    let b ← freeEntries b (List.range nindirect)
    devWrite table b
    releaseBlock table
    freeBlock table
    setAddr i 12 0
  else pure ()

def putInode (i : InodeIx) : FsM Unit := do
  lock i
  let inode ← inodeAt i
  if inode.valid ∧ inode.nlinks = 0 ∧ inode.ref = 1 then do
    setInode i fun e => { e with type := 0 }
    freeDirect i ((List.finRange 13).take ndirect)
    freeIndirect i
    setInode i fun e => { e with size := 0 }
    writeToDisk i
    setInode i fun e => { e with valid := false }
    unlock i
    setInode i fun e => { e with ref := e.ref - 1 }
  else do
    unlock i
    setInode i fun e => { e with ref := e.ref - 1 }

def getRoot : FsM (Option InodeIx) := do
  let root ← getInode rootDev rootInum
  match root with
  | some i => do
    readFromDisk i rootInum
    pure (some i)
  | none => throw .null

end Fs

abbrev Name := List Byte

def dot : Name := [46#8]
def dotDot : Name := [46#8, 46#8]

def entryBytes (inum : Half) (name : Name) : Nat → Byte :=
  fun k => if k < 2 then inum.extractLsb' (8 * k) 8 else (name.take maxPath).getD (k - 2) 0

namespace Fs

def modeRdonly : Word := 0x1
def modeWronly : Word := 0x2
def modeRdwr : Word := 0x4

def setProcess (p : ProcIx) (proc : Option FsProc) : FsM Unit :=
  modify fun s => { s with procs := update s.procs p proc }

/-- The file system before `get_root`: `init` has cleared the tables, and no buffer is locked. -/
def fresh (disk : Nat → Block) (env : FsEnv) : Fs where
  disk := disk
  bufs _ := 1
  inodes _ :=
    { type := 0, major := 0, minor := 0, nlinks := 0, size := 0, addrs := fun _ => 0, dev := 0, inum := 0, ref := 0
      valid := false, sem := 0 }
  procs _ := none
  env := env

@[simp]
theorem fresh_disk (disk : Nat → Block) (env : FsEnv) : (fresh disk env).disk = disk := rfl

def startInitProc : FsM Unit := do
  let root ← getRoot
  match root with
  | some i => setProcess 0 (some { cwd := i })
  | none => throw .null

end Fs

end BabyOS
