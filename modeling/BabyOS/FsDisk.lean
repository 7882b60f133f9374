import BabyOS.Bytes
import BabyOS.MmPages
import BabyOS.Prog

open Function

namespace BabyOS

abbrev Half := BitVec 16

abbrev Block := Nat → Byte

def blockSize : Nat := 512
def ndirect : Nat := 12
def nindirect : Nat := 128
def maxFileSize : Nat := ndirect + nindirect
def maxPath : Nat := 14
def inodeSize : Nat := 64
def entrySize : Nat := 16
def rootDev : Word := 1
def rootInum : Word := 1

structure SuperBlock where
  size : Word
  nblocks : Word
  ninodes : Word

structure DiskInode where
  type : Half
  major : Half
  minor : Half
  nlinks : Half
  size : Word
  addrs : Fin 13 → Word

def typeDir : Half := 1
def typeFile : Half := 2
def typeDev : Half := 3

/-- An entry of the inode cache. The count of its semaphore is all that a sequential run sees of it. -/
structure Inode extends DiskInode where
  dev : Word
  inum : Word
  ref : Word
  valid : Bool
  sem : Nat

abbrev InodeIx := Fin 64

instance neZeroAddrs : NeZero 13 := ⟨by decide⟩

instance neZeroInodes : NeZero 64 := ⟨by decide⟩

structure FsProc where
  cwd : InodeIx

/-- The process structures, of two pages each, that an address space of 4 GiB holds. -/
abbrev ProcIx := Fin 524288

instance neZeroProcs : NeZero 524288 := ⟨Nat.succ_ne_zero 524287⟩

/-- What a call meets outside: what the console delivers to a read of some size. -/
structure FsEnv where
  console : Word → List Byte

/-- The file system. The block device keeps a buffer for each block, locked between `read` and `release_block`,
with the count of its semaphore beside it. -/
structure Fs where
  disk : Nat → Block
  bufs : Nat → Nat
  inodes : InodeIx → Inode
  procs : ProcIx → Option FsProc
  env : FsEnv

/-- Why a call does not return: it waits for a semaphore that nobody will raise, follows a null
pointer, indexes behind the indirect block, or panics. -/
inductive Halt
  | inodeLock
  | bufferLock
  | null
  | bounds
  | panic
  deriving DecidableEq

abbrev FsM (α : Type) := Prog Halt Fs α

namespace DiskInode

def load (b : Block) (o : Nat) : DiskInode where
  type := getHalf b o
  major := getHalf b (o + 2)
  minor := getHalf b (o + 4)
  nlinks := getHalf b (o + 6)
  size := getWord b (o + 8)
  addrs k := getWord b (o + 12 + 4 * k)

def store (d : DiskInode) (b : Block) (o : Nat) : Block :=
  let b := setHalf b o d.type
  let b := setHalf b (o + 2) d.major
  let b := setHalf b (o + 4) d.minor
  let b := setHalf b (o + 6) d.nlinks
  let b := setWord b (o + 8) d.size
  setWords b (o + 12) d.addrs

theorem store_of_not_mem {d : DiskInode} {b : Block} {o k : Nat} (h : ¬(o ≤ k ∧ k < o + inodeSize)) :
    d.store b o k = b k := by
  unfold inodeSize at h
  unfold store
  rw [setWords_of_not_mem (by omega), setWord_of_not_mem (by omega), setHalf_of_not_mem (by omega),
    setHalf_of_not_mem (by omega), setHalf_of_not_mem (by omega), setHalf_of_not_mem (by omega)]

end DiskInode

namespace Fs

/-- `block_dev_t::read`. Every block has a buffer of its own here. `get_block` takes an old buffer for a block that is
not cached where no buffer is free, and may take one that its caller holds: `block_map` holds the indirect block while
it allocates, and `put_inode` while it frees the entries; the other functions hold one buffer at a time. -/
def devRead (lba : Nat) : FsM Block := do
  let s ← get
  if s.bufs lba = 0 then throw .bufferLock
  else do
    modify fun s => { s with bufs := update s.bufs lba (s.bufs lba - 1) }
    pure (s.disk lba)

def devWrite (lba : Nat) (b : Block) : FsM Unit :=
  modify fun s => { s with disk := update s.disk lba b }

def releaseBlock (lba : Nat) : FsM Unit :=
  modify fun s => { s with bufs := update s.bufs lba (s.bufs lba + 1) }

def readSuperBlock : FsM SuperBlock := do
  let b ← devRead 1
  releaseBlock 1
  pure ⟨getWord b 0, getWord b 4, getWord b 8⟩

def bitmapBlock : FsM Nat := do
  let sb ← readSuperBlock
  pure (3 + sb.ninodes.toNat * inodeSize % 2 ^ 32 / blockSize)

def zeroBlock (lba : Nat) : FsM Unit := do
  let _ ← devRead lba
  devWrite lba fun _ => 0
  releaseBlock lba

def bitFlag (bit : Nat) : Byte := 1#8 <<< (bit % 8)

/-- The loop of `alloc_block` over the bits of one block of the bitmap. -/
def clearBit (b : Block) (n : Nat) : Option Nat :=
  (List.range n).find? fun bit => b (bit / 8) &&& bitFlag bit = 0

/-- The loop of `alloc_block` over the blocks of the bitmap, of which some are left. -/
def allocLoop (nblocks : Nat) : Nat → Nat → Nat → FsM Nat
  | 0, _, _ => pure 0
  | left + 1, index, i => do
    let b ← devRead index
    let n := if i + blockSize * 8 > nblocks then nblocks - i else blockSize * 8
    match clearBit b n with
    | some bit => do
      devWrite index (update b (bit / 8) (b (bit / 8) ||| bitFlag bit))
      releaseBlock index
      zeroBlock (i + bit)
      pure (i + bit)
    | none => do
      releaseBlock index
      allocLoop nblocks left (index + 1) (i + blockSize * 8)

def allocBlock : FsM Nat := do
  let sb ← readSuperBlock
  let index ← bitmapBlock
  allocLoop sb.nblocks.toNat ((sb.nblocks.toNat + (blockSize * 8 - 1)) / (blockSize * 8)) index 0

def freeBlock (lba : Nat) : FsM Unit := do
  let index ← bitmapBlock
  let block := lba / (blockSize * 8)
  let offset := lba % (blockSize * 8)
  let b ← devRead (index + block)
  if b (offset / 8) &&& bitFlag offset = 0 then pure ()
  else do
    devWrite (index + block) (update b (offset / 8) (b (offset / 8) &&& ~~~bitFlag offset))
    releaseBlock (index + block)

end Fs

end BabyOS
