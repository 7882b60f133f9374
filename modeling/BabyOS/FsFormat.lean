import BabyOS.FsBitmap
import BabyOS.FsInode

open Function

namespace BabyOS

structure Bitmap where
  num : Nat
  set : Nat → Byte

namespace Bitmap

def init (num : Nat) : Bitmap := ⟨(num + 4095) / 4096 * 4096, fun _ => 0⟩

def setbit (b : Bitmap) (index : Nat) : Bitmap :=
  if b.num ≤ index then b
  else { b with set := update b.set (index / 8) (b.set (index / 8) ||| 1#8 <<< (7 - index % 8)) }

end Bitmap

namespace Mkfs

variable (blockNum inodeNum : Nat)

def inodeBlockNum : Nat := inodeSize * inodeNum / blockSize + 1

def bitmapBlockNum : Nat := (blockNum / 8 + blockSize - 1) / blockSize

def dataBlockNum : Nat := blockNum - 1 - 1 - inodeBlockNum inodeNum - bitmapBlockNum blockNum

def firstDataBlock : Nat := blockNum - dataBlockNum blockNum inodeNum

def zero : Block := fun _ => 0

def superBlock : Block :=
  let b := setWord zero 0 (BitVec.ofNat 32 blockNum)
  let b := setWord b 4 (BitVec.ofNat 32 (dataBlockNum blockNum inodeNum))
  setWord b 8 (BitVec.ofNat 32 inodeNum)

def rootInode : DiskInode where
  type := typeDir
  major := 1
  minor := 0
  nlinks := 1
  size := 32
  addrs k := if k = 0 then BitVec.ofNat 32 (firstDataBlock blockNum inodeNum) else 0

def bitmap : Bitmap := (List.range (firstDataBlock blockNum inodeNum + 1)).foldl Bitmap.setbit (Bitmap.init blockNum)

def rootEntries : Block :=
  setBytes (setBytes zero 0 (entryBytes 1 dot) entrySize) entrySize (entryBytes 1 dotDot) entrySize

def image : List Block :=
  [zero, superBlock blockNum inodeNum, (rootInode blockNum inodeNum).store zero inodeSize] ++
    List.replicate (inodeBlockNum inodeNum - 1) zero ++
    (List.range (bitmapBlockNum blockNum)).map (fun i k => (bitmap blockNum inodeNum).set (blockSize * i + k)) ++
    rootEntries :: List.replicate (dataBlockNum blockNum inodeNum - 1) zero

def disk : Nat → Block := fun lba => (image blockNum inodeNum).getD lba zero

end Mkfs

namespace Fs

/-- The blocks that some calls of `alloc_block` in a row give away, up to the first that fails. -/
def allocs : Nat → FsM (List Nat)
  | 0 => pure []
  | n + 1 => do
    let b ← allocBlock
    if b = 0 then pure []
    else do
      let bs ← allocs n
      pure (b :: bs)

/-- Some number of calls of `alloc_block` returns the block before one fails. -/
def Allocated (s : Fs) (b : Nat) : Prop := ∃ n bs t, allocs n s = .ok (bs, t) ∧ b ∈ bs

variable {s : Fs}

theorem zeroBlock_nblocks (lba : Nat) :
    Ends (fun _ => True) (zeroBlock lba) (fun _ t => nblocks t.disk ≤ nblocks s.disk) s := by
  unfold zeroBlock
  rw [ends_bind]
  refine ends_devRead trivial fun h => ?_
  by_cases h1 : lba = 1
  · subst h1
    show (BitVec.toNat (getWord (update s.disk 1 (fun _ => 0) 1) 4)) ≤ _
    rw [update_self]
    exact Nat.zero_le _
  · exact (nblocks_congr (update_of_ne (Ne.symm h1) _ _)).le

theorem allocLoop_below {n left index i : Nat} (hindex : 1 < index) :
    Ends (fun _ => True) (allocLoop n left index i) (fun b t => (b = 0 ∨ b < n) ∧ nblocks t.disk ≤ nblocks s.disk) s := by
  induction left generalizing index i s with
  | zero => exact ⟨Or.inl rfl, le_rfl⟩
  | succ left ih =>
    rw [allocLoop, ends_bind]
    refine ends_devRead trivial fun h => ?_
    dsimp only
    rw [chunk_bits]
    cases hc : clearBit (s.disk index) (min 4096 (n - i)) with
    | some bit =>
      obtain ⟨hb, -, -⟩ := clearBit_some hc
      rw [ends_congr (store_held h), ends_bind]
      refine (zeroBlock_nblocks (i + bit)).imp fun _ t ht => ⟨Or.inr ?_, ht.trans ?_⟩
      · omega
      · exact (nblocks_congr (update_of_ne (by omega) _ _)).le
    | none =>
      rw [ends_congr (bind_ok (releaseBlock_held h))]
      exact ih (by omega)

theorem allocBlock_below :
    Ends (fun _ => True) allocBlock (fun b t => (b = 0 ∨ b < nblocks s.disk) ∧ nblocks t.disk ≤ nblocks s.disk) s := by
  by_cases h : s.bufs 1 = 0
  · exact (ends_of_error (bind_error (bind_error (devRead_locked h)))).mpr trivial
  · rw [ends_congr (allocBlock_loop h)]
    exact allocLoop_below (Nat.lt_of_lt_of_le (by decide) (Nat.le_add_right 3 _))

theorem allocs_below {n : Nat} :
    Ends (fun _ => True) (allocs n) (fun bs _ => ∀ b ∈ bs, b ≠ 0 ∧ b < nblocks s.disk) s := by
  induction n generalizing s with
  | zero => exact fun b hb => absurd hb List.not_mem_nil
  | succ n ih =>
    rw [allocs, ends_bind]
    refine allocBlock_below.imp fun b t ht => ?_
    split_ifs with hb
    · exact fun c hc => absurd hc List.not_mem_nil
    · rw [ends_bind]
      refine ih.imp fun bs _ hbs => ?_
      rintro c hc
      rcases List.mem_cons.mp hc with rfl | hc
      · exact ⟨hb, ht.1.resolve_left hb⟩
      · exact ⟨(hbs c hc).1, (hbs c hc).2.trans_le ht.2⟩

theorem Allocated.below {b : Nat} (h : s.Allocated b) : b ≠ 0 ∧ b < nblocks s.disk := by
  obtain ⟨n, bs, t, hrun, hb⟩ := h
  exact allocs_below.of_ok hrun b hb

end Fs

namespace Bitmap

variable {n num k j : Nat}

theorem foldl_setbit (hn : n ≤ (init num).num) (hj : j < 8) :
    ((List.range n).foldl setbit (init num)).num = (init num).num ∧
    (((List.range n).foldl setbit (init num)).set k).getLsbD j = decide (8 * k + (7 - j) < n) := by
  induction n generalizing k j with
  | zero => exact ⟨rfl, by simp [init]⟩
  | succ n ih =>
    have hnum := (ih (k := k) (by omega) hj).1
    rw [List.range_succ, List.foldl_append, List.foldl_cons, List.foldl_nil]
    generalize hb : (List.range n).foldl setbit (init num) = b at ih hnum ⊢
    rw [setbit, if_neg (by omega)]
    refine ⟨hnum, ?_⟩
    have hflag : 1#8 <<< (7 - n % 8) = Fs.bitFlag (7 - n % 8) := by
      unfold Fs.bitFlag
      rw [Nat.mod_eq_of_lt (show 7 - n % 8 < 8 by omega)]
    by_cases hk : k = n / 8
    · subst hk
      dsimp only
      rw [update_self, hflag, BitVec.getLsbD_or, Fs.getLsbD_bitFlag, (ih (by omega) hj).2, ← Bool.decide_or,
        decide_eq_decide]
      omega
    · dsimp only
      rw [update_of_ne hk, (ih (by omega) hj).2, decide_eq_decide]
      omega

end Bitmap

namespace Mkfs

variable {blockNum inodeNum : Nat}

theorem disk_one : disk blockNum inodeNum 1 = superBlock blockNum inodeNum := rfl

theorem nblocks_disk (h : blockNum < 2 ^ 31) :
    Fs.nblocks (disk blockNum inodeNum) = dataBlockNum blockNum inodeNum := by
  show (getWord (disk blockNum inodeNum 1) 4).toNat = _
  rw [disk_one, superBlock, getWord_setWord_ne (by decide), getWord_setWord_self, BitVec.toNat_ofNat,
    Nat.mod_eq_of_lt]
  unfold dataBlockNum
  omega

/-- On an image of the formatter `alloc_block` gives away just the data blocks behind the root directory's, just
when there are none. -/
theorem alloc_matches_format_iff (hdata : 1 ≤ dataBlockNum blockNum inodeNum) (hint : blockNum < 2 ^ 31) (env : FsEnv) :
    (∀ b, (Fs.fresh (disk blockNum inodeNum) env).Allocated b ↔ firstDataBlock blockNum inodeNum < b ∧ b < blockNum) ↔
      dataBlockNum blockNum inodeNum = 1 := by
  have hfirst : firstDataBlock blockNum inodeNum + dataBlockNum blockNum inodeNum = blockNum := by
    unfold firstDataBlock dataBlockNum
    omega
  have hmeta : 2 < firstDataBlock blockNum inodeNum := by
    have hinode : 1 ≤ inodeBlockNum inodeNum := Nat.le_add_left _ _
    unfold dataBlockNum at hfirst hdata
    omega
  constructor
  · intro h
    by_contra hne
    have hlast := ((h (blockNum - 1)).mpr (by omega)).below.2
    rw [Fs.fresh_disk, nblocks_disk hint] at hlast
    omega
  · intro h1 b
    constructor
    · intro hb
      have hlt := hb.below
      rw [Fs.fresh_disk, nblocks_disk hint, h1] at hlt
      omega
    · intro hb
      omega

theorem alloc_matches_format_small :
    dataBlockNum 8 24 = 1 ∧
      ∀ b, (Fs.fresh (disk 8 24) ⟨fun _ => []⟩).Allocated b ↔ firstDataBlock 8 24 < b ∧ b < 8 :=
  ⟨by decide, (alloc_matches_format_iff (by decide) (by decide) ⟨fun _ => []⟩).mpr (by decide)⟩

theorem disk_bitmap {c : Nat} (hc : c < bitmapBlockNum blockNum) :
    disk blockNum inodeNum (2 + inodeBlockNum inodeNum + c) =
      fun k => (bitmap blockNum inodeNum).set (blockSize * c + k) := by
  have hinode : 1 ≤ inodeBlockNum inodeNum := Nat.le_add_left _ _
  unfold disk image
  rw [List.append_assoc, List.getD_append_right _ _ _ _ (by simp; omega), List.getD_append _ _ _ _ (by simp; omega),
    List.getD_eq_getElem _ _ (by simp; omega), List.getElem_map, List.getElem_range]
  funext k
  congr 2
  simp
  omega

theorem used_disk {lba : Nat} (hc : lba / 4096 < bitmapBlockNum blockNum)
    (hnum : firstDataBlock blockNum inodeNum < blockNum) :
    Fs.used (disk blockNum inodeNum) (2 + inodeBlockNum inodeNum) lba =
      decide (8 * (lba / 8) + (7 - lba % 8) ≤ firstDataBlock blockNum inodeNum) := by
  unfold Fs.used Fs.bitAt
  rw [disk_bitmap hc]
  have hk : blockSize * (lba / 4096) + lba % 4096 / 8 = lba / 8 := by
    unfold blockSize
    omega
  have hj : lba % 4096 % 8 = lba % 8 := by omega
  dsimp only
  rw [hk, hj, bitmap, (Bitmap.foldl_setbit _ (Nat.mod_lt _ (by decide))).2, decide_eq_decide, Nat.lt_succ_iff]
  unfold Bitmap.init
  dsimp only
  omega

theorem bitmapStart_disk (h : inodeSize * inodeNum < 2 ^ 32) :
    Fs.bitmapStart (disk blockNum inodeNum) = 2 + inodeBlockNum inodeNum := by
  have hn : (Fs.superBlock (disk blockNum inodeNum)).ninodes = BitVec.ofNat 32 inodeNum := by
    show getWord (disk blockNum inodeNum 1) 8 = _
    rw [disk_one, superBlock, getWord_setWord_self]
  unfold inodeSize at h
  unfold Fs.bitmapStart inodeBlockNum
  have hmul : BitVec.toNat (BitVec.ofNat 32 inodeNum) * inodeSize % 2 ^ 32 = inodeSize * inodeNum := by
    rw [BitVec.toNat_ofNat, Nat.mod_eq_of_lt (show inodeNum < 2 ^ 32 by omega), Nat.mul_comm]
    exact Nat.mod_eq_of_lt h
  rw [hn, hmul]
  omega

theorem allocBlock_image (env : FsEnv) :
    Fs.allocBlock (Fs.fresh (disk 8192 1600) env) =
      .ok (200, { Fs.fresh (disk 8192 1600) env with disk := Fs.allocDisk (disk 8192 1600) 203 200 }) := by
  have hbase : Fs.bitmapStart (disk 8192 1600) = 203 := bitmapStart_disk (by decide)
  have hbits : ∀ l ≤ 200, Fs.used (disk 8192 1600) 203 l = decide (8 * (l / 8) + (7 - l % 8) ≤ 205) :=
    fun l hl => used_disk (show l / 4096 < 2 by omega) (by decide)
  have hnum : Fs.nblocks (disk 8192 1600) = dataBlockNum 8192 1600 := nblocks_disk (by decide)
  rw [← hbase]
  refine Fs.allocBlock_found (s := Fs.fresh (disk 8192 1600) env) Nat.one_ne_zero ?_ ?_ (fun l hl => ?_)
    Nat.one_ne_zero fun _ _ => Nat.one_ne_zero
  · show 200 < Fs.nblocks (disk 8192 1600)
    rw [hnum]
    decide
  · show Fs.used (disk 8192 1600) (Fs.bitmapStart (disk 8192 1600)) 200 = false
    rw [hbase, hbits 200 le_rfl]
    rfl
  · show Fs.used (disk 8192 1600) (Fs.bitmapStart (disk 8192 1600)) l = true
    rw [hbase, hbits l (by omega), decide_eq_true_eq]
    omega

/-- On the image of 8192 blocks and 1600 inodes, whose data blocks start at 205, the first block given
away holds inodes and the last data block never is. -/
theorem alloc_gives_inode_block_away :
    (Fs.fresh (disk 8192 1600) ⟨fun _ => []⟩).Allocated 200 ∧ Fs.inodeBlock 1584 = 200 ∧
      firstDataBlock 8192 1600 = 205 ∧ ¬(Fs.fresh (disk 8192 1600) ⟨fun _ => []⟩).Allocated 8191 := by
  refine ⟨⟨1, [200], _, (bind_ok (allocBlock_image _)).trans rfl, List.mem_singleton_self _⟩, by decide, by decide,
    fun h => ?_⟩
  have hlt := h.below.2
  rw [Fs.fresh_disk, nblocks_disk (by decide)] at hlt
  exact absurd hlt (by decide)

end Mkfs

end BabyOS
