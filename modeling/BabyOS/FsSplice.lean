import BabyOS.InodeStore
import Mathlib.Data.Finset.Max

open BitVec Function List

namespace BabyOS

namespace Fs

/-- The number of a block of a file, 0 where it has none. -/
def blockAddr (d : DiskInode) (disk : Nat → Block) (block : Nat) : Nat :=
  d.addr disk (if block < ndirect then block else block + 1)

/-- The number of a block of the file behind an entry of the inode cache. -/
abbrev fileBlock (s : Fs) (i : InodeIx) (block : Nat) : Nat := blockAddr (s.inodes i).toDiskInode s.disk block

/-- The blocks that the bitmap shows as free. -/
def freeBlocks (disk : Nat → Block) : Finset Nat :=
  (Finset.range (nblocks disk)).filter fun l => used disk (bitmapStart disk) l = false

/-- The direct blocks of a range that the file does not have. -/
def missing (s : Fs) (i : InodeIx) (off left : Nat) : Finset Nat :=
  (Finset.range ndirect).filter fun b =>
    s.fileBlock i b = 0 ∧ max off (b * blockSize) < min (off + left) ((b + 1) * blockSize)

/-- The bytes of a file from `off` on, `left` of them, are those of `src`; for this only blocks that were free have
been given to the file, and apart from these and the bitmap no other byte of the disk has changed. -/
structure Wrote (s t : Fs) (i : InodeIx) (src : Nat → Byte) (off left : Nat) : Prop where
  node : ∃ addrs, t.inodes i = { s.inodes i with addrs := addrs }
  bufs : t.bufs = s.bufs
  super : t.disk 1 = s.disk 1
  placed : (t.inodes i).toDiskInode.Placed t.disk
  free : freeBlocks t.disk ⊆ freeBlocks s.disk
  kept : ∀ b < maxFileSize, s.fileBlock i b ≠ 0 → t.fileBlock i b = s.fileBlock i b
  gained : ∀ b < maxFileSize, s.fileBlock i b = 0 → t.fileBlock i b ≠ 0 → t.fileBlock i b ∈ freeBlocks s.disk
  bytes : ∀ p, off ≤ p → p < off + left → t.fileBlock i (p / blockSize) ≠ 0 ∧
    t.disk (t.fileBlock i (p / blockSize)) (p % blockSize) = src (p - off)
  others : ∀ l k, l < bitmapStart s.disk ∨ metaEnd s.disk ≤ l → l ∉ freeBlocks s.disk →
    (∀ p, off ≤ p → p < off + left → s.fileBlock i (p / blockSize) ≠ 0 → l = s.fileBlock i (p / blockSize) →
      k ≠ p % blockSize) → t.disk l k = s.disk l k

section

variable {s t u : Fs} {i : InodeIx} {b lba : Nat} {offset : Word} {off left : Nat} {src : Nat → Byte}
  {disk disk' : Nat → Block} {l : Nat}

theorem fileIndex_lt (h : b < maxFileSize) : (if b < ndirect then b else b + 1) < addrCount := by
  unfold addrCount
  unfold maxFileSize ndirect nindirect at *
  split
  · omega
  · omega

theorem fileIndex_ne : (if b < ndirect then b else b + 1) ≠ 12 := by
  unfold ndirect
  split
  · omega
  · omega

theorem fileIndex_inj {c : Nat} (h : (if b < ndirect then b else b + 1) = if c < ndirect then c else c + 1) : b = c := by
  split at h
  · split at h
    · exact h
    · omega
  · split at h
    · omega
    · omega

theorem div_lt_maxFileSize {p : Nat} (h : p < maxFileSize * blockSize) : p / blockSize < maxFileSize := by
  unfold blockSize at *
  omega

theorem mem_freeBlocks : l ∈ freeBlocks disk ↔ l < nblocks disk ∧ used disk (bitmapStart disk) l = false := by
  rw [freeBlocks, Finset.mem_filter, Finset.mem_range]

/-- Blocks behind the bitmap do not show in it. -/
theorem used_update (h : metaEnd disk ≤ lba) (hl : l < nblocks disk) (x : Block) :
    used (update disk lba x) (bitmapStart disk) l = used disk (bitmapStart disk) l := by
  unfold metaEnd at h
  exact used_congr (update_of_ne (by omega) _ _)

theorem super_update (h : metaEnd disk ≤ lba) (x : Block) : update disk lba x 1 = disk 1 := by
  have hstart := two_lt_bitmapStart disk
  unfold metaEnd at h
  exact update_of_ne (by omega) _ _

theorem freeBlocks_update (h : metaEnd disk ≤ lba) (x : Block) : freeBlocks (update disk lba x) = freeBlocks disk := by
  ext l
  have hone := super_update h x
  rw [mem_freeBlocks, mem_freeBlocks, nblocks_congr hone, bitmapStart_congr hone]
  exact and_congr_right fun hl => by rw [used_update h hl]

theorem blockAddr_data {d : DiskInode} (h : d.Placed disk) (hb : b < maxFileSize) (h0 : blockAddr d disk b ≠ 0) :
    metaEnd disk ≤ blockAddr d disk b ∧ blockAddr d disk b < nblocks disk ∧
      used disk (bitmapStart disk) (blockAddr d disk b) = true :=
  h.data _ (fileIndex_lt hb) h0

theorem blockAddr_ne_table {d : DiskInode} (h : d.Placed disk) (hb : b < maxFileSize) (h0 : blockAddr d disk b ≠ 0) :
    blockAddr d disk b ≠ (d.addrs 12).toNat := by
  intro heq
  exact fileIndex_ne (h.inj _ (fileIndex_lt hb) 12 (by decide) h0 (heq.trans (DiskInode.addr_own (by decide)).symm))

theorem blockAddr_inj {d : DiskInode} {c : Nat} (h : d.Placed disk) (hb : b < maxFileSize) (hc : c < maxFileSize)
    (h0 : blockAddr d disk b ≠ 0) (heq : blockAddr d disk b = blockAddr d disk c) : b = c :=
  fileIndex_inj (h.inj _ (fileIndex_lt hb) _ (fileIndex_lt hc) h0 heq)

theorem table_data {d : DiskInode} (h : d.Placed disk) (h12 : d.addrs 12 ≠ 0) :
    metaEnd disk ≤ (d.addrs 12).toNat ∧ used disk (bitmapStart disk) (d.addrs 12).toNat = true := by
  have haddr : d.addr disk 12 = (d.addrs 12).toNat := DiskInode.addr_own (by decide)
  obtain ⟨h1, -, h3⟩ := h.data 12 (by decide) (by rw [haddr]; exact fun hz => h12 (eq_of_toNat_eq hz))
  rw [haddr] at h1 h3
  exact ⟨h1, h3⟩

theorem addr_congr {d : DiskInode} (h : disk' (d.addrs 12).toNat = disk (d.addrs 12).toNat) (k : Nat) :
    d.addr disk' k = d.addr disk k := by
  unfold DiskInode.addr
  rw [h]

/-- A block of the file that is not the indirect one may be written. -/
theorem placed_update {d : DiskInode} (h : d.Placed disk) (hl : metaEnd disk ≤ lba) (ht : lba ≠ (d.addrs 12).toNat)
    (x : Block) : d.Placed (update disk lba x) := by
  have hone := super_update hl x
  have haddr : ∀ k, d.addr (update disk lba x) k = d.addr disk k := addr_congr (update_of_ne (Ne.symm ht) _ _)
  refine ⟨fun k hk h0 => ?_, fun k hk m hm h0 heq => ?_⟩
  · rw [haddr] at h0 ⊢
    obtain ⟨h1, h2, h3⟩ := h.data k hk h0
    rw [metaEnd_congr hone, nblocks_congr hone, bitmapStart_congr hone, used_update hl h2]
    exact ⟨h1, h2, h3⟩
  · rw [haddr] at h0 heq
    rw [haddr] at heq
    exact h.inj k hk m hm h0 heq

theorem Wrote.refl (h : (s.inodes i).toDiskInode.Placed s.disk) : Wrote s s i src off 0 where
  node := ⟨_, rfl⟩
  bufs := rfl
  super := rfl
  placed := h
  free := subset_rfl
  kept _ _ _ := rfl
  gained _ _ h0 h1 := absurd h0 h1
  bytes p h1 h2 := by omega
  others _ _ _ _ _ := rfl

theorem Wrote.trans {n m : Nat} (h : Wrote s t i src off n) (h' : Wrote t u i (fun k => src (k + n)) (off + n) m)
    (hmax : off + n + m ≤ maxFileSize * blockSize) : Wrote s u i src off (n + m) := by
  have hdiv : ∀ p, p < off + n + m → p / blockSize < maxFileSize := fun p hp => div_lt_maxFileSize (by omega)
  refine ⟨?_, h'.bufs.trans h.bufs, h'.super.trans h.super, h'.placed, h'.free.trans h.free, fun b hb h0 => ?_,
    fun b hb h0 h1 => ?_, fun p h1 h2 => ?_, fun l k hl hfree hk => ?_⟩
  · obtain ⟨a, ha⟩ := h.node
    obtain ⟨a', ha'⟩ := h'.node
    exact ⟨a', by rw [ha', ha]⟩
  · have hst := h.kept b hb h0
    rw [← hst] at h0
    rw [h'.kept b hb h0, hst]
  · by_cases ht : t.fileBlock i b = 0
    · exact h.free (h'.gained b hb ht h1)
    · rw [h'.kept b hb ht]
      exact h.gained b hb h0 ht
  · by_cases hp : p < off + n
    · obtain ⟨h0, hbyte⟩ := h.bytes p h1 hp
      have hb := hdiv p (by omega)
      obtain ⟨hdata, hlt, hused⟩ := blockAddr_data h.placed hb h0
      rw [h'.kept _ hb h0, h'.others _ _ (Or.inr hdata), hbyte]
      · exact ⟨h0, rfl⟩
      · rw [mem_freeBlocks]
        rintro ⟨-, hfree⟩
        exact Bool.false_ne_true (hfree.symm.trans hused)
      · intro q hq1 hq2 _ heq hmod
        have hpq := blockAddr_inj h.placed hb (hdiv q (by omega)) h0 heq
        have hp' := Nat.div_add_mod p blockSize
        have hq' := Nat.div_add_mod q blockSize
        rw [hpq, hmod, hq'] at hp'
        omega
    · obtain ⟨h0, hbyte⟩ := h'.bytes p (by omega) (by omega)
      exact ⟨h0, by rw [hbyte, show p - (off + n) + n = p - off by omega]⟩
  · rw [h'.others l k, h.others l k hl hfree fun p h1 h2 => hk p h1 (by omega)]
    · rwa [bitmapStart_congr h.super, metaEnd_congr h.super]
    · exact fun hmem => hfree (h.free hmem)
    · intro q h1 h2 h0 heq
      by_cases hs : s.fileBlock i (q / blockSize) = 0
      · exact absurd (heq ▸ h.gained _ (hdiv q (by omega)) hs h0) hfree
      · exact hk q (by omega) (by omega) hs (by rwa [← h.kept _ (hdiv q (by omega)) hs])

/-- One round of the loop, into a block that the file has. -/
theorem wrote_round {n : Nat} (h : (s.inodes i).toDiskInode.Placed s.disk) (hb : off / blockSize < maxFileSize)
    (hlba : s.fileBlock i (off / blockSize) = lba) (h0 : lba ≠ 0) (hn : n ≤ blockSize - off % blockSize) :
    Wrote s (s.setBlock lba (setBytes (s.disk lba) (off % blockSize) src n)) i src off n := by
  have hz : s.fileBlock i (off / blockSize) ≠ 0 := by rwa [hlba]
  have hdata : metaEnd s.disk ≤ s.fileBlock i (off / blockSize) := (blockAddr_data h hb hz).1
  have hne : s.fileBlock i (off / blockSize) ≠ ((s.inodes i).addrs 12).toNat := blockAddr_ne_table h hb hz
  rw [hlba] at hdata hne
  have hsame : ∀ p, off ≤ p → p < off + n →
      p / blockSize = off / blockSize ∧ p % blockSize = off % blockSize + (p - off) := by
    intro p h1 h2
    unfold blockSize at *
    omega
  have haddr : ∀ (x : Block) c, (s.setBlock lba x).fileBlock i c = s.fileBlock i c := fun x c =>
    addr_congr (update_of_ne (Ne.symm hne) _ _) _
  refine ⟨⟨_, rfl⟩, rfl, super_update hdata _, placed_update h hdata hne _, (freeBlocks_update hdata _).subset,
    fun b _ _ => haddr _ b, fun b _ hz h1 => absurd ((haddr _ b).trans hz) h1, fun p h1 h2 => ?_,
    fun l k _ _ hk => ?_⟩
  · obtain ⟨hdiv, hmod⟩ := hsame p h1 h2
    rw [haddr, hdiv, hlba, hmod]
    refine ⟨h0, ?_⟩
    change update s.disk lba _ lba _ = _
    rw [update_self, setBytes, if_pos (by omega), Nat.add_sub_cancel_left]
  · change update s.disk lba _ l k = _
    by_cases hl : l = lba
    · rw [hl, update_self, setBytes, if_neg fun hin => ?_]
      obtain ⟨hdiv, hmod⟩ := hsame (off + (k - off % blockSize)) (by omega) (by omega)
      refine hk (off + (k - off % blockSize)) (by omega) (by omega) ?_ ?_ ?_
      · rwa [hdiv, hlba]
      · rw [hdiv, hlba, hl]
      · rw [hmod]
        omega
    · rw [update_of_ne hl]

/-- `alloc_block` gives away the first block that is not marked. -/
theorem allocBlock_free (hb : ∀ l, s.bufs l ≠ 0) (hfree : (freeBlocks s.disk).Nonempty) : ∃ lba ∈ freeBlocks s.disk,
    allocBlock s = .ok (lba, { s with disk := allocDisk s.disk (bitmapStart s.disk) lba }) := by
  have hmin : ∀ m < (freeBlocks s.disk).min' hfree, used s.disk (bitmapStart s.disk) m = true := by
    intro m hm
    by_contra hnot
    have hlt := (mem_freeBlocks.mp ((freeBlocks s.disk).min'_mem hfree)).1
    have hmem := mem_freeBlocks.mpr ⟨hm.trans hlt, Bool.eq_false_of_not_eq_true hnot⟩
    exact absurd ((freeBlocks s.disk).min'_le m hmem) (by omega)
  have hmem := (freeBlocks s.disk).min'_mem hfree
  obtain ⟨hlt, hunused⟩ := mem_freeBlocks.mp hmem
  exact ⟨_, hmem, allocBlock_found (hb 1) hlt hunused hmin (hb _) fun c _ => hb _⟩

theorem used_allocDisk (h : metaEnd disk ≤ lba) (hl : l < nblocks disk) :
    used (allocDisk disk (bitmapStart disk) lba) (bitmapStart disk) l =
      (decide (l = lba) || used disk (bitmapStart disk) l) := by
  unfold metaEnd at h
  rw [← used_mark]
  exact used_congr (update_of_ne (by omega) _ _)

theorem allocDisk_of_ne (hl : l < bitmapStart disk ∨ metaEnd disk ≤ l) (hlba : lba < nblocks disk) (hne : l ≠ lba) :
    allocDisk disk (bitmapStart disk) lba l = disk l := by
  unfold metaEnd at hl
  unfold allocDisk mark
  rw [update_of_ne hne, update_of_ne (by omega)]

theorem freeBlocks_alloc (h : metaEnd disk ≤ lba) (hlba : lba < nblocks disk) :
    freeBlocks (allocDisk disk (bitmapStart disk) lba) = (freeBlocks disk).erase lba := by
  have hstart := two_lt_bitmapStart disk
  have hone : allocDisk disk (bitmapStart disk) lba 1 = disk 1 := by
    refine allocDisk_of_ne (Or.inl (by omega)) hlba ?_
    unfold metaEnd at h
    omega
  ext l
  rw [Finset.mem_erase, mem_freeBlocks, mem_freeBlocks, nblocks_congr hone, bitmapStart_congr hone]
  constructor
  · rintro ⟨hl, hu⟩
    rw [used_allocDisk h hl, Bool.or_eq_false_iff, decide_eq_false_iff_not] at hu
    exact ⟨hu.1, hl, hu.2⟩
  · rintro ⟨hne, hl, hu⟩
    refine ⟨hl, ?_⟩
    rw [used_allocDisk h hl, hu, decide_eq_false hne]
    rfl

/-- The state after `block_map` has given the file a direct block. -/
def gainedBlock (s : Fs) (i : InodeIx) (k : Fin 13) (lba : Nat) : Fs :=
  ({ s with disk := allocDisk s.disk (bitmapStart s.disk) lba } : Fs).mapInode i fun e =>
    { e with addrs := update e.addrs k (BitVec.ofNat 32 lba) }

section

variable {k : Fin 13} (h : (s.inodes i).toDiskInode.Placed s.disk) (hk : k.val < ndirect)
  (hz : (s.inodes i).addrs k = 0) (hfree : lba ∈ freeBlocks s.disk) (hdata : metaEnd s.disk ≤ lba)
include h hk hz hfree hdata

theorem gainedBlock_addr {m : Nat} (hm : m < addrCount) :
    ((s.gainedBlock i k lba).inodes i).toDiskInode.addr (s.gainedBlock i k lba).disk m =
      if m = k.val then lba else (s.inodes i).toDiskInode.addr s.disk m := by
  obtain ⟨hlba, hunused⟩ := mem_freeBlocks.mp hfree
  have htoNat : (BitVec.ofNat 32 lba).toNat = lba := by
    rw [toNat_ofNat, Nat.mod_eq_of_lt (hlba.trans (isLt _))]
  have hinode : ((s.gainedBlock i k lba).inodes i).addrs = update (s.inodes i).addrs k (BitVec.ofNat 32 lba) := by
    rw [gainedBlock, mapInode_self]
  have h12 : (12 : Fin 13) ≠ k := by
    rintro rfl
    exact absurd hk (by decide)
  unfold DiskInode.addr
  rw [hinode, update_of_ne h12]
  by_cases hm13 : m < 13
  · rw [dif_pos hm13, dif_pos hm13]
    by_cases hmk : m = k.val
    · subst hmk
      rw [if_pos rfl, update_self, htoNat]
    · rw [if_neg hmk, update_of_ne fun he => hmk (congrArg Fin.val he)]
  · rw [dif_neg hm13, dif_neg hm13, if_neg (show ¬m = k.val by have := k.isLt; omega)]
    split_ifs with h0
    · rfl
    · obtain ⟨h1, h3⟩ := table_data h h0
      change (getWord (allocDisk s.disk (bitmapStart s.disk) lba _) _).toNat = _
      rw [allocDisk_of_ne (Or.inr h1) hlba]
      rintro rfl
      exact Bool.false_ne_true (hunused.symm.trans h3)

theorem wrote_gained : Wrote s (s.gainedBlock i k lba) i src off 0 := by
  obtain ⟨hlba, hunused⟩ := mem_freeBlocks.mp hfree
  have hstart := two_lt_bitmapStart s.disk
  have hmeta : bitmapStart s.disk ≤ metaEnd s.disk := Nat.le_add_right _ _
  have hone : (s.gainedBlock i k lba).disk 1 = s.disk 1 := allocDisk_of_ne (Or.inl (by omega)) hlba (by omega)
  have haddr := fun m => @gainedBlock_addr s i lba k h hk hz hfree hdata m
  have hnew : ∀ m < addrCount, (s.inodes i).toDiskInode.addr s.disk m ≠ 0 →
      lba ≠ (s.inodes i).toDiskInode.addr s.disk m := by
    rintro m hm h0 rfl
    exact Bool.false_ne_true (hunused.symm.trans (h.data m hm h0).2.2)
  have hkz : (s.inodes i).toDiskInode.addr s.disk k.val = 0 := by
    rw [DiskInode.addr_own k.isLt, hz]
    rfl
  have hblock : ∀ b < maxFileSize, (s.gainedBlock i k lba).fileBlock i b =
      if (if b < ndirect then b else b + 1) = k.val then lba else s.fileBlock i b := fun b hb =>
    haddr _ (fileIndex_lt hb)
  refine ⟨⟨_, mapInode_self⟩, rfl, hone, ⟨fun m hm h0 => ?_, fun m hm m' hm' h0 heq => ?_⟩, ?_, fun b hb h0 => ?_,
    fun b hb h0 h1 => ?_, fun p h1 h2 => by omega, fun l x hl hnf _ => ?_⟩
  · rw [haddr m hm] at h0 ⊢
    rw [metaEnd_congr hone, nblocks_congr hone, bitmapStart_congr hone]
    split_ifs at h0 ⊢ with hmk
    · refine ⟨hdata, hlba, ?_⟩
      exact (used_allocDisk hdata hlba).trans (by rw [decide_eq_true rfl, Bool.true_or])
    · obtain ⟨h1, h2, h3⟩ := h.data m hm h0
      refine ⟨h1, h2, ?_⟩
      exact (used_allocDisk hdata h2).trans (by rw [h3, Bool.or_true])
  · rw [haddr m hm] at h0 heq
    rw [haddr m' hm'] at heq
    split_ifs at h0 heq with hmk hmk' hmk'
    · exact hmk.trans hmk'.symm
    · exact absurd heq (hnew m' hm' (heq ▸ h0))
    · exact absurd heq.symm (hnew m hm h0)
    · exact h.inj m hm m' hm' h0 heq
  · exact (freeBlocks_alloc hdata hlba).trans_subset (Finset.erase_subset _ _)
  · rw [hblock b hb, if_neg]
    intro he
    exact h0 (by unfold fileBlock blockAddr; rw [he, hkz])
  · rw [hblock b hb] at h1 ⊢
    by_cases he : (if b < ndirect then b else b + 1) = k.val
    · rwa [if_pos he]
    · rw [if_neg he] at h1
      exact absurd h0 h1
  · change allocDisk s.disk (bitmapStart s.disk) lba l x = _
    rw [allocDisk_of_ne hl hlba fun he => hnf (he ▸ hfree)]

end

/-- Where the file has the block, `block_map` changes nothing. -/
theorem blockMap_mapped (hb : ∀ l, s.bufs l ≠ 0) (hmax : b < maxFileSize) (h0 : s.fileBlock i b ≠ 0) :
    blockMap i b s = .ok (s.fileBlock i b, s) := by
  have hown : ∀ k, (s.inodes i).addrs k ≠ 0 → ownAddr i k s = .ok (((s.inodes i).addrs k).toNat, s) := by
    intro k hk
    unfold ownAddr
    rw [bind_ok inodeAt_ok, if_neg hk]
    rfl
  unfold fileBlock blockAddr at h0 ⊢
  unfold Fs.blockMap
  by_cases hd : b < ndirect
  · rw [if_pos hd, DiskInode.addr_own (Nat.lt_succ_of_lt hd)] at h0 ⊢
    rw [dif_pos hd]
    exact hown _ fun hz => h0 (by rw [hz]; rfl)
  · obtain ⟨e, rfl⟩ : ∃ e, b = e + ndirect := ⟨b - ndirect, by omega⟩
    rw [if_neg hd, show e + ndirect + 1 = e + 13 from rfl] at h0 ⊢
    have h12 : (s.inodes i).addrs 12 ≠ 0 := fun hz => h0 (DiskInode.addr_eq_zero hz)
    rw [DiskInode.addr_entry h12] at h0 ⊢
    rw [dif_neg hd, bind_ok (hown 12 h12), bind_ok (devRead_ok (hb _)), Nat.add_sub_cancel,
      if_neg (by unfold maxFileSize at hmax; omega)]
    rw [if_neg fun hz => h0 (by rw [hz]; rfl), bind_ok (releaseBlock_held (hb _))]
    rfl

/-- What `block_map` finds before a round: a block of the file, or a direct block that is not there and a free block
for it. -/
def Mappable (s : Fs) (i : InodeIx) (b : Nat) : Prop :=
  s.fileBlock i b ≠ 0 ∨ b < ndirect ∧ (freeBlocks s.disk).Nonempty ∧ ∀ l ∈ freeBlocks s.disk, metaEnd s.disk ≤ l

theorem blockMap_wrote (hb : ∀ l, s.bufs l ≠ 0) (h : (s.inodes i).toDiskInode.Placed s.disk) (hmax : b < maxFileSize)
    (hmap : s.Mappable i b) : ∃ t, blockMap i b s = .ok (t.fileBlock i b, t) ∧ t.fileBlock i b ≠ 0 ∧
      Wrote s t i src off 0 ∧
      (freeBlocks s.disk).card ≤ (freeBlocks t.disk).card + if s.fileBlock i b = 0 then 1 else 0 := by
  by_cases h0 : s.fileBlock i b = 0
  · obtain ⟨hd, hsome, hdata⟩ := hmap.resolve_left fun hne => hne h0
    obtain ⟨lba, hmem, halloc⟩ := allocBlock_free hb hsome
    have hlba := (mem_freeBlocks.mp hmem).1
    have hk : b < 13 := Nat.lt_succ_of_lt hd
    have hz : (s.inodes i).addrs ⟨b, hk⟩ = 0 := by
      unfold fileBlock blockAddr at h0
      rw [if_pos hd, DiskInode.addr_own hk] at h0
      exact eq_of_toNat_eq h0
    have hblock : (s.gainedBlock i ⟨b, hk⟩ lba).fileBlock i b = lba := by
      unfold fileBlock blockAddr
      rw [gainedBlock_addr h hd hz hmem (hdata lba hmem) (fileIndex_lt hmax), if_pos hd, if_pos rfl]
    have hpos : lba ≠ 0 := by
      have hstart := two_lt_bitmapStart s.disk
      have hle := hdata lba hmem
      unfold metaEnd at hle
      omega
    refine ⟨s.gainedBlock i ⟨b, hk⟩ lba, ?_, by rwa [hblock], wrote_gained h hd hz hmem (hdata lba hmem), ?_⟩
    · rw [hblock]
      unfold Fs.blockMap ownAddr
      rw [dif_pos hd, bind_ok inodeAt_ok, if_pos hz, bind_ok halloc]
      rfl
    · rw [if_pos h0, show (s.gainedBlock i ⟨b, hk⟩ lba).disk = allocDisk s.disk (bitmapStart s.disk) lba from rfl,
        freeBlocks_alloc (hdata lba hmem) hlba, Finset.card_erase_add_one hmem]
  · exact ⟨s, blockMap_mapped hb hmax h0, h0, .refl h, Nat.le_add_right _ _⟩

/-- The blocks that a range needs can be had: the direct ones it lacks are free data blocks, and it lacks no other. -/
structure Affordable (s : Fs) (i : InodeIx) (off left : Nat) : Prop where
  room : (s.missing i off left).card ≤ (freeBlocks s.disk).card
  data : (s.missing i off left).Nonempty → ∀ l ∈ freeBlocks s.disk, metaEnd s.disk ≤ l
  table : ∀ p, off ≤ p → p < off + left → ndirect ≤ p / blockSize → s.fileBlock i (p / blockSize) ≠ 0

theorem mem_missing : b ∈ s.missing i off left ↔
    b < ndirect ∧ s.fileBlock i b = 0 ∧ max off (b * blockSize) < min (off + left) ((b + 1) * blockSize) := by
  rw [missing, Finset.mem_filter, Finset.mem_range]

theorem Affordable.mappable (h : Affordable s i off left) (hleft : 0 < left) : s.Mappable i (off / blockSize) := by
  by_cases h0 : s.fileBlock i (off / blockSize) = 0
  · have hd : off / blockSize < ndirect := by
      by_contra hge
      exact h.table off (Nat.le_refl _) (by omega) (by omega) h0
    have hmem : off / blockSize ∈ s.missing i off left := by
      rw [mem_missing]
      refine ⟨hd, h0, ?_⟩
      unfold blockSize
      omega
    exact Or.inr ⟨hd, Finset.card_pos.mp (Nat.lt_of_lt_of_le (Finset.card_pos.mpr ⟨_, hmem⟩) h.room), h.data ⟨_, hmem⟩⟩
  · exact Or.inl h0

theorem Affordable.step {n : Nat} (h : Affordable s i off left) (hw : Wrote s u i src off n) (hpos : 0 < n)
    (hle : n ≤ left) (hmax : off + left ≤ maxFileSize * blockSize) (hcard : (freeBlocks s.disk).card ≤
      (freeBlocks u.disk).card + if s.fileBlock i (off / blockSize) = 0 then 1 else 0) :
    Affordable u i (off + n) (left - n) := by
  have hsub : ∀ c ∈ u.missing i (off + n) (left - n), c ∈ (s.missing i off left).erase (off / blockSize) := by
    intro c hc
    obtain ⟨hd, h0, hrange⟩ := mem_missing.mp hc
    rw [Finset.mem_erase, mem_missing]
    refine ⟨?_, hd, ?_, by omega⟩
    · rintro rfl
      exact (hw.bytes off (Nat.le_refl _) (by omega)).1 h0
    · by_contra hne
      exact hne ((hw.kept c (by unfold maxFileSize; omega) hne).symm.trans h0)
  have hless := Finset.card_le_card hsub
  refine ⟨?_, fun hsome => ?_, fun p h1 h2 hd => ?_⟩
  · have hroom := h.room
    split_ifs at hcard with h0
    · have hmem : off / blockSize ∈ s.missing i off left := by
        rw [mem_missing]
        refine ⟨?_, h0, ?_⟩
        · by_contra hge
          exact h.table off (Nat.le_refl _) (by omega) (by omega) h0
        · unfold blockSize
          omega
      rw [Finset.card_erase_of_mem hmem] at hless
      omega
    · have herase := Finset.card_le_card (Finset.erase_subset (off / blockSize) (s.missing i off left))
      omega
  · obtain ⟨c, hc⟩ := hsome
    intro l hl
    rw [metaEnd_congr hw.super]
    exact h.data ⟨c, Finset.mem_of_mem_erase (hsub c hc)⟩ l (hw.free hl)
  · have h0 := h.table p (by omega) (by omega) hd
    rwa [hw.kept _ (div_lt_maxFileSize (by omega)) h0]

theorem roundSize_le : roundSize offset left ≤ left := Nat.min_le_right _ _

theorem Affordable.writeLoop (hb : ∀ l, s.bufs l ≠ 0) (h : (s.inodes i).toDiskInode.Placed s.disk)
    (ha : Affordable s i offset.toNat left) (hmax : offset.toNat + left ≤ maxFileSize * blockSize) :
    ∃ last t, writeLoop i src offset left s = .ok (last, t) ∧ last.toNat = offset.toNat + left ∧
      Wrote s t i src offset.toNat left := by
  induction left using Nat.strong_induction_on generalizing s src offset with
  | _ left ih =>
    rw [Fs.writeLoop]
    split_ifs with hleft
    · subst hleft
      exact ⟨offset, s, rfl, rfl, .refl h⟩
    have hpos := @roundSize_pos offset left hleft
    have hle : roundSize offset left ≤ left := roundSize_le
    have hround : roundSize offset left ≤ blockSize - offset.toNat % blockSize := Nat.min_le_left _ _
    generalize roundSize offset left = n at hpos hle hround
    have hblock : offset.toNat / blockSize < maxFileSize := div_lt_maxFileSize (by omega)
    have hnext : (offset + BitVec.ofNat 32 n).toNat = offset.toNat + n := by
      have hsmall : maxFileSize * blockSize < 2 ^ 32 := by decide
      rw [toNat_add, toNat_ofNat]
      omega
    -- the block, then the bytes of the round in it, then the rest of the loop
    obtain ⟨t, hmap, h0, hgot, hcard⟩ := @blockMap_wrote s i _ offset.toNat src hb h hblock (ha.mappable (by omega))
    have hbt : ∀ l, t.bufs l ≠ 0 := by
      rw [hgot.bufs]
      exact hb
    rw [bind_ok hmap, bind_ok (devRead_ok (hbt _)), store_held (hbt _)]
    have hwrote : Wrote s (t.setBlock _ _) i src offset.toNat (0 + n) :=
      hgot.trans (wrote_round hgot.placed hblock rfl h0 hround) (by omega)
    have hfree := freeBlocks_update (blockAddr_data hgot.placed hblock h0).1
      (setBytes (t.disk (t.fileBlock i (offset.toNat / blockSize))) (offset.toNat % blockSize) src n)
    rw [Nat.zero_add] at hwrote
    have hrest := ha.step hwrote hpos hle hmax (hcard.trans_eq (by rw [← hfree]; rfl))
    rw [← hnext] at hrest
    obtain ⟨last, u, hrun, hlast, hw⟩ := @ih (left - n) (by omega) (t.setBlock _ _) (offset + BitVec.ofNat 32 n)
      (fun k => src (k + n)) hbt hwrote.placed hrest (by omega)
    refine ⟨last, u, hrun, by omega, ?_⟩
    rw [hnext] at hw
    have hall := hwrote.trans hw (by omega)
    rwa [Nat.add_sub_cancel' hle] at hall

/-- The write has put just the bytes that it is for into the file, with the size where it grows. Apart from the bitmap,
the blocks that were free and the place of the inode, every other byte of the disk is what it was. -/
structure WritesExactly (s t : Fs) (i : InodeIx) (src : Nat → Byte) (offset size : Word) : Prop where
  kept : ∀ b < maxFileSize, s.fileBlock i b ≠ 0 → t.fileBlock i b = s.fileBlock i b
  bytes : ∀ p, offset.toNat ≤ p → p < offset.toNat + size.toNat →
    t.fileBlock i (p / blockSize) ≠ 0 ∧ t.disk (t.fileBlock i (p / blockSize)) (p % blockSize) = src (p - offset.toNat)
  others : ∀ l k, l < bitmapStart s.disk ∨ metaEnd s.disk ≤ l → l ∉ freeBlocks s.disk →
    (∀ p, offset.toNat ≤ p → p < offset.toNat + size.toNat → s.fileBlock i (p / blockSize) ≠ 0 →
      l = s.fileBlock i (p / blockSize) → k ≠ p % blockSize) →
        ¬InSlot (s.inodes i).inum.toNat l k → t.disk l k = s.disk l k
  size : (t.inodes i).size.toNat = max (s.inodes i).size.toNat (offset.toNat + size.toNat)

/-- No buffer is locked, the blocks of the file are its own, and those that the range still needs can be had. -/
structure Covered (s : Fs) (i : InodeIx) (offset size : Word) : Prop where
  bufs : ∀ l, s.bufs l ≠ 0
  placed : (s.inodes i).toDiskInode.Placed s.disk
  slot : inodeBlock (s.inodes i).inum.toNat < bitmapStart s.disk
  start : offset.toNat ≤ (s.inodes i).size.toNat
  small : offset.toNat + size.toNat ≤ maxFileSize * blockSize
  blocks : Affordable s i offset.toNat size.toNat

theorem not_inSlot {n l k : Nat} (h : inodeBlock n < bitmapStart disk) (hl : metaEnd disk ≤ l) : ¬InSlot n l k := by
  intro hin
  have hblock := hin.1
  unfold metaEnd at hl
  omega

/-- Storing the inode with its new size leaves the blocks of its file. -/
theorem Wrote.stored {size : Nat} (h : Wrote s t i src off size)
    (hslot : inodeBlock (s.inodes i).inum.toNat < bitmapStart s.disk) (haddrs : (u.inodes i).addrs = (t.inodes i).addrs)
    (hout : ∀ l k, ¬InSlot (s.inodes i).inum.toNat l k → u.disk l k = t.disk l k) :
    (∀ b, u.fileBlock i b = t.fileBlock i b) ∧ ∀ b < maxFileSize, t.fileBlock i b ≠ 0 →
      u.disk (t.fileBlock i b) = t.disk (t.fileBlock i b) := by
  have hsame : ∀ l, metaEnd s.disk ≤ l → u.disk l = t.disk l := fun l hl =>
    funext fun k => hout l k (not_inSlot hslot hl)
  have htable : (t.inodes i).addrs 12 ≠ 0 →
      u.disk ((t.inodes i).addrs 12).toNat = t.disk ((t.inodes i).addrs 12).toNat := by
    intro h12
    refine hsame _ ?_
    rw [← metaEnd_congr h.super]
    exact (table_data h.placed h12).1
  refine ⟨fun b => ?_, fun b hb h0 => hsame _ ?_⟩
  · unfold fileBlock blockAddr DiskInode.addr
    rw [haddrs]
    by_cases h12 : (t.inodes i).addrs 12 = 0
    · simp only [if_pos h12]
    · rw [htable h12]
  · rw [← metaEnd_congr h.super]
    exact (blockAddr_data h.placed hb h0).1

theorem Covered.writeInode {size : Word} (h : Covered s i offset size) (htype : (s.inodes i).type ≠ typeDev) :
    ∃ t, writeInode i src offset size s = .ok (size.toInt, t) ∧ WritesExactly s t i src offset size := by
  have hsmall := h.small
  have hmax : maxFileSize * blockSize < 2 ^ 31 := by decide
  have hsum : (offset + size).toNat = offset.toNat + size.toNat := by
    rw [toNat_add]
    omega
  obtain ⟨last, t, hloop, hlast, hw⟩ := @Affordable.writeLoop s i offset size.toNat src h.bufs h.placed h.blocks hsmall
  have hrun : ∀ f : Word → FsM Int, (Fs.writeLoop i src offset size.toNat >>= f) s = f last t := fun f => bind_ok hloop
  have hstart : ¬(s.inodes i).size < offset := by
    rw [lt_def]
    have := h.start
    omega
  have hmaxed : ¬maxFileSize * blockSize < (offset + size).toNat := by omega
  obtain ⟨addrs, hnode⟩ := hw.node
  have htsize : (t.inodes i).size = (s.inodes i).size := by rw [hnode]
  have htinum : (t.inodes i).inum = (s.inodes i).inum := by rw [hnode]
  unfold Fs.writeInode
  rw [bind_ok inodeAt_ok, if_neg htype, if_neg hstart, if_neg hmaxed, hrun, bind_ok inodeAt_ok, htsize]
  have hsize : size.toInt = size.toNat := toInt_eq_toNat_of_lt (by omega)
  split_ifs with hgrow
  · obtain ⟨u, hwrite, hinodes, -, hputs⟩ := @writeToDisk_puts (t.mapInode i fun e => { e with size := last }) i
      (by change t.bufs _ ≠ 0; rw [hw.bufs]; exact h.bufs _)
    rw [bind_ok setInode_ok, bind_ok hwrite]
    have hinum : ((t.mapInode i fun e => { e with size := last }).inodes i).inum = (s.inodes i).inum := by
      rw [mapInode_self]
      exact htinum
    have hafter : u.inodes i = { t.inodes i with size := last } := by
      rw [hinodes, mapInode_self]
    rw [hinum] at hputs
    obtain ⟨hblock, hbytes⟩ := @Wrote.stored s t u i offset.toNat src size.toNat hw h.slot (by rw [hafter]) hputs.outside
    refine ⟨u, rfl, fun b hb h0 => (hblock b).trans (hw.kept b hb h0), fun p h1 h2 => ?_,
      fun l k hl hf hk hslot => ?_, ?_⟩
    · obtain ⟨h0, hbyte⟩ := hw.bytes p h1 h2
      rw [hblock, hbytes _ (div_lt_maxFileSize (by omega)) h0]
      exact ⟨h0, hbyte⟩
    · rw [hputs.outside l k hslot]
      exact hw.others l k hl hf hk
    · have hlt := hgrow.2
      rw [lt_def] at hlt
      rw [hafter]
      change last.toNat = _
      omega
  · refine ⟨t, rfl, hw.kept, hw.bytes, fun l k hl hf hk _ => hw.others l k hl hf hk, ?_⟩
    rw [hsize, lt_def, hlast] at hgrow
    have hkeep : 0 < size.toNat → ¬(s.inodes i).size.toNat < offset.toNat + size.toNat :=
      fun hpos hlt => hgrow ⟨Int.natCast_pos.mpr hpos, hlt⟩
    have hoff := h.start
    rw [htsize]
    omega

end

end Fs

end BabyOS
