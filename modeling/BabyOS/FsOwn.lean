import BabyOS.FsBitmap
import BabyOS.FsInode

open Function

namespace BabyOS

namespace Fs

def metaEnd (disk : Nat → Block) : Nat := bitmapStart disk + (nblocks disk + 4095) / 4096

theorem metaEnd_congr {disk disk' : Nat → Block} (h : disk' 1 = disk 1) : metaEnd disk' = metaEnd disk := by
  unfold metaEnd
  rw [bitmapStart_congr h, nblocks_congr h]

def unmarkAll (disk : Nat → Block) (base : Nat) (ls : List Nat) : Nat → Block :=
  ls.foldl (fun d l => unmark d base l) disk

section

variable {disk : Nat → Block} {base l : Nat}

theorem used_unmarkAll (ls : List Nat) :
    used (unmarkAll disk base ls) base l = (!decide (l ∈ ls) && used disk base l) := by
  induction ls generalizing disk with
  | nil => simp [unmarkAll]
  | cons a ls ih =>
    show used (unmarkAll (unmark disk base a) base ls) base l = _
    rw [ih, used_unmark]
    by_cases h1 : l = a <;> by_cases h2 : l ∈ ls <;> simp [h1, h2]

theorem unmark_of_lt {lba : Nat} (h : l < base) : unmark disk base lba l = disk l :=
  update_of_ne (by omega) _ _

theorem unmarkAll_of_lt (ls : List Nat) (h : l < base) : unmarkAll disk base ls l = disk l := by
  induction ls generalizing disk with
  | nil => rfl
  | cons a ls ih => exact ih.trans (unmark_of_lt h)

theorem unmarkAll_of_ge {ls : List Nat} {stop : Nat} (h : ∀ a ∈ ls, base + a / 4096 < stop) (hl : stop ≤ l) :
    unmarkAll disk base ls l = disk l := by
  induction ls generalizing disk with
  | nil => rfl
  | cons a ls ih =>
    have ha := h a List.mem_cons_self
    exact (ih fun b hb => h b (List.mem_cons_of_mem a hb)).trans (update_of_ne (by omega) _ _)

end

/-- The buffers that `free_block` and `alloc_block` read the bitmap through are not locked. -/
structure BitmapFree (s : Fs) : Prop where
  super : s.bufs 1 ≠ 0
  bitmap : ∀ c < (nblocks s.disk + 4095) / 4096, s.bufs (bitmapStart s.disk + c) ≠ 0

def mapInode (s : Fs) (i : InodeIx) (f : Inode → Inode) : Fs :=
  { s with inodes := update s.inodes i (f (s.inodes i)) }

section

variable {s : Fs} {i : InodeIx} {lba table : Nat}

theorem setInode_ok {f : Inode → Inode} : setInode i f s = .ok ((), s.mapInode i f) := rfl

theorem inodeAt_ok : inodeAt i s = .ok (s.inodes i, s) := rfl

theorem lock_ok (h : (s.inodes i).sem ≠ 0) :
    lock i s = .ok ((), s.mapInode i fun e => { e with sem := e.sem - 1 }) := by
  show (if (s.inodes i).sem = 0 then throw Halt.inodeLock else _ : FsM Unit) s = _
  rw [if_neg h]
  rfl

theorem mapInode_self {f : Inode → Inode} : (s.mapInode i f).inodes i = f (s.inodes i) := update_self _ _ _

theorem mapInode_mapInode {f g : Inode → Inode} : (s.mapInode i f).mapInode i g = s.mapInode i fun e => g (f e) := by
  unfold mapInode
  dsimp only
  rw [update_self, update_idem]

theorem setBlock_of_ne {b : Block} (h : lba ≠ table) : (s.setBlock table b).disk lba = s.disk lba :=
  update_of_ne h _ _

theorem writeToDisk_ok (h : s.bufs ((s.inodes i).inum.toNat / 8 + 2) ≠ 0) :
    writeToDisk i s = .ok ((), s.setBlock ((s.inodes i).inum.toNat / 8 + 2)
      ((s.inodes i).toDiskInode.store (s.disk ((s.inodes i).inum.toNat / 8 + 2))
        ((s.inodes i).inum.toNat % 8 * inodeSize))) := by
  unfold writeToDisk
  rw [bind_ok inodeAt_ok]
  exact (bind_ok (devRead_ok h)).trans (releaseBlock_held (s := s.setBlock _ _) h)

theorem BitmapFree.congr {t : Fs} (h : s.BitmapFree) (hd : t.disk 1 = s.disk 1) (hb : t.bufs = s.bufs) :
    t.BitmapFree := by
  refine ⟨by rw [hb]; exact h.super, fun c hc => ?_⟩
  rw [nblocks_congr hd] at hc
  rw [bitmapStart_congr hd, hb]
  exact h.bitmap c hc

theorem BitmapFree.held (h : s.BitmapFree) (ht : metaEnd s.disk ≤ table) : (s.held table).BitmapFree := by
  have hb := two_lt_bitmapStart s.disk
  unfold metaEnd at ht
  refine ⟨?_, fun c hc => ?_⟩
  · show update s.bufs table _ 1 ≠ 0
    rw [update_of_ne (by omega)]
    exact h.super
  · have hc' : c < (nblocks s.disk + 4095) / 4096 := hc
    show update s.bufs table _ (bitmapStart s.disk + c) ≠ 0
    rw [update_of_ne (by omega)]
    exact h.bitmap c hc

end

end Fs

def addrCount : Nat := 141

namespace DiskInode

/-- The block numbers of an inode: those of its own table, the last that of the indirect block, and those in the
indirect block. -/
def addr (d : DiskInode) (disk : Nat → Block) (k : Nat) : Nat :=
  if h : k < 13 then (d.addrs ⟨k, h⟩).toNat
  else if d.addrs 12 = 0 then 0 else (getWord (disk (d.addrs 12).toNat) (4 * (k - 13))).toNat

/-- The blocks of an inode are data blocks, marked used, and no two of them are the same. -/
structure Placed (d : DiskInode) (disk : Nat → Block) : Prop where
  data : ∀ k < addrCount, d.addr disk k ≠ 0 → Fs.metaEnd disk ≤ d.addr disk k ∧
    d.addr disk k < Fs.nblocks disk ∧ Fs.used disk (Fs.bitmapStart disk) (d.addr disk k) = true
  inj : ∀ k < addrCount, ∀ l < addrCount, d.addr disk k ≠ 0 → d.addr disk k = d.addr disk l → k = l

variable {d : DiskInode} {disk : Nat → Block} {k : Nat}

theorem addr_own (h : k < 13) : d.addr disk k = (d.addrs ⟨k, h⟩).toNat := dif_pos h

theorem addr_entry (h : d.addrs 12 ≠ 0) :
    d.addr disk (k + 13) = (getWord (disk (d.addrs 12).toNat) (4 * k)).toNat := by
  unfold addr
  rw [dif_neg (by omega), if_neg h, Nat.add_sub_cancel]

theorem addr_eq_zero (h : d.addrs 12 = 0) : d.addr disk (k + 13) = 0 := by
  unfold addr
  rw [dif_neg (by omega), if_pos h]

end DiskInode

end BabyOS
