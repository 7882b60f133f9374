import BabyOS.FsInode

open Function

namespace BabyOS

abbrev NoInodeLock (h : Halt) : Prop := h ≠ .inodeLock

namespace Fs

structure DiskOnly (s t : Fs) : Prop where
  inodes : t.inodes = s.inodes
  procs : t.procs = s.procs
  env : t.env = s.env

instance : IsPreorder Fs DiskOnly where
  refl _ := ⟨rfl, rfl, rfl⟩
  trans _ _ _ h h' := ⟨h'.inodes.trans h.inodes, h'.procs.trans h.procs, h'.env.trans h.env⟩

theorem keeps_devRead (lba : Nat) : Keeps NoInodeLock DiskOnly (devRead lba) := by
  refine Keeps.get.bind fun s => ?_
  split
  · exact Keeps.throw (by decide)
  · exact (Keeps.modify fun _ => ⟨rfl, rfl, rfl⟩).bind fun _ => Keeps.pure _

theorem keeps_releaseBlock (lba : Nat) : Keeps NoInodeLock DiskOnly (releaseBlock lba) :=
  Keeps.modify fun _ => ⟨rfl, rfl, rfl⟩

theorem keeps_readSuperBlock : Keeps NoInodeLock DiskOnly readSuperBlock :=
  (keeps_devRead 1).bind fun _ => (keeps_releaseBlock 1).bind fun _ => Keeps.pure _

theorem keeps_bitmapBlock : Keeps NoInodeLock DiskOnly bitmapBlock :=
  keeps_readSuperBlock.bind fun _ => Keeps.pure _

theorem keeps_freeBlock (lba : Nat) : Keeps NoInodeLock DiskOnly (freeBlock lba) := by
  refine keeps_bitmapBlock.bind fun index => (keeps_devRead _).bind fun b => ?_
  split
  · exact Keeps.pure ()
  · exact (Keeps.modify fun _ => ⟨rfl, rfl, rfl⟩).bind fun _ => keeps_releaseBlock _

theorem keeps_freeEntries (b : Block) (es : List Nat) : Keeps NoInodeLock DiskOnly (freeEntries b es) := by
  induction es generalizing b with
  | nil => exact Keeps.pure b
  | cons e es ih => exact (keeps_freeBlock _).bind fun _ => ih _

end Fs

end BabyOS
