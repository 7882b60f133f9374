import BabyOS.FsPut
import BabyOS.FsSplice

open BitVec Function List

namespace BabyOS

namespace Fs

/-- The rounds of the loops of `read_inode` and `write_inode`, each by its offset and the bytes it copies. -/
def rounds (offset : Word) (left : Nat) : List (Word × Nat) :=
  if left = 0 then []
  else (offset, roundSize offset left) ::
    rounds (offset + BitVec.ofNat 32 (roundSize offset left)) (left - roundSize offset left)
termination_by left
decreasing_by exact Nat.sub_lt (Nat.pos_of_ne_zero ‹_›) (roundSize_pos ‹_›)

def readRounds (i : InodeIx) : List (Word × Nat) → FsM (List Byte)
  | [] => pure []
  | (offset, nbyte) :: rest => do
    let lba ← blockMap i (offset.toNat / blockSize)
    let b ← devRead lba
    releaseBlock lba
    let bytes ← readRounds i rest
    pure ((List.range nbyte).map (fun k => b (offset.toNat % blockSize + k)) ++ bytes)

def writeRounds (i : InodeIx) : (Nat → Byte) → Word → List (Word × Nat) → FsM Word
  | _, last, [] => pure last
  | src, _, (offset, nbyte) :: rest => do
    let lba ← blockMap i (offset.toNat / blockSize)
    let b ← devRead lba
    devWrite lba (setBytes b (offset.toNat % blockSize) src nbyte)
    releaseBlock lba
    writeRounds i (fun k => src (k + nbyte)) (offset + BitVec.ofNat 32 nbyte) rest

def readPlan (inode : Inode) (offset size : Word) : Option (List (Word × Nat)) :=
  if inode.size < offset then none
  else some (rounds offset (if inode.size < offset + size then inode.size - offset else size).toNat)

def writePlan (inode : Inode) (offset size : Word) : Option (List (Word × Nat)) :=
  if inode.size < offset then none
  else if maxFileSize * blockSize < (offset + size).toNat then none
  else some (rounds offset size.toNat)

def ReadsPlan (i : InodeIx) (s : Fs) (offset size : Word) : Prop :=
  readInode i offset size s = (match readPlan (s.inodes i) offset size with
    | none => pure none
    | some rs => do
      let bytes ← readRounds i rs
      pure (some bytes) : FsM (Option (List Byte))) s

/-- `write_inode` of a file runs its plan, and records a size that grows. -/
def WritesPlan (i : InodeIx) (src : Nat → Byte) (s : Fs) (offset size : Word) : Prop :=
  writeInode i src offset size s = (match writePlan (s.inodes i) offset size with
    | none => pure (-1)
    | some rs => do
      let last ← writeRounds i src offset rs
      let inode ← inodeAt i
      if 0 < size.toInt ∧ inode.size < last then do
        setInode i fun e => { e with size := last }
        writeToDisk i
        pure size.toInt
      else pure size.toInt : FsM Int) s

/-- A read copies what the file has from the offset on, from blocks that its tables have entries for. -/
def ReadBounded (inode : Inode) (offset size : Word) : Prop :=
  ∀ rs, readPlan inode offset size = some rs →
    (rs.map Prod.snd).sum ≤ inode.size.toNat - offset.toNat ∧
    ∀ x ∈ rs, x.1.toNat / blockSize * blockSize < inode.size.toNat ∧ x.1.toNat / blockSize < maxFileSize

/-- A write covers just the bytes it is for, below the largest size of a file. -/
def WriteBounded (inode : Inode) (offset size : Word) : Prop :=
  ∀ rs, writePlan inode offset size = some rs →
    offset.toNat + size.toNat ≤ maxFileSize * blockSize ∧
    (∀ p, (∃ x ∈ rs, x.1.toNat ≤ p ∧ p < x.1.toNat + x.2) ↔ offset.toNat ≤ p ∧ p < offset.toNat + size.toNat) ∧
    ∀ x ∈ rs, x.1.toNat / blockSize < maxFileSize

section

variable {s : Fs} {i : InodeIx} {offset size : Word} {left : Nat} {inode : Inode}

theorem readLoop_rounds : readLoop i offset left = readRounds i (rounds offset left) := by
  induction left using Nat.strong_induction_on generalizing offset with
  | _ left ih =>
    rw [readLoop, rounds]
    split_ifs with h
    · rfl
    · have hlt := Nat.sub_lt (Nat.pos_of_ne_zero h) (@roundSize_pos offset left h)
      rw [readRounds]
      simp only [ih _ hlt]

theorem writeLoop_rounds {src : Nat → Byte} : writeLoop i src offset left = writeRounds i src offset (rounds offset left) := by
  induction left using Nat.strong_induction_on generalizing offset src with
  | _ left ih =>
    rw [writeLoop, rounds]
    split_ifs with h
    · rfl
    · have hlt := Nat.sub_lt (Nat.pos_of_ne_zero h) (@roundSize_pos offset left h)
      rw [writeRounds]
      simp only [ih _ hlt]

theorem sum_rounds : ((rounds offset left).map Prod.snd).sum = left := by
  induction left using Nat.strong_induction_on generalizing offset with
  | _ left ih =>
    rw [rounds]
    split_ifs with h
    · exact h.symm
    · have hlt := Nat.sub_lt (Nat.pos_of_ne_zero h) (@roundSize_pos offset left h)
      rw [map_cons, sum_cons, ih _ hlt]
      exact Nat.add_sub_cancel' roundSize_le

theorem mem_rounds (h : offset.toNat + left < 2 ^ 32) (p : Nat) :
    (∃ x ∈ rounds offset left, x.1.toNat ≤ p ∧ p < x.1.toNat + x.2) ↔ offset.toNat ≤ p ∧ p < offset.toNat + left := by
  induction left using Nat.strong_induction_on generalizing offset with
  | _ left ih =>
    rw [rounds]
    split_ifs with h0
    · simp [h0]
    · have hlt := Nat.sub_lt (Nat.pos_of_ne_zero h0) (@roundSize_pos offset left h0)
      have hle : roundSize offset left ≤ left := roundSize_le
      have hnext : (offset + BitVec.ofNat 32 (roundSize offset left)).toNat = offset.toNat + roundSize offset left := by
        rw [toNat_add, toNat_ofNat]
        omega
      have hrest := @ih _ hlt (offset + BitVec.ofNat 32 (roundSize offset left)) (by omega)
      rw [hnext] at hrest
      rw [exists_mem_cons_iff, hrest]
      clear hrest ih
      dsimp only
      omega

theorem rounds_pos {x : Word × Nat} (hx : x ∈ rounds offset left) : 0 < x.2 := by
  induction left using Nat.strong_induction_on generalizing offset with
  | _ left ih =>
    rw [rounds] at hx
    split_ifs at hx with h0
    · exact absurd hx not_mem_nil
    · rcases mem_cons.mp hx with rfl | hx
      · exact roundSize_pos h0
      · exact ih _ (Nat.sub_lt (Nat.pos_of_ne_zero h0) (roundSize_pos h0)) hx

theorem rounds_lt {x : Word × Nat} (h : offset.toNat + left < 2 ^ 32) (hx : x ∈ rounds offset left) :
    x.1.toNat < offset.toNat + left :=
  ((mem_rounds h x.1.toNat).mp ⟨x, hx, le_rfl, Nat.lt_add_of_pos_right (rounds_pos hx)⟩).2

theorem readInode_plan (htype : (s.inodes i).type ≠ typeDev) : ReadsPlan i s offset size := by
  unfold ReadsPlan readPlan
  rw [readInode, bind_ok (show inodeAt i s = .ok (s.inodes i, s) from rfl), if_neg htype]
  by_cases h : (s.inodes i).size < offset
  · rw [if_pos h, if_pos h]
  · rw [if_neg h, if_neg h]
    simp only [readLoop_rounds]

theorem writeInode_plan {src : Nat → Byte} (htype : (s.inodes i).type ≠ typeDev) : WritesPlan i src s offset size := by
  unfold WritesPlan writePlan
  rw [writeInode, bind_ok (show inodeAt i s = .ok (s.inodes i, s) from rfl), if_neg htype]
  by_cases h : (s.inodes i).size < offset
  · rw [if_pos h, if_pos h]
  by_cases hmax : maxFileSize * blockSize < (offset + size).toNat
  · rw [if_neg h, if_neg h, if_pos hmax, if_pos hmax]
  · rw [if_neg h, if_neg h, if_neg hmax, if_neg hmax]
    simp only [writeLoop_rounds]

theorem readBounded_iff (hsmall : inode.size.toNat ≤ maxFileSize * blockSize) : ReadBounded inode offset size ↔
    (offset.toNat ≤ inode.size.toNat → offset.toNat + size.toNat < 2 ^ 32) := by
  have hlt := inode.size.isLt
  unfold ReadBounded readPlan
  constructor
  · intro h hoff
    by_contra hwrap
    have hsum : (offset + size).toNat = offset.toNat + size.toNat - 2 ^ 32 := by
      have := size.isLt
      rw [toNat_add]
      omega
    have hsize := size.isLt
    have hbound := (h _ (by rw [if_neg (by rw [lt_def]; omega), if_neg (by rw [lt_def]; omega)])).1
    rw [sum_rounds] at hbound
    omega
  · intro h rs hrs
    split_ifs at hrs with hoff hclamp
    · cases hrs
      rw [lt_def] at hoff
      have hsub : (inode.size - offset).toNat = inode.size.toNat - offset.toNat :=
        toNat_sub_of_le (le_def.mpr (by omega))
      refine ⟨by rw [sum_rounds, hsub], fun x hx => ?_⟩
      have hx' := rounds_lt (by omega) hx
      unfold blockSize at *
      omega
    · cases hrs
      rw [lt_def] at hoff hclamp
      rw [toNat_add] at hclamp
      have hwrap := h (by omega)
      refine ⟨by rw [sum_rounds]; omega, fun x hx => ?_⟩
      have hx' := rounds_lt hwrap hx
      unfold blockSize at *
      omega

theorem writeBounded_iff : WriteBounded inode offset size ↔
    (offset.toNat ≤ inode.size.toNat → (offset + size).toNat ≤ maxFileSize * blockSize →
      offset.toNat + size.toNat < 2 ^ 32) := by
  unfold WriteBounded writePlan
  constructor
  · intro h hoff hmax
    have hle := (h _ (by rw [if_neg (by rw [lt_def]; omega), if_neg (by omega)])).1
    exact Nat.lt_of_le_of_lt hle (by decide)
  · intro h rs hrs
    split_ifs at hrs with hoff hmax
    cases hrs
    rw [lt_def] at hoff
    have hwrap := h (by omega) (by omega)
    rw [toNat_add, Nat.mod_eq_of_lt hwrap] at hmax
    refine ⟨by omega, mem_rounds hwrap, fun x hx => ?_⟩
    have hx' := rounds_lt hwrap hx
    unfold blockSize at *
    omega

end

section

variable {s : Fs} {i : InodeIx} {offset size : Word}

def tenBytes : Inode where
  type := typeFile
  major := 0
  minor := 0
  nlinks := 1
  size := 10
  addrs _ := 0
  dev := rootDev
  inum := 2
  ref := 1
  valid := true
  sem := 1

def tenBytesFs : Fs where
  disk _ _ := 0
  bufs _ := 1
  inodes _ := tenBytes
  procs _ := none
  env := ⟨fun _ => []⟩

theorem oneFile_covered : Covered (oneFile 3) 0 0 2000 := by
  have h := oneFile_unlinked (Or.inl rfl)
  refine ⟨fun l => ?_, h.placed, ?_, Nat.zero_le _, by decide, by decide +kernel, fun _ => by decide +kernel,
    fun p _ hp hd => ?_⟩
  · rw [h.bufs]
    decide
  · have hslot := h.slot
    rwa [Nat.add_comm] at hslot
  · change p < 0 + 2000 at hp
    unfold ndirect blockSize at hd
    omega

end

end Fs

end BabyOS
