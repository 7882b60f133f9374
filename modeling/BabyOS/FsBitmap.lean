import BabyOS.FsDisk
import Mathlib.Data.List.Basic

open Function

namespace BabyOS

namespace Fs

theorem getLsbD_bitFlag (bit j : Nat) : (bitFlag bit).getLsbD j = decide (j = bit % 8) := by
  unfold bitFlag
  by_cases hj : j < 8
  · simp only [BitVec.getLsbD_shiftLeft, BitVec.getLsbD_one, hj, decide_true, Bool.true_and]
    by_cases hlt : j < bit % 8
    · simp [hlt, show j ≠ bit % 8 by omega]
    · by_cases he : j = bit % 8
      · simp [he]
      · simp [hlt, he, show j - bit % 8 ≠ 0 by omega]
  · rw [BitVec.getLsbD_of_ge _ _ (by omega), eq_comm, decide_eq_false_iff_not]
    omega

theorem and_bitFlag {x : Byte} {bit : Nat} : x &&& bitFlag bit = 0 ↔ x.getLsbD (bit % 8) = false := by
  constructor
  · intro h
    have hb := congrArg (fun y => BitVec.getLsbD y (bit % 8)) h
    simpa [BitVec.getLsbD_and, getLsbD_bitFlag] using hb
  · intro h
    apply BitVec.eq_of_getLsbD_eq
    intro j _
    rw [BitVec.getLsbD_and, getLsbD_bitFlag]
    by_cases hj : j = bit % 8 <;> simp [hj, h]

def bitAt (b : Block) (bit : Nat) : Bool := (b (bit / 8)).getLsbD (bit % 8)

def setBit (b : Block) (bit : Nat) : Block := update b (bit / 8) (b (bit / 8) ||| bitFlag bit)

def unsetBit (b : Block) (bit : Nat) : Block := update b (bit / 8) (b (bit / 8) &&& ~~~bitFlag bit)

theorem bitAt_setBit (b : Block) (bit k : Nat) : bitAt (setBit b bit) k = (decide (k = bit) || bitAt b k) := by
  unfold bitAt setBit
  by_cases hk : k / 8 = bit / 8
  · rw [hk, update_self, BitVec.getLsbD_or, getLsbD_bitFlag, Bool.or_comm]
    congr 1
    rw [decide_eq_decide]
    omega
  · rw [update_of_ne hk, decide_eq_false (show ¬k = bit by rintro rfl; exact hk rfl), Bool.false_or]

theorem bitAt_unsetBit (b : Block) (bit k : Nat) :
    bitAt (unsetBit b bit) k = (!decide (k = bit) && bitAt b k) := by
  unfold bitAt unsetBit
  by_cases hk : k / 8 = bit / 8
  · have h8 : k % 8 < 8 := Nat.mod_lt _ (by decide)
    rw [hk, update_self, BitVec.getLsbD_and, BitVec.getLsbD_not, getLsbD_bitFlag, Bool.and_comm]
    simp only [h8, decide_true, Bool.true_and]
    congr 2
    rw [decide_eq_decide]
    omega
  · rw [update_of_ne hk, decide_eq_false (show ¬k = bit by rintro rfl; exact hk rfl)]
    rfl

/-- The bit of a block in the bitmap that starts at `base`. -/
def used (disk : Nat → Block) (base lba : Nat) : Bool := bitAt (disk (base + lba / 4096)) (lba % 4096)

def mark (disk : Nat → Block) (base lba : Nat) : Nat → Block :=
  update disk (base + lba / 4096) (setBit (disk (base + lba / 4096)) (lba % 4096))

def unmark (disk : Nat → Block) (base lba : Nat) : Nat → Block :=
  update disk (base + lba / 4096) (unsetBit (disk (base + lba / 4096)) (lba % 4096))

section

variable {disk : Nat → Block} {base lba l n : Nat}

theorem used_mark : used (mark disk base lba) base l = (decide (l = lba) || used disk base l) := by
  unfold used mark
  by_cases hl : l / 4096 = lba / 4096
  · rw [hl, update_self, bitAt_setBit]
    congr 1
    rw [decide_eq_decide]
    omega
  · rw [update_of_ne (by omega), decide_eq_false (show ¬l = lba by rintro rfl; exact hl rfl),
      Bool.false_or]

theorem used_unmark : used (unmark disk base lba) base l = (!decide (l = lba) && used disk base l) := by
  unfold used unmark
  by_cases hl : l / 4096 = lba / 4096
  · rw [hl, update_self, bitAt_unsetBit]
    congr 2
    rw [decide_eq_decide]
    omega
  · rw [update_of_ne (by omega), decide_eq_false (show ¬l = lba by rintro rfl; exact hl rfl)]
    rfl

theorem used_congr {disk' : Nat → Block} (h : disk' (base + l / 4096) = disk (base + l / 4096)) :
    used disk' base l = used disk base l := by
  unfold used
  rw [h]

theorem clearBit_some {b : Block} {bit : Nat} (h : clearBit b n = some bit) :
    bit < n ∧ bitAt b bit = false ∧ ∀ k < bit, bitAt b k = true := by
  unfold clearBit at h
  rw [List.find?_range_eq_some] at h
  simp only [and_bitFlag, decide_eq_true_eq, List.mem_range, Bool.not_eq_eq_eq_not, Bool.not_true,
    decide_eq_false_iff_not, Bool.not_eq_false] at h
  exact ⟨h.2.1, h.1, h.2.2⟩

theorem clearBit_none {b : Block} (h : clearBit b n = none) : ∀ k < n, bitAt b k = true := by
  intro k hk
  unfold clearBit at h
  rw [List.find?_eq_none] at h
  have hb := h k (List.mem_range.mpr hk)
  unfold bitAt
  simpa only [and_bitFlag, decide_eq_true_eq, Bool.not_eq_false] using hb

end

def setBlock (s : Fs) (lba : Nat) (b : Block) : Fs := { s with disk := update s.disk lba b }

def held (s : Fs) (lba : Nat) : Fs := { s with bufs := update s.bufs lba (s.bufs lba - 1) }

def superBlock (disk : Nat → Block) : SuperBlock := ⟨getWord (disk 1) 0, getWord (disk 1) 4, getWord (disk 1) 8⟩

def nblocks (disk : Nat → Block) : Nat := (superBlock disk).nblocks.toNat

def bitmapStart (disk : Nat → Block) : Nat :=
  3 + (superBlock disk).ninodes.toNat * inodeSize % 2 ^ 32 / blockSize

variable {disk disk' : Nat → Block}

theorem superBlock_congr (h : disk' 1 = disk 1) : superBlock disk' = superBlock disk := by
  unfold superBlock
  rw [h]

theorem nblocks_congr (h : disk' 1 = disk 1) : nblocks disk' = nblocks disk := by
  unfold nblocks
  rw [superBlock_congr h]

theorem bitmapStart_congr (h : disk' 1 = disk 1) : bitmapStart disk' = bitmapStart disk := by
  unfold bitmapStart
  rw [superBlock_congr h]

theorem two_lt_bitmapStart (disk : Nat → Block) : 2 < bitmapStart disk := Nat.le_add_right 3 _

/-- The disk after `alloc_block` has given a block away. -/
def allocDisk (disk : Nat → Block) (base lba : Nat) : Nat → Block :=
  update (mark disk base lba) lba fun _ => 0

section

variable {α : Type} {s : Fs} {lba : Nat}

theorem devRead_ok (h : s.bufs lba ≠ 0) : devRead lba s = .ok (s.disk lba, s.held lba) := by
  show (if s.bufs lba = 0 then throw Halt.bufferLock else _ : FsM Block) s = _
  rw [if_neg h]
  rfl

theorem devRead_locked (h : s.bufs lba = 0) : devRead lba s = .error .bufferLock := by
  show (if s.bufs lba = 0 then throw Halt.bufferLock else _ : FsM Block) s = _
  rw [if_pos h]
  rfl

theorem ends_devRead {E : Halt → Prop} {Q : Block → Fs → Prop} (hE : E .bufferLock)
    (hQ : s.bufs lba ≠ 0 → Q (s.disk lba) (s.held lba)) : Ends E (devRead lba) Q s := by
  by_cases h : s.bufs lba = 0
  · exact (ends_of_error (devRead_locked h)).mpr hE
  · exact (ends_of_ok (devRead_ok h)).mpr (hQ h)

theorem releaseBlock_held (h : s.bufs lba ≠ 0) : releaseBlock lba (s.held lba) = .ok ((), s) := by
  have hb : update (s.held lba).bufs lba ((s.held lba).bufs lba + 1) = s.bufs := by
    rw [show (s.held lba).bufs = update s.bufs lba (s.bufs lba - 1) from rfl, update_self,
      update_idem, Nat.sub_add_cancel (Nat.pos_of_ne_zero h), update_eq_self]
  show Except.ok ((), { s with bufs := update (s.held lba).bufs lba ((s.held lba).bufs lba + 1) }) = _
  rw [hb]

theorem fetch_block {f : Block → FsM α} (h : s.bufs lba ≠ 0) :
    (do let b ← devRead lba; releaseBlock lba; f b : FsM α) s = f (s.disk lba) s := by
  rw [bind_ok (devRead_ok h), bind_ok (releaseBlock_held h)]

theorem store_held {f : Unit → FsM α} {b : Block} (h : s.bufs lba ≠ 0) :
    (devWrite lba b >>= fun _ => releaseBlock lba >>= f) (s.held lba) = f () (s.setBlock lba b) :=
  bind_ok (releaseBlock_held (s := s.setBlock lba b) h)

theorem readSuperBlock_ok (h : s.bufs 1 ≠ 0) : readSuperBlock s = .ok (superBlock s.disk, s) :=
  fetch_block (f := fun b => pure (⟨getWord b 0, getWord b 4, getWord b 8⟩ : SuperBlock)) h

theorem bitmapBlock_ok (h : s.bufs 1 ≠ 0) : bitmapBlock s = .ok (bitmapStart s.disk, s) :=
  bind_ok (readSuperBlock_ok h)

theorem zeroBlock_ok (h : s.bufs lba ≠ 0) : zeroBlock lba s = .ok ((), s.setBlock lba fun _ => 0) := by
  unfold zeroBlock
  rw [bind_ok (devRead_ok h)]
  exact releaseBlock_held (s := s.setBlock lba fun _ => 0) h

theorem chunk_bits (i n : Nat) :
    (if i + blockSize * 8 > n then n - i else blockSize * 8) = min 4096 (n - i) := by
  unfold blockSize
  split_ifs <;> omega

theorem allocLoop_found {base nblocks : Nat} (hl : lba < nblocks) (hfree : used s.disk base lba = false)
    (hbuf : s.bufs lba ≠ 0) {left i : Nat} (hi : i % 4096 = 0) (hil : i ≤ lba)
    (hleft : nblocks ≤ i + left * 4096) (hmap : ∀ c ≤ lba / 4096, s.bufs (base + c) ≠ 0)
    (hused : ∀ l, i ≤ l → l < lba → used s.disk base l = true) :
    allocLoop nblocks left (base + i / 4096) i s =
      .ok (lba, { s with disk := allocDisk s.disk base lba }) := by
  induction left generalizing i with
  | zero => omega
  | succ left ih =>
    have hread := hmap (i / 4096) (Nat.div_le_div_right hil)
    have hbit : ∀ k < 4096, used s.disk base (i + k) = bitAt (s.disk (base + i / 4096)) k := by
      intro k hk
      unfold used
      rw [show (i + k) / 4096 = i / 4096 by omega, show (i + k) % 4096 = k by omega]
    rw [allocLoop, bind_ok (devRead_ok hread)]
    rw [chunk_bits]
    generalize hn' : min 4096 (nblocks - i) = n
    cases hc : clearBit (s.disk (base + i / 4096)) n with
    | some bit =>
      obtain ⟨h1, h2, h3⟩ := clearBit_some hc
      have hlba : i + bit = lba := by
        rcases Nat.lt_trichotomy (i + bit) lba with h | h | h
        · rw [← hbit bit (by omega), hused _ (by omega) h] at h2
          exact absurd h2 (by decide)
        · exact h
        · have hk := h3 (lba - i) (by omega)
          rw [← hbit _ (by omega), show i + (lba - i) = lba by omega, hfree] at hk
          exact absurd hk (by decide)
      subst hlba
      have hmark : s.setBlock (base + i / 4096) (setBit (s.disk (base + i / 4096)) bit) =
          { s with disk := mark s.disk base (i + bit) } := by
        unfold setBlock mark
        rw [show (i + bit) / 4096 = i / 4096 by omega, show (i + bit) % 4096 = bit by omega]
      dsimp only
      rw [store_held hread]
      show (zeroBlock (i + bit) >>= fun _ => pure (i + bit))
        (s.setBlock (base + i / 4096) (setBit (s.disk (base + i / 4096)) bit)) = _
      rw [hmark]
      exact bind_ok (zeroBlock_ok (s := { s with disk := mark s.disk base (i + bit) }) hbuf)
    | none =>
      have hall := clearBit_none hc
      have hge : i + 4096 ≤ lba := by
        by_contra hlt
        have hk := hall (lba - i) (by omega)
        rw [← hbit _ (by omega), show i + (lba - i) = lba by omega, hfree] at hk
        exact absurd hk (by decide)
      have hstep := ih (i := i + 4096) (by omega) hge (by omega) (fun l h1 h2 => hused l (by omega) h2)
      dsimp only
      rw [bind_ok (releaseBlock_held hread), Nat.add_assoc, ← show (i + 4096) / 4096 = i / 4096 + 1 by omega]
      exact hstep

theorem allocBlock_loop (h : s.bufs 1 ≠ 0) : allocBlock s = allocLoop (nblocks s.disk)
      ((nblocks s.disk + (blockSize * 8 - 1)) / (blockSize * 8)) (bitmapStart s.disk) 0 s := by
  unfold allocBlock
  rw [bind_ok (readSuperBlock_ok h), bind_ok (bitmapBlock_ok h)]
  rfl

section

variable (h1 : s.bufs 1 ≠ 0)
include h1

theorem allocBlock_found (hl : lba < nblocks s.disk) (hfree : used s.disk (bitmapStart s.disk) lba = false)
    (hused : ∀ l < lba, used s.disk (bitmapStart s.disk) l = true) (hbuf : s.bufs lba ≠ 0)
    (hmap : ∀ c ≤ lba / 4096, s.bufs (bitmapStart s.disk + c) ≠ 0) :
    allocBlock s = .ok (lba, { s with disk := allocDisk s.disk (bitmapStart s.disk) lba }) := by
  rw [allocBlock_loop h1]
  refine allocLoop_found (i := 0) hl hfree hbuf rfl (Nat.zero_le _) ?_ hmap fun l _ h => hused l h
  unfold blockSize
  omega

theorem freeBlock_read : freeBlock lba s = (do
      let b ← devRead (bitmapStart s.disk + lba / 4096)
      if b (lba % 4096 / 8) &&& bitFlag (lba % 4096) = 0 then pure ()
      else do
        devWrite (bitmapStart s.disk + lba / 4096) (unsetBit b (lba % 4096))
        releaseBlock (bitmapStart s.disk + lba / 4096) : FsM Unit) s :=
  bind_ok (bitmapBlock_ok h1)

theorem freeBlock_used (hmap : s.bufs (bitmapStart s.disk + lba / 4096) ≠ 0)
    (hused : used s.disk (bitmapStart s.disk) lba = true) :
    freeBlock lba s = .ok ((), { s with disk := unmark s.disk (bitmapStart s.disk) lba }) := by
  rw [freeBlock_read h1, bind_ok (devRead_ok hmap), if_neg]
  · exact releaseBlock_held (s := s.setBlock _ _) hmap
  · rw [and_bitFlag, Bool.not_eq_false]
    exact hused

theorem freeBlock_unused (hmap : s.bufs (bitmapStart s.disk + lba / 4096) ≠ 0)
    (hused : used s.disk (bitmapStart s.disk) lba = false) :
    freeBlock lba s = .ok ((), s.held (bitmapStart s.disk + lba / 4096)) := by
  rw [freeBlock_read h1, bind_ok (devRead_ok hmap), if_pos]
  · rfl
  · rw [and_bitFlag]
    exact hused

end

end

end Fs

end BabyOS
