import BabyOS.FsDisk

open BitVec

namespace BabyOS

def sectSize : Nat := 512

def readSector (disk : Nat → Byte) (mem : Word → Byte) (buf lba : Word) : Word → Byte :=
  fun a => if (a - buf).toNat < sectSize then disk (lba.toNat * sectSize + (a - buf).toNat) else mem a

def readSectors (disk : Nat → Byte) (stop : Word) : Nat → (Word → Byte) → Word → Word → Option (Word → Byte)
  | 0, _, _, _ => none
  | fuel + 1, mem, p, lba =>
    if p < stop then readSectors disk stop fuel (readSector disk mem p lba) (p + .ofNat 32 sectSize) (lba + 1)
    else some mem

def readSegment (disk : Nat → Byte) (fuel : Nat) (mem : Word → Byte) (pa offset size : Word) : Option (Word → Byte) :=
  let p := pa - .ofNat 32 (offset.toNat % sectSize)
  readSectors disk (p + size) fuel mem p (.ofNat 32 (offset.toNat / sectSize))

/-- The sectors that hold `size` bytes, of which the first stands so far behind the start of a sector. -/
def sectors (before size : Nat) : Nat := (before + size + (sectSize - 1)) / sectSize

/-- `read_segment` returns with the bytes of the segment in place, and has changed only the sectors around it. -/
def Loads (disk : Nat → Byte) (mem : Word → Byte) (pa offset size : Word) : Prop :=
  ∃ fuel mem', readSegment disk fuel mem pa offset size = some mem' ∧
    (∀ k < size.toNat, mem' (pa + .ofNat 32 k) = disk (offset.toNat + k)) ∧
      ∀ a, sectors (offset.toNat % sectSize) size.toNat * sectSize ≤
        (a - (pa - .ofNat 32 (offset.toNat % sectSize))).toNat → mem' a = mem a

variable {disk : Nat → Byte} {mem : Word → Byte} {pa offset size : Word} {n : Nat}

theorem toNat_sub_next (a p : Word) : (a - (p + .ofNat 32 sectSize)).toNat =
    if (a - p).toNat < sectSize then (a - p).toNat + 2 ^ 32 - sectSize else (a - p).toNat - sectSize := by
  have hlt := (a - p).isLt
  have hsub : a - (p + .ofNat 32 sectSize) = a - p - .ofNat 32 sectSize := by bv_omega
  rw [hsub, BitVec.toNat_sub, show (BitVec.ofNat 32 sectSize).toNat = sectSize from rfl]
  unfold sectSize
  split <;> omega

/-- The memory after `n` sectors from `lba` on have been copied to `p`. -/
def loaded (disk : Nat → Byte) (n : Nat) (mem : Word → Byte) (p lba : Word) : Word → Byte := fun a =>
  if (a - p).toNat < n * sectSize then disk (lba.toNat * sectSize + (a - p).toNat) else mem a

theorem loaded_succ {p lba : Word} (hn : (n + 1) * sectSize < 2 ^ 32) (hlba : lba.toNat + 1 < 2 ^ 32) :
    loaded disk n (readSector disk mem p lba) (p + .ofNat 32 sectSize) (lba + 1) = loaded disk (n + 1) mem p lba := by
  have hl : (lba + 1).toNat = lba.toNat + 1 := by
    rw [toNat_add]
    exact Nat.mod_eq_of_lt hlba
  funext a
  rw [loaded, loaded, toNat_sub_next, hl, readSector]
  unfold sectSize at *
  have ha := (a - p).isLt
  by_cases hfirst : (a - p).toNat < 512
  · rw [if_pos hfirst, if_pos hfirst, if_neg (by omega), if_pos (by omega)]
  · rw [if_neg hfirst, if_neg hfirst]
    by_cases hin : (a - p).toNat < (n + 1) * 512
    · rw [if_pos (by omega), if_pos hin, show (lba.toNat + 1) * 512 + ((a - p).toNat - 512) =
        lba.toNat * 512 + (a - p).toNat by omega]
    · rw [if_neg (by omega), if_neg hin]

/-- The loop ends after the `n` turns that it needs to reach its end. -/
theorem readSectors_eq {fuel : Nat} {p stop lba : Word} (hroom : p.toNat + n * sectSize < 2 ^ 32)
    (hn : n = (stop.toNat - p.toNat + (sectSize - 1)) / sectSize) (hlba : lba.toNat + n < 2 ^ 32) :
    readSectors disk stop fuel mem p lba = if n < fuel then some (loaded disk n mem p lba) else none := by
  induction n generalizing fuel mem p lba with
  | zero =>
    have hle : ¬p < stop := by
      rw [lt_def]
      unfold sectSize at hn
      omega
    cases fuel with
    | zero => rfl
    | succ fuel =>
      have hnone : loaded disk 0 mem p lba = mem := funext fun a => if_neg (by omega)
      rw [readSectors, if_neg hle, if_pos (Nat.succ_pos fuel), hnone]
  | succ n ih =>
    have hlt : p < stop := by
      rw [lt_def]
      unfold sectSize at hn
      omega
    have hnat := lt_def.mp hlt
    have hp : (p + .ofNat 32 sectSize).toNat = p.toNat + sectSize := by
      rw [toNat_add]
      unfold sectSize at *
      exact Nat.mod_eq_of_lt (by rw [toNat_ofNat]; omega)
    have hl : (lba + 1).toNat = lba.toNat + 1 := by
      rw [toNat_add]
      exact Nat.mod_eq_of_lt (show lba.toNat + 1 < 2 ^ 32 by omega)
    cases fuel with
    | zero => rfl
    | succ fuel =>
      rw [readSectors, if_pos hlt, ih (by rw [hp]; unfold sectSize at *; omega)
        (by rw [hp]; unfold sectSize at *; omega) (by omega), loaded_succ (by omega) (by omega)]
      simp only [Nat.add_lt_add_iff_right]

/-- Where every address that the loop can come to stands before the end, it goes round the address space for ever. -/
theorem readSectors_endless {p stop : Word} (h : ∀ q : Word, q.toNat % sectSize = p.toNat % sectSize → q < stop)
    (fuel : Nat) (mem : Word → Byte) (lba : Word) : readSectors disk stop fuel mem p lba = none := by
  induction fuel generalizing mem p lba with
  | zero => rfl
  | succ fuel ih =>
    have hp : (p + .ofNat 32 sectSize).toNat % sectSize = p.toNat % sectSize := by
      rw [toNat_add, toNat_ofNat]
      unfold sectSize
      omega
    rw [readSectors, if_pos (h p rfl)]
    exact ih (fun q hq => h q (hq.trans hp)) _ _

/-- The sectors around the segment are as many as its bytes alone fill, and the address behind them does not come
round. -/
def Fitting (pa offset size : Word) : Prop :=
  sectors (offset.toNat % sectSize) size.toNat = sectors 0 size.toNat ∧
    (pa - .ofNat 32 (offset.toNat % sectSize)).toNat + sectors 0 size.toNat * sectSize < 2 ^ 32

section

variable {p : Word} (hp : p = pa - .ofNat 32 (offset.toNat % sectSize))
include hp

theorem readSegment_eq {fuel : Nat} (h : p.toNat + sectors 0 size.toNat * sectSize < 2 ^ 32) :
    readSegment disk fuel mem pa offset size = if sectors 0 size.toNat < fuel then
      some (loaded disk (sectors 0 size.toNat) mem p (.ofNat 32 (offset.toNat / sectSize))) else none := by
  have hstop : (p + size).toNat = p.toNat + size.toNat := by
    rw [toNat_add]
    unfold sectors sectSize at *
    exact Nat.mod_eq_of_lt (by omega)
  rw [readSegment, ← hp]
  refine readSectors_eq h ?_ ?_
  · rw [hstop, sectors, Nat.zero_add, Nat.add_sub_cancel_left]
  · rw [toNat_ofNat]
    have hoff := offset.isLt
    unfold sectors sectSize at *
    omega

theorem toNat_segment_sub (h : p.toNat + sectors 0 size.toNat * sectSize < 2 ^ 32) {k : Nat} (hk : k < size.toNat) :
    (pa + .ofNat 32 k - p).toNat = offset.toNat % sectSize + k := by
  have hr : offset.toNat % sectSize < sectSize := Nat.mod_lt _ (by decide)
  rw [hp] at h ⊢
  unfold sectors sectSize at *
  bv_omega

/-- A call that comes round the address space stops at once, or never. -/
theorem not_loads_of_round (hsize : size ≠ 0) (h : ¬p.toNat + sectors 0 size.toNat * sectSize < 2 ^ 32) :
    ¬Loads (fun _ => 1) (fun _ => 0) pa offset size := by
  rintro ⟨fuel, mem', hmem, hbytes, -⟩
  rw [readSegment, ← hp] at hmem
  have hpos : 0 < size.toNat := Nat.pos_of_ne_zero fun h0 => hsize (eq_of_toNat_eq h0)
  have hadd : (p + size).toNat = (p.toNat + size.toNat) % 2 ^ 32 := toNat_add p size
  have hlt := size.isLt
  have hplt := p.isLt
  by_cases hwrap : p.toNat + size.toNat < 2 ^ 32
  · rw [readSectors_endless] at hmem
    · cases hmem
    · intro q hq
      have hqlt := q.isLt
      rw [lt_def, hadd]
      unfold sectors sectSize at *
      omega
  · have hstop : ¬p < p + size := by
      rw [lt_def, hadd]
      omega
    cases fuel with
    | zero => cases hmem
    | succ fuel =>
      rw [readSectors, if_neg hstop] at hmem
      cases hmem
      exact absurd (show (0 : Byte) = 1 from hbytes 0 hpos) (by decide)

end

/-- The segment is loaded, whatever is on the disk and in memory, just when it is empty or fits. -/
theorem read_segment_loads (pa offset size : Word) :
    (∀ disk mem, Loads disk mem pa offset size) ↔ size = 0 ∨ Fitting pa offset size := by
  set p := pa - .ofNat 32 (offset.toNat % sectSize) with hp
  have hr : offset.toNat % sectSize < sectSize := Nat.mod_lt _ (by decide)
  have hl : (BitVec.ofNat 32 (offset.toNat / sectSize)).toNat = offset.toNat / sectSize := by
    have hoff := offset.isLt
    rw [toNat_ofNat]
    unfold sectSize
    omega
  constructor
  · intro h
    by_cases hsize : size = 0
    · exact Or.inl hsize
    by_cases hroom : p.toNat + sectors 0 size.toNat * sectSize < 2 ^ 32
    · refine Or.inr ⟨?_, hroom⟩
      obtain ⟨fuel, mem', hmem, hbytes, -⟩ := h (fun _ => 1) fun _ => 0
      rw [readSegment_eq hp hroom] at hmem
      split_ifs at hmem
      cases hmem
      have hpos : 0 < size.toNat := Nat.pos_of_ne_zero fun h0 => hsize (eq_of_toNat_eq h0)
      have hlast := hbytes (size.toNat - 1) (by omega)
      rw [loaded, toNat_segment_sub hp hroom (by omega)] at hlast
      split_ifs at hlast with hin
      · unfold sectors sectSize at *
        omega
      · exact absurd (show (0 : Byte) = 1 from hlast) (by decide)
    · exact absurd (h _ _) (not_loads_of_round hp hsize hroom)
  · rintro (rfl | ⟨hsect, hroom⟩) disk mem
    · refine ⟨1, mem, ?_, fun k hk => absurd hk (Nat.not_lt_zero k), fun _ _ => rfl⟩
      rw [readSegment, readSectors, if_neg]
      rw [add_zero]
      exact BitVec.lt_irrefl _
    · refine ⟨sectors 0 size.toNat + 1, _, (readSegment_eq hp hroom).trans (if_pos (Nat.lt_succ_self _)), fun k hk => ?_,
        fun a ha => ?_⟩
      · rw [loaded, toNat_segment_sub hp hroom hk, if_pos, hl]
        · congr 1
          unfold sectSize
          omega
        · rw [← hsect, sectors]
          unfold sectSize at *
          omega
      · rw [hsect] at ha
        exact if_neg (Nat.not_lt.mpr ha)

/-- Two bytes, the last of a sector and the first of the next: only one sector is read. -/
theorem read_segment_stops_early : ∃ disk mem, ¬Loads disk mem 0x100000 0x11ff 2 := by
  refine ⟨fun _ => 1, fun _ => 0, ?_⟩
  rintro ⟨fuel, mem', hmem, hbytes, -⟩
  have hnext := hbytes 1 (by decide)
  rcases fuel with _ | _ | fuel
  · cases hmem
  · cases hmem
  · cases hmem
    revert hnext
    decide

end BabyOS
