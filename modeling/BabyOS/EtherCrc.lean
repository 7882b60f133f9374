import BabyOS.Crc
import BabyOS.MmPages

open Function BitVec

namespace BabyOS

def crcTable : List Word :=
  [0x4DBDF21C, 0x500AE278, 0x76D3D2D4, 0x6B64C2B0, 0x3B61B38C, 0x26D6A3E8, 0x000F9344, 0x1DB88320,
    0xA005713C, 0xBDB26158, 0x9B6B51F4, 0x86DC4190, 0xD6D930AC, 0xCB6E20C8, 0xEDB71064, 0xF0000000]

def crcNibble (crc d : Word) : Word := (crc >>> 4) ^^^ crcTable.getD ((crc ^^^ d) &&& 0x0F#32).toNat 0

def crcByte (crc : Word) (b : Byte) : Word :=
  let d : Word := b.setWidth 32
  crcNibble (crcNibble crc d) (d >>> 4)

def etherCrc (data : List Byte) : Word := data.foldl crcByte 0

def crcPoly : Word := 0xEDB88320

def frameCheck (data : List Byte) : Word := ~~~Crc.register crcPoly 0xFFFFFFFF data

theorem split_nibble (x : Word) : x = (x &&& 0x0F#32) ^^^ (x &&& ~~~0x0F#32) := by
  ext i
  simp only [getElem_xor, getElem_and, getElem_not]
  cases x[i] <;> cases (0x0F#32)[i] <;> rfl

theorem getLsbD_fifteen (i : Nat) : (0x0F#32).getLsbD i = decide (i < 4) := by
  rw [getLsbD_ofNat, show 15 = 2 ^ 4 - 1 by rfl, Nat.testBit_two_pow_sub_one]
  grind

theorem high_ushiftRight (x : Word) : (x &&& ~~~0x0F#32) >>> 4 = x >>> 4 := by
  refine eq_of_getLsbD_eq fun i hi => ?_
  simp only [getLsbD_ushiftRight, getLsbD_and, getLsbD_not, getLsbD_fifteen]
  by_cases h : 4 + i < 32
  · simp [h]
  · simp [getLsbD_of_ge x (4 + i) (by omega)]

theorem iterate_four (x : Word) :
    (Crc.shift crcPoly)^[4] x = (x >>> 4) ^^^ (Crc.shift crcPoly)^[4] (x &&& 0x0F#32) := by
  have hclear : ∀ i < 4, (x &&& ~~~0x0F#32).getLsbD i = false := by
    intro i hi
    rw [getLsbD_and, getLsbD_not, getLsbD_fifteen]
    simp [hi]
  conv_lhs => rw [split_nibble x, Crc.iterate_shift_xor, Crc.iterate_shift_clear hclear, high_ushiftRight]
  exact BitVec.xor_comm _ _

theorem crcTable_eq (k : Fin 16) : crcTable.getD k 0 =
    0xF0000000#32 ^^^ (Crc.shift crcPoly)^[4] (BitVec.ofNat 32 k ^^^ 0x0F#32) := by
  revert k
  decide

theorem crcNibble_not (reg d : Word) :
    crcNibble (~~~reg) d = ~~~((reg >>> 4) ^^^ (Crc.shift crcPoly)^[4] ((reg ^^^ d) &&& 0x0F#32)) := by
  have hlt : ((~~~reg ^^^ d) &&& 0x0F#32).toNat < 16 := by
    rw [toNat_and]
    exact Nat.lt_succ_of_le Nat.and_le_right
  have hk := crcTable_eq ⟨_, hlt⟩
  have hnot : ((~~~reg ^^^ d) &&& 0x0F#32) ^^^ 0x0F#32 = (reg ^^^ d) &&& 0x0F#32 := by
    ext i
    simp only [getElem_xor, getElem_and, getElem_not]
    cases reg[i] <;> cases d[i] <;> cases (0x0F#32)[i] <;> rfl
  have hhigh : ~~~reg >>> 4 ^^^ 0xF0000000#32 = ~~~(reg >>> 4) := by
    refine eq_of_getLsbD_eq fun i hi => ?_
    have hmask : (0xF0000000#32).getLsbD i = decide (28 ≤ i) := by
      revert i
      decide
    simp only [getLsbD_xor, getLsbD_ushiftRight, getLsbD_not, hmask, hi]
    by_cases h : 4 + i < 32
    · simp [h, show ¬28 ≤ i by omega]
    · simp [getLsbD_of_ge reg (4 + i) (by omega), show 28 ≤ i by omega, show ¬4 + i < 32 from h]
  rw [ofNat_toNat, setWidth_eq, hnot] at hk
  rw [crcNibble, hk, ← xor_assoc, hhigh, not_xor_left]

theorem crcByte_not (reg : Word) (b : Byte) :
    crcByte (~~~reg) b = ~~~(Crc.shift crcPoly)^[8] (reg ^^^ b.setWidth 32) := by
  unfold crcByte
  have hlow : (b.setWidth 32 : Word) >>> 4 >>> 4 = 0#32 := by
    revert b
    decide
  generalize (b.setWidth 32 : Word) = d at hlow ⊢
  dsimp only
  rw [crcNibble_not, crcNibble_not, iterate_add_apply (Crc.shift crcPoly) 4 4, iterate_four (reg ^^^ d),
    ushiftRight_xor_distrib reg d]
  generalize (Crc.shift crcPoly)^[4] ((reg ^^^ d) &&& 0x0F#32) = t
  have hmove : reg >>> 4 ^^^ d >>> 4 ^^^ t = reg >>> 4 ^^^ t ^^^ d >>> 4 := by ac_rfl
  rw [hmove, iterate_four (_ ^^^ d >>> 4), ushiftRight_xor_distrib (reg >>> 4 ^^^ t), hlow, xor_zero]

theorem foldl_crcByte (reg : Word) (data : List Byte) :
    data.foldl crcByte (~~~reg) = ~~~Crc.register crcPoly reg data := by
  induction data generalizing reg with
  | nil => rfl
  | cons b data ih =>
    rw [List.foldl_cons, crcByte_not, ih]
    rfl

theorem etherCrc_eq (data : List Byte) : etherCrc data = frameCheck data := foldl_crcByte 0xFFFFFFFF data

/-- `ether_crc` is the check sequence of Ethernet, and so it is additive over three strings of one length. -/
theorem ether_crc_is_crc32 : (∀ data, etherCrc data = frameCheck data) ∧
    ∀ a b c : List Byte, a.length = b.length → b.length = c.length →
      etherCrc a ^^^ etherCrc b ^^^ etherCrc c =
        etherCrc (List.zipWith (· ^^^ ·) (List.zipWith (· ^^^ ·) a b) c) := by
  refine ⟨etherCrc_eq, fun a b c hab hbc => ?_⟩
  have hlen : (List.zipWith (· ^^^ ·) a b).length = c.length := by
    rw [List.length_zipWith]
    omega
  have hinit : (0xFFFFFFFF : Word) = 0xFFFFFFFF ^^^ 0xFFFFFFFF ^^^ 0xFFFFFFFF := by decide
  have hsum : Crc.register crcPoly 0xFFFFFFFF (List.zipWith (· ^^^ ·) (List.zipWith (· ^^^ ·) a b) c) =
      Crc.register crcPoly 0xFFFFFFFF a ^^^ Crc.register crcPoly 0xFFFFFFFF b ^^^
        Crc.register crcPoly 0xFFFFFFFF c := by
    conv_lhs => rw [hinit, Crc.register_xor hlen, Crc.register_xor hab]
  rw [etherCrc_eq, etherCrc_eq, etherCrc_eq, etherCrc_eq]
  unfold frameCheck
  rw [hsum]
  generalize Crc.register crcPoly 0xFFFFFFFF a = x
  generalize Crc.register crcPoly 0xFFFFFFFF b = y
  generalize Crc.register crcPoly 0xFFFFFFFF c = z
  ext i
  simp only [getElem_xor, getElem_not]
  cases x[i] <;> cases y[i] <;> cases z[i] <;> rfl

theorem ether_crc_of_digits : etherCrc [0x31, 0x32, 0x33, 0x34, 0x35, 0x36, 0x37, 0x38, 0x39] = 0xCBF43926 ∧
    etherCrc [1, 9] ^^^ etherCrc [2, 9] ^^^ etherCrc [4, 9] = etherCrc [7, 9] := by
  refine ⟨by decide, ?_⟩
  have h := ether_crc_is_crc32.2 [1, 9] [2, 9] [4, 9] rfl rfl
  exact h

end BabyOS
