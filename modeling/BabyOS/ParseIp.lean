import BabyOS.Bytes

open List

namespace BabyOS

namespace ParseIp

def cInvalidIp : BitVec 32 := 0xffffffff

/-- The inner loop of `parse_ip`: the number, and the string from its separator on; `none` for `c_invalid_ip`. -/
def number : Nat → List Byte → Option (Nat × List Byte)
  | tmp, [] => some (tmp, [])
  | tmp, c :: p =>
    if c = 46 then some (tmp, c :: p)
    else if c < 48 ∨ 57 < c then none
    else if 255 < tmp * 10 + c.toNat - 48 then none
    else number (tmp * 10 + c.toNat - 48) p

def push (ip : BitVec 32) (tmp : Nat) : BitVec 32 := ip <<< 8 ||| .ofNat 32 tmp

/-- The outer loop, with `count` `left` below 4; `p` is `none` behind the end of the string, and so is the result
when `*p` is read there. -/
def parseIpFrom (ip : BitVec 32) (left : Nat) : Option (List Byte) → Option (BitVec 32)
  | none => none
  | some [] => some ip
  | some (c :: p) =>
    match number 0 (c :: p) with
    | none => some cInvalidIp
    | some (tmp, rest) =>
      match left with
      | 0 => some cInvalidIp
      | left + 1 => parseIpFrom (push ip tmp) left rest.tail?

def parseIp (str : List Byte) : Option (BitVec 32) := parseIpFrom 0 4 (some str)

/-- The value of the digits `c` behind a number. -/
def value (n : Nat) (c : List Byte) : Nat := c.foldl (fun n b => n * 10 + b.toNat - 48) n

def IsNumber (c : List Byte) : Prop := (∀ b ∈ c, 48 ≤ b ∧ b ≤ 57) ∧ value 0 c ≤ 255

def dotted (cs : List (List Byte)) : List Byte := cs.flatMap (· ++ [46])

def address (ip : BitVec 32) (cs : List (List Byte)) : BitVec 32 := cs.foldl (fun ip c => push ip (value 0 c)) ip

def Quad (str : List Byte) (ip : BitVec 32) : Prop :=
  ∃ cs d, (∀ c ∈ d :: cs, IsNumber c ∧ c ≠ []) ∧ cs.length = 3 ∧ str = dotted cs ++ d ∧ ip = address 0 (cs ++ [d])

/-- `parse_ip` reads the string only, and returns the address or `c_invalid_ip`. -/
def Parses (str : List Byte) : Prop :=
  ∃ r, parseIp str = some r ∧ (∀ ip, Quad str ip → r = ip) ∧ ((¬∃ ip, Quad str ip) → r = cInvalidIp)

/-- Behind at most four numbers with their dots there is one component too many, or one that is not a number. -/
def Rejected (str : List Byte) : Prop :=
  ∃ cs d, (∀ c ∈ cs, IsNumber c) ∧ cs.length ≤ 4 ∧ d ≠ [] ∧ str = dotted cs ++ d ∧ (cs.length = 4 ∨ number 0 d = none)

variable {n left : Nat} {ip : BitVec 32} {c d p str : List Byte} {cs : List (List Byte)}

theorem le_value (hc : ∀ b ∈ c, 48 ≤ b ∧ b ≤ 57) : n ≤ value n c := by
  induction c generalizing n with
  | nil => exact le_rfl
  | cons b c ih =>
    rw [forall_mem_cons, BitVec.le_def] at hc
    have hb : 48 ≤ b.toNat := hc.1.1
    exact (show n ≤ n * 10 + b.toNat - 48 by omega).trans (ih hc.2)

theorem number_append (hc : ∀ b ∈ c, 48 ≤ b ∧ b ≤ 57) (hv : value n c ≤ 255) :
    number n (c ++ p) = number (value n c) p := by
  induction c generalizing n with
  | nil => rfl
  | cons b c ih =>
    rw [forall_mem_cons] at hc
    obtain ⟨⟨hlow, hhigh⟩, hrest⟩ := hc
    have hle : n * 10 + b.toNat - 48 ≤ 255 := (le_value hrest).trans hv
    rw [cons_append, number, if_neg (by bv_omega), if_neg (by bv_omega), if_neg (Nat.not_lt.mpr hle)]
    exact ih hrest hv

theorem parseIpFrom_some {rest : List Byte} (hne : p ≠ []) (h : number 0 p = some (n, rest)) :
    parseIpFrom ip (left + 1) (some p) = parseIpFrom (push ip n) left rest.tail? := by
  obtain ⟨b, q, rfl⟩ := exists_cons_of_ne_nil hne
  rw [parseIpFrom, h]

theorem parseIpFrom_dotted (hcs : ∀ c ∈ cs, IsNumber c) : parseIpFrom ip (cs.length + left) (some (dotted cs ++ d)) =
    parseIpFrom (address ip cs) left (some d) := by
  induction cs generalizing ip with
  | nil =>
    rw [length_nil, Nat.zero_add]
    rfl
  | cons c cs ih =>
    rw [forall_mem_cons] at hcs
    have hnum : number 0 (dotted (c :: cs) ++ d) = some (value 0 c, 46 :: (dotted cs ++ d)) := by
      rw [dotted, flatMap_cons, append_assoc, append_assoc, number_append hcs.1.1 hcs.1.2]
      rfl
    rw [length_cons, Nat.add_right_comm, parseIpFrom_some (by simp [dotted]) hnum]
    exact ih hcs.2

/-- Behind the last number the loop steps over the zero. -/
theorem Quad.reads_behind (h : Quad str ip) : parseIp str = none := by
  obtain ⟨cs, d, hcs, hlen, rfl, -⟩ := h
  rw [forall_mem_cons] at hcs
  obtain ⟨⟨hd, hne⟩, hcs⟩ := hcs
  have hnum : number 0 d = some (value 0 d, []) := by
    rw [← append_nil d, number_append hd.1 hd.2, append_nil, number]
  rw [parseIp, show 4 = cs.length + 1 by omega, parseIpFrom_dotted fun c hc => (hcs c hc).1, parseIpFrom_some hne hnum]
  rfl

theorem Rejected.parseIp_eq (h : Rejected str) : parseIp str = some cInvalidIp := by
  obtain ⟨cs, d, hcs, hlen, hne, rfl, hend⟩ := h
  obtain ⟨b, q, rfl⟩ := exists_cons_of_ne_nil hne
  rw [parseIp, ← Nat.add_sub_cancel' hlen, parseIpFrom_dotted hcs, parseIpFrom]
  rcases hend with hlen | hbad
  · rw [hlen]
    split
    · rfl
    · rfl
  · rw [hbad]

/-- What the inner loop takes is a number, up to a dot or the end of the string. -/
theorem number_some {m : Nat} {rest : List Byte} (hn : n ≤ 255) (h : number n p = some (m, rest)) :
    ∃ c, p = c ++ rest ∧ (∀ b ∈ c, 48 ≤ b ∧ b ≤ 57) ∧ value n c = m ∧ m ≤ 255 ∧ (rest = [] ∨ ∃ q, rest = 46 :: q) := by
  induction p generalizing n with
  | nil =>
    cases h
    exact ⟨[], rfl, forall_mem_nil _, rfl, hn, Or.inl rfl⟩
  | cons b p ih =>
    rw [number] at h
    split_ifs at h with hdot hdigit hbig
    · cases h
      exact ⟨[], rfl, forall_mem_nil _, rfl, hn, Or.inr ⟨p, by rw [hdot]⟩⟩
    · obtain ⟨c, rfl, hc, hv, hm, hrest⟩ := ih (Nat.not_lt.mp hbig) h
      refine ⟨b :: c, rfl, forall_mem_cons.mpr ⟨?_, hc⟩, hv, hm, hrest⟩
      rw [not_or, BitVec.not_lt, BitVec.not_lt] at hdigit
      exact hdigit

/-- A call that stays in the string has taken the whole of it as numbers with their dots, or has rejected it. -/
theorem parseIpFrom_cases {r : BitVec 32} (h : parseIpFrom ip left (some str) = some r) :
    (∃ cs, (∀ c ∈ cs, IsNumber c) ∧ cs.length ≤ left ∧ str = dotted cs ∧ r = address ip cs) ∨
      ∃ cs d, (∀ c ∈ cs, IsNumber c) ∧ cs.length ≤ left ∧ d ≠ [] ∧ str = dotted cs ++ d ∧
        (cs.length = left ∨ number 0 d = none) := by
  induction left generalizing ip str with
  | zero =>
    cases str with
    | nil =>
      cases h
      exact Or.inl ⟨[], forall_mem_nil _, le_rfl, rfl, rfl⟩
    | cons b p => exact Or.inr ⟨[], b :: p, forall_mem_nil _, le_rfl, cons_ne_nil b p, rfl, Or.inl rfl⟩
  | succ left ih =>
    by_cases hne : str = []
    · rw [hne] at h ⊢
      cases h
      exact Or.inl ⟨[], forall_mem_nil _, Nat.zero_le _, rfl, rfl⟩
    · cases hnum : number 0 str with
      | none => exact Or.inr ⟨[], str, forall_mem_nil _, Nat.zero_le _, hne, rfl, Or.inr hnum⟩
      | some x =>
        obtain ⟨m, rest⟩ := x
        rw [parseIpFrom_some hne hnum] at h
        obtain ⟨c, rfl, hc, rfl, hm, rfl | ⟨q, rfl⟩⟩ := number_some (Nat.zero_le _) hnum
        · rw [tail?_nil, parseIpFrom] at h
          cases h
        · have hcons : ∀ cs : List (List Byte), (∀ e ∈ cs, IsNumber e) → ∀ e ∈ c :: cs, IsNumber e := fun cs hcs =>
            forall_mem_cons.mpr ⟨⟨hc, hm⟩, hcs⟩
          rcases ih h with ⟨cs, hcs, hlen, rfl, hr⟩ | ⟨cs, d, hcs, hlen, hd, rfl, hend⟩
          · exact Or.inl ⟨c :: cs, hcons cs hcs, Nat.succ_le_succ hlen, by simp [dotted], hr⟩
          · exact Or.inr ⟨c :: cs, d, hcons cs hcs, Nat.succ_le_succ hlen, hd, by simp [dotted],
              hend.imp_left (congrArg Nat.succ)⟩

theorem toNat_push (hn : n ≤ 255) : (push ip n).toNat = ip.toNat % 2 ^ 24 * 2 ^ 8 + n := by
  have hshift : ip.toNat <<< 8 % 2 ^ 32 = (ip.toNat % 2 ^ 24) <<< 8 := by
    rw [Nat.shiftLeft_eq, Nat.shiftLeft_eq]
    omega
  rw [push, BitVec.toNat_or, BitVec.toNat_shiftLeft, BitVec.toNat_ofNat, Nat.mod_eq_of_lt (show n < 2 ^ 32 by omega),
    hshift, ← Nat.shiftLeft_add_eq_or_of_lt (show n < 2 ^ 8 by omega), Nat.shiftLeft_eq]

/-- Components that fill the address to its last bit are all 255, and fill it in full. -/
theorem address_ones {m : Nat} (hcs : ∀ c ∈ cs, IsNumber c) (hip : ip.toNat < m) (hm : m * 256 ^ cs.length ≤ 2 ^ 32)
    (h : address ip cs = cInvalidIp) : m * 256 ^ cs.length = 2 ^ 32 ∧ ip.toNat + 1 = m ∧ ∀ c ∈ cs, value 0 c = 255 := by
  induction cs generalizing ip m with
  | nil =>
    rw [show ip = cInvalidIp from h, show cInvalidIp.toNat = 2 ^ 32 - 1 from rfl] at hip ⊢
    rw [length_nil, Nat.pow_zero] at hm ⊢
    exact ⟨by omega, by omega, forall_mem_nil _⟩
  | cons c cs ih =>
    rw [forall_mem_cons] at hcs
    rw [length_cons, Nat.pow_succ', ← Nat.mul_assoc] at hm ⊢
    have hpos : 1 ≤ 256 ^ cs.length := Nat.one_le_two_pow.trans (Nat.pow_le_pow_left (by omega) _)
    have hsmall : m * 256 ≤ 2 ^ 32 := (Nat.le_mul_of_pos_right _ hpos).trans hm
    have hv : value 0 c ≤ 255 := hcs.1.2
    have hpush : (push ip (value 0 c)).toNat = ip.toNat * 2 ^ 8 + value 0 c := by
      rw [toNat_push hv, Nat.mod_eq_of_lt (by omega)]
    obtain ⟨hfull, hones, hrest⟩ := ih hcs.2 (show (push ip (value 0 c)).toNat < m * 256 by omega) hm h
    exact ⟨hfull, by omega, forall_mem_cons.mpr ⟨by omega, hrest⟩⟩

theorem parses_of_invalid (h : parseIp str = some cInvalidIp) : Parses str := by
  refine ⟨_, h, fun ip hq => ?_, fun _ => rfl⟩
  cases h.symm.trans hq.reads_behind

/-- A string is parsed right just when it is rejected, or has four components 255, each with its dot: then the address
that the loop comes to is `c_invalid_ip`. -/
theorem parse_ip_iff (str : List Byte) :
    Parses str ↔
      Rejected str ∨ ∃ cs, (∀ c ∈ cs, IsNumber c ∧ value 0 c = 255) ∧ cs.length = 4 ∧ str = dotted cs := by
  constructor
  · rintro ⟨r, hr, -, hinvalid⟩
    have hr' : r = cInvalidIp := by
      refine hinvalid ?_
      rintro ⟨ip, hq⟩
      cases hr.symm.trans hq.reads_behind
    rcases parseIpFrom_cases hr with ⟨cs, hcs, hlen, hstr, haddr⟩ | hrej
    · have hle : 256 ^ cs.length ≤ 256 ^ 4 := Nat.pow_le_pow_right (by omega) hlen
      obtain ⟨hfull, -, hval⟩ := address_ones (m := 1) hcs (by decide) (by omega) (haddr.symm.trans hr')
      refine Or.inr ⟨cs, fun c hc => ⟨hcs c hc, hval c hc⟩, ?_, hstr⟩
      exact Nat.pow_right_injective (show 2 ≤ 256 by omega) (show 256 ^ cs.length = 256 ^ 4 by omega)
    · exact Or.inl hrej
  · rintro (hrej | ⟨cs, hcs, hlen, rfl⟩)
    · exact parses_of_invalid hrej.parseIp_eq
    · refine parses_of_invalid ?_
      have hbytes : address 0 cs = cInvalidIp := by
        obtain ⟨a, b, c, d, rfl⟩ := length_eq_four.mp hlen
        simp only [forall_mem_cons] at hcs
        obtain ⟨ha, hb, hc, hd, -⟩ := hcs
        rw [address, foldl_cons, foldl_cons, foldl_cons, foldl_cons, ha.2, hb.2, hc.2, hd.2]
        rfl
      rw [parseIp, ← hlen, ← Nat.add_zero cs.length, ← append_nil (dotted cs),
        parseIpFrom_dotted fun c hc => (hcs c hc).1, hbytes]
      rfl

theorem parse_ip_reads_behind : ∃ str, Quad str 0x01020304 ∧ ¬Parses str := by
  refine ⟨[49, 46, 50, 46, 51, 46, 52], ⟨[[49], [50], [51]], [52], by simp [IsNumber, value], rfl, rfl, by decide⟩, ?_⟩
  rintro ⟨r, hr, -⟩
  cases hr

end ParseIp

end BabyOS
