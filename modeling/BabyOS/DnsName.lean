import BabyOS.NetPool

open BitVec List

namespace BabyOS

/-- Why a DNS decoder does not return: it goes on for ever, reads behind the packet, or writes behind its buffer. -/
inductive DnsErr
  | endless
  | read
  | write
  deriving DecidableEq

abbrev DnsProg := Prog DnsErr (Nat → Byte)

def maxLabelLen : Byte := 63

def pointerOffset (len low : Byte) : Nat :=
  (((len &&& 0x3f).setWidth 16 <<< 8) ||| low.setWidth 16 : Half).toNat

section

variable (pkt : List Byte) (cap : Nat)

def readByte (i : Nat) : DnsProg Byte :=
  match pkt[i]? with
  | some b => pure b
  | none => throw .read

def writeByte (i : Nat) (b : Byte) : DnsProg Unit :=
  if i < cap then modify fun f => Function.update f i b else throw .write

def copyLabel : Nat → Nat → Nat → DnsProg Unit
  | 0, _, _ => pure ()
  | n + 1, name, data => do
    let b ← readByte pkt data
    writeByte cap name b
    copyLabel n (name + 1) (data + 1)

def nameLength : Nat → Nat → DnsProg Nat
  | 0, _ => throw .read
  | n + 1, name => do
    let f ← get
    if f name = 0 then pure 0
    else do
      let k ← nameLength n (name + 1)
      pure (k + 1)

mutual

/-- The loop of `resolve_name`, with the length byte that it looks at; it returns `data` and `name`. -/
def resolveLoop : Nat → Nat → Nat → Byte → DnsProg (Nat × Nat)
  | 0, _, _, _ => throw .endless
  | fuel + 1, data, name, len =>
    if len = 0 then pure (data, name)
    else if len ≤ maxLabelLen then do
      copyLabel pkt cap len.toNat name data
      let next ← readByte pkt (data + len.toNat)
      if next ≠ 0 then do
        writeByte cap (name + len.toNat) 0x2e
        resolveLoop fuel (data + len.toNat + 1) (name + len.toNat + 1) next
      else resolveLoop fuel (data + len.toNat + 1) (name + len.toNat) next
    else do
      let low ← readByte pkt data
      discard (resolveName fuel (pointerOffset len low) name)
      let n ← nameLength (cap - name) name
      pure (data + 1, name + n)

/-- `resolve_name` from a position of the packet, into a buffer of `cap` bytes from one of its positions on. -/
def resolveName : Nat → Nat → Nat → DnsProg Nat
  | 0, _, _ => throw .endless
  | fuel + 1, data, name => do
    let len ← readByte pkt data
    let r ← resolveLoop fuel (data + 1) name len
    writeByte cap r.2 0
    pure (r.1 - data)

end

def Dns.resolveName : Nat → Nat → Nat → DnsProg Nat := BabyOS.resolveName pkt cap

def Userlib.resolveName : Nat → Nat → Nat → DnsProg Nat := BabyOS.resolveName pkt cap

end

/-- What follows a label in the text: nothing in front of the zero byte, else a dot and the rest. -/
def dotted (next : Byte) (text : List Byte) : List Byte := if next = 0 then [] else 0x2e :: text

/-- A name as the decoder takes it: the text at a position and the bytes it has there. A label may hold any
bytes; every longer length byte begins a pointer. -/
inductive NameAt (pkt : List Byte) : Nat → List Byte → Nat → Prop
  | root {pos : Nat} (h : pkt[pos]? = some 0) : NameAt pkt pos [] 1
  | label {pos size : Nat} {len next : Byte} {text label : List Byte} (h : pkt[pos]? = some len) (h0 : len ≠ 0)
      (hlen : len ≤ maxLabelLen) (hl : (pkt.drop (pos + 1)).take len.toNat = label)
      (hn : pkt[pos + 1 + len.toNat]? = some next) (hrest : NameAt pkt (pos + 1 + len.toNat) text size) :
      NameAt pkt pos (label ++ dotted next text) (1 + len.toNat + size)
  | pointer {pos size : Nat} {len low : Byte} {text : List Byte} (h : pkt[pos]? = some len)
      (hlen : ¬len ≤ maxLabelLen) (hlow : pkt[pos + 1]? = some low)
      (hto : NameAt pkt (pointerOffset len low) text size) : NameAt pkt pos text 2

section

open Net (write)

variable {pkt : List Byte} {cap pos name size : Nat} {text : List Byte} {f g : Nat → Byte}

variable {i n k e fuel : Nat} {b len : Byte} {u : Unit} {labels : List (List Byte)}

theorem readByte_eq_ok : readByte pkt i f = .ok (b, g) ↔ pkt[i]? = some b ∧ g = f := by
  unfold readByte
  cases h : pkt[i]? with
  | none =>
    constructor
    · intro hr
      cases hr
    · intro hr
      cases hr.1
  | some c =>
    show (pure c : DnsProg Byte) f = _ ↔ _
    rw [pure_eq_ok, Option.some.injEq, eq_comm]

theorem writeByte_eq_ok : writeByte cap i b f = .ok (u, g) ↔ i < cap ∧ g = write f i [b] := by
  unfold writeByte
  split_ifs with h
  · rw [← Net.update_eq_write]
    constructor
    · intro hr
      cases hr
      exact ⟨h, rfl⟩
    · rintro ⟨-, rfl⟩
      rfl
  · constructor
    · intro hr
      cases hr
    · intro hr
      exact absurd hr.1 h

theorem copyLabel_eq_ok {data : Nat} : copyLabel pkt cap n name data f = .ok (u, g) ↔
    ((pkt.drop data).take n).length = n ∧ (n = 0 ∨ name + n ≤ cap) ∧ g = write f name ((pkt.drop data).take n) := by
  induction n generalizing name data f with
  | zero =>
    rw [copyLabel, pure_eq_ok, take_zero, Net.write_nil]
    simp
  | succ n ih =>
    rw [copyLabel, bind_eq_ok]
    simp only [bind_eq_ok, readByte_eq_ok, writeByte_eq_ok, ih]
    by_cases hd : data < pkt.length
    · rw [drop_eq_getElem_cons hd, take_succ_cons, List.getElem?_eq_getElem hd]
      constructor
      · rintro ⟨b, t, ⟨hb, rfl⟩, -, v, ⟨hcap, rfl⟩, hlen, hroom, rfl⟩
        cases hb
        refine ⟨by rw [length_cons, hlen], Or.inr (by omega), ?_⟩
        exact Net.write_write name [pkt[data]] _
      · rintro ⟨hlen, hroom, rfl⟩
        refine ⟨_, _, ⟨rfl, rfl⟩, (), _, ⟨by omega, rfl⟩, by simpa using hlen, by omega, ?_⟩
        exact (Net.write_write name [pkt[data]] _).symm
    · have hnone : pkt[data]? = none := List.getElem?_eq_none (by omega)
      constructor
      · rintro ⟨b, t, ⟨hb, -⟩, -⟩
        cases hnone.symm.trans hb
      · rintro ⟨hlen, -⟩
        rw [length_take, length_drop] at hlen
        omega

theorem nameLength_eq_ok : nameLength n name f = .ok (k, g) ↔
    k < n ∧ f (name + k) = 0 ∧ (∀ i < k, f (name + i) ≠ 0) ∧ g = f := by
  induction n generalizing name k g with
  | zero =>
    constructor
    · intro h
      cases h
    · intro h
      omega
  | succ n ih =>
    change (if f name = 0 then pure 0 else nameLength n (name + 1) >>= fun k => pure (k + 1) : DnsProg Nat) f = _ ↔ _
    split_ifs with h
    · rw [pure_eq_ok]
      constructor
      · rintro ⟨rfl, rfl⟩
        exact ⟨by omega, h, fun i hi => absurd hi (Nat.not_lt_zero i), rfl⟩
      · rintro ⟨-, -, hmin, rfl⟩
        have hk : k = 0 := by
          by_contra hk
          exact hmin 0 (Nat.pos_of_ne_zero hk) h
        exact ⟨hk, rfl⟩
    · simp only [bind_eq_ok, pure_eq_ok, ih]
      constructor
      · rintro ⟨j, t, ⟨hj, hz, hmin, rfl⟩, rfl, rfl⟩
        refine ⟨by omega, by rw [← hz]; congr 1; omega, fun i hi => ?_, rfl⟩
        cases i with
        | zero => exact h
        | succ i =>
          have := hmin i (by omega)
          rwa [Nat.add_assoc, Nat.add_comm 1 i] at this
      · rintro ⟨hk, hz, hmin, rfl⟩
        cases k with
        | zero => exact absurd hz h
        | succ k =>
          refine ⟨k, _, ⟨by omega, by rw [← hz]; congr 1; omega, fun i hi => ?_, rfl⟩, rfl, rfl⟩
          have := hmin (i + 1) (by omega)
          rwa [Nat.add_comm i 1, ← Nat.add_assoc] at this

theorem NameAt.text_of_zero (h : NameAt pkt pos text size) (hz : pkt[pos]? = some 0) : text = [] := by
  cases h with
  | root => rfl
  | label h h0 =>
    cases hz.symm.trans h
    exact absurd rfl h0
  | pointer h hlen =>
    cases hz.symm.trans h
    exact absurd (by decide) hlen

theorem write_dotted {label : List Byte} (hn : label.length = n) (text : List Byte) :
    write (write (write f name label) (name + n) [0x2e]) (name + n + 1) text =
      write f name (label ++ 0x2e :: text) := by
  have hplace : name + n + 1 = name + (label ++ [0x2e]).length := by
    rw [List.length_append, hn]
    rfl
  rw [hplace, ← hn, Net.write_write, Net.write_write, List.append_assoc]
  rfl

theorem write_zero_of_eq (h : g e = 0) : write g e [0] = g := by
  rw [← Net.update_eq_write, ← h, Function.update_eq_self]

/-- What the loop returns with comes from a name, whose text it has written but for the zero behind it. -/
def LoopSpec (pkt : List Byte) (cap pos name : Nat) (f : Nat → Byte) (r : Nat × Nat) (g : Nat → Byte) : Prop :=
  ∃ text size, NameAt pkt pos text size ∧ r.1 = pos + size ∧ name + text.length < cap ∧
    write g r.2 [0] = write f name (text ++ [0])

def NameSpec (pkt : List Byte) (cap pos name : Nat) (f : Nat → Byte) (size : Nat) (g : Nat → Byte) : Prop :=
  ∃ text, NameAt pkt pos text size ∧ name + text.length < cap ∧ g = write f name (text ++ [0])

theorem resolveLoop_sound_succ {r : Nat × Nat}
    (ihl : ∀ {pos name f g len r}, resolveLoop pkt cap fuel (pos + 1) name len f = .ok (r, g) →
      pkt[pos]? = some len → r.2 < cap → LoopSpec pkt cap pos name f r g)
    (ihn : ∀ {pos name f g size}, resolveName pkt cap fuel pos name f = .ok (size, g) →
      NameSpec pkt cap pos name f size g)
    (h : resolveLoop pkt cap (fuel + 1) (pos + 1) name len f = .ok (r, g)) (hlen : pkt[pos]? = some len)
    (hr : r.2 < cap) : LoopSpec pkt cap pos name f r g := by
  rw [resolveLoop] at h
  split_ifs at h with h0 h63
  · obtain ⟨rfl, rfl⟩ := pure_eq_ok.mp h
    subst h0
    exact ⟨[], 1, .root hlen, rfl, hr, rfl⟩
  · simp only [bind_eq_ok, copyLabel_eq_ok, readByte_eq_ok] at h
    obtain ⟨-, t, ⟨hll, hroom, rfl⟩, next, t, ⟨hn, rfl⟩, h⟩ := h
    by_cases hz : next = 0
    · rw [if_neg (by simpa using hz)] at h
      obtain ⟨text, size, hname, hd, hb, hw⟩ := ihl h hn hr
      obtain rfl : text = [] := hname.text_of_zero (hz ▸ hn)
      refine ⟨_, _, .label hlen h0 h63 rfl hn hname, ?_, ?_, ?_⟩
      · rw [hd]
        omega
      · rw [dotted, if_pos hz, append_nil, hll]
        exact hb
      · rw [hw, dotted, if_pos hz, append_nil, ← Net.write_write name _ [0], hll]
        rfl
    · rw [if_pos hz] at h
      simp only [bind_eq_ok, writeByte_eq_ok] at h
      obtain ⟨-, t, ⟨hdot, rfl⟩, h⟩ := h
      obtain ⟨text, size, hname, hd, hb, hw⟩ := ihl h hn hr
      refine ⟨_, _, .label hlen h0 h63 rfl hn hname, ?_, ?_, ?_⟩
      · rw [hd]
        omega
      · rw [dotted, if_neg hz, List.length_append, hll, List.length_cons]
        omega
      · rw [hw, dotted, if_neg hz, write_dotted hll, List.append_assoc]
        rfl
  · simp only [bind_eq_ok, readByte_eq_ok, discard_eq_ok, nameLength_eq_ok, pure_eq_ok] at h
    obtain ⟨low, t, ⟨hlow, rfl⟩, -, t', ⟨size, hcall⟩, n, t'', ⟨hn, hz, -, rfl⟩, rfl, rfl⟩ := h
    obtain ⟨text, hname, hb, rfl⟩ := ihn hcall
    exact ⟨text, 2, .pointer hlen h63 hlow hname, rfl, hb, write_zero_of_eq hz⟩

theorem resolve_sound (fuel : Nat) :
    (∀ {pos name f g len r}, resolveLoop pkt cap fuel (pos + 1) name len f = .ok (r, g) →
      pkt[pos]? = some len → r.2 < cap → LoopSpec pkt cap pos name f r g) ∧
    (∀ {pos name f g size}, resolveName pkt cap fuel pos name f = .ok (size, g) →
      NameSpec pkt cap pos name f size g) := by
  induction fuel with
  | zero =>
    constructor
    · intro pos name f g len r h
      cases h
    · intro pos name f g size h
      cases h
  | succ fuel ih =>
    refine ⟨fun h hlen hr => resolveLoop_sound_succ ih.1 ih.2 h hlen hr, fun {pos name f g size} h => ?_⟩
    rw [resolveName] at h
    simp only [bind_eq_ok, readByte_eq_ok, writeByte_eq_ok, pure_eq_ok] at h
    obtain ⟨len, t, ⟨hlen, rfl⟩, r, t', hloop, -, t'', ⟨hr, rfl⟩, hsize, rfl⟩ := h
    obtain ⟨text, size', hname, hd, hb, hw⟩ := ih.1 hloop hlen hr
    refine ⟨text, ?_, hb, hw⟩
    rw [hsize, hd, Nat.add_sub_cancel_left]
    exact hname

theorem NameAt.byte (h : NameAt pkt pos text size) : ∃ len, pkt[pos]? = some len := by
  cases h with
  | root h | label h | pointer h => exact ⟨_, h⟩

theorem exists_nameLength (hk : name + k < cap) (hz : g (name + k) = 0) :
    ∃ n, nameLength (cap - name) name g = .ok (n, g) ∧ g (name + n) = 0 ∧ n ≤ k := by
  have hex : ∃ n, g (name + n) = 0 := ⟨k, hz⟩
  have hle : Nat.find hex ≤ k := Nat.find_min' hex hz
  refine ⟨Nat.find hex, nameLength_eq_ok.mpr ⟨by omega, Nat.find_spec hex, ?_, rfl⟩, Nat.find_spec hex, hle⟩
  intro i hi
  exact Nat.find_min hex hi

theorem resolveName_of_loop (hlen : pkt[pos]? = some len)
    (h : resolveLoop pkt cap fuel (pos + 1) name len f = .ok ((pos + size, e), g)) (he : e < cap) :
    resolveName pkt cap (fuel + 1) pos name f = .ok (size, write g e [0]) := by
  rw [resolveName]
  simp only [bind_eq_ok, readByte_eq_ok, writeByte_eq_ok, pure_eq_ok]
  exact ⟨len, f, ⟨hlen, rfl⟩, _, _, h, (), _, ⟨he, rfl⟩, by rw [Nat.add_sub_cancel_left], rfl⟩

theorem NameAt.loop_returns (h : NameAt pkt pos text size) :
    ∃ n, ∀ fuel ≥ n, ∀ {name f len}, pkt[pos]? = some len → name + text.length < cap →
      ∃ e g, resolveLoop pkt cap fuel (pos + 1) name len f = .ok ((pos + size, e), g) ∧ e < cap ∧
        write g e [0] = write f name (text ++ [0]) := by
  induction h with
  | root h =>
    refine ⟨1, fun fuel hf name f len hlen hb => ?_⟩
    obtain ⟨k, rfl⟩ := Nat.exists_eq_add_of_le' hf
    cases h.symm.trans hlen
    exact ⟨name, f, rfl, hb, rfl⟩
  | @label pos size len next text label h h0 h63 hl hn hrest ih =>
    obtain ⟨n, ih⟩ := ih
    refine ⟨n + 1, fun fuel hf name f len' hlen hb => ?_⟩
    obtain ⟨k, rfl⟩ := Nat.exists_eq_add_of_le' (Nat.le_trans (Nat.le_add_left 1 n) hf)
    cases h.symm.trans hlen
    have hll : label.length = len.toNat := by
      obtain ⟨hin, -⟩ := List.getElem?_eq_some_iff.mp hn
      rw [← hl, length_take, length_drop]
      omega
    rw [length_append, hll] at hb
    rw [resolveLoop, if_neg h0, if_pos h63]
    simp only [bind_eq_ok, copyLabel_eq_ok, readByte_eq_ok, hl]
    by_cases hz : next = 0
    · obtain rfl : text = [] := hrest.text_of_zero (hz ▸ hn)
      rw [dotted, if_pos hz] at hb ⊢
      obtain ⟨e, g, hloop, he, hw⟩ := @ih k (by omega) (name + len.toNat) (write f name label) next hn hb
      refine ⟨e, g, ⟨(), _, ⟨hll, Or.inr (by omega), rfl⟩, next, _, ⟨hn, rfl⟩, ?_⟩, he, ?_⟩
      · rw [if_neg (not_not_intro hz), hloop, Nat.add_assoc pos, Nat.add_assoc pos, Nat.add_assoc 1]
      · rw [hw, ← hll, Net.write_write, append_nil]
        rfl
    · rw [dotted, if_neg hz] at hb ⊢
      rw [length_cons] at hb
      obtain ⟨e, g, hloop, he, hw⟩ := @ih k (by omega) (name + len.toNat + 1)
        (write (write f name label) (name + len.toNat) [0x2e]) next hn (by omega)
      refine ⟨e, g, ⟨(), _, ⟨hll, Or.inr (by omega), rfl⟩, next, _, ⟨hn, rfl⟩, ?_⟩, he, ?_⟩
      · rw [if_pos hz, bind_ok (a := ()) (writeByte_eq_ok.mpr ⟨by omega, rfl⟩), hloop, Nat.add_assoc pos,
          Nat.add_assoc pos, Nat.add_assoc 1]
      · rw [hw, write_dotted hll, List.append_assoc]
        rfl
  | @pointer pos size len low text h hlen hlow hto ih =>
    obtain ⟨n, ih⟩ := ih
    refine ⟨n + 2, fun fuel hf name f len' hlen' hb => ?_⟩
    obtain ⟨k, rfl⟩ := Nat.exists_eq_add_of_le' (Nat.le_trans (Nat.le_add_left 2 n) hf)
    cases h.symm.trans hlen'
    obtain ⟨first, hfirst⟩ := hto.byte
    obtain ⟨e, g, hloop, he, hw⟩ := @ih k (by omega) name f first hfirst hb
    have hcall := resolveName_of_loop hfirst hloop he
    have hz : write f name (text ++ [0]) (name + text.length) = 0 := by
      rw [Net.write_add (by simp), getElem_append_right (Nat.le_refl _)]
      simp
    obtain ⟨m, hm, hmz, hmle⟩ := exists_nameLength hb hz
    rw [hw] at hcall
    refine ⟨name + m, write f name (text ++ [0]), ?_, by omega, write_zero_of_eq hmz⟩
    have h0 : len ≠ 0 := by
      rintro rfl
      exact hlen (by decide)
    rw [resolveLoop, if_neg h0, if_neg hlen]
    simp only [bind_eq_ok, readByte_eq_ok, discard_eq_ok, pure_eq_ok]
    exact ⟨low, f, ⟨hlow, rfl⟩, (), _, ⟨_, hcall⟩, m, _, hm, rfl, rfl⟩

theorem NameAt.returns (h : NameAt pkt pos text size) :
    ∃ n, ∀ fuel ≥ n, ∀ {name f}, name + text.length < cap →
      resolveName pkt cap fuel pos name f = .ok (size, write f name (text ++ [0])) := by
  obtain ⟨n, hn⟩ := h.loop_returns
  obtain ⟨len, hlen⟩ := h.byte
  refine ⟨n + 1, fun fuel hf name f hb => ?_⟩
  obtain ⟨k, rfl⟩ := Nat.exists_eq_add_of_le' (Nat.le_trans (Nat.le_add_left 1 n) hf)
  obtain ⟨e, g, hloop, he, hw⟩ := @hn k (by omega) name f len hlen hb
  rw [← hw]
  exact resolveName_of_loop hlen hloop he

def dotJoin (labels : List (List Byte)) : List Byte := [0x2e].intercalate labels

/-- A well-formed name, its labels and the bytes it takes: labels without zero bytes, ended by a zero byte or a
pointer back to a name with a label. -/
inductive WellFormed (pkt : List Byte) : Nat → List (List Byte) → Nat → Prop
  | root {pos : Nat} (h : pkt[pos]? = some 0) : WellFormed pkt pos [] 1
  | label {pos size : Nat} {label : List Byte} {labels : List (List Byte)} (h1 : 1 ≤ label.length)
      (h63 : label.length ≤ 63) (h : pkt[pos]? = some (.ofNat 8 label.length))
      (hl : (pkt.drop (pos + 1)).take label.length = label) (hz : ∀ b ∈ label, b ≠ 0)
      (hrest : WellFormed pkt (pos + 1 + label.length) labels size) :
      WellFormed pkt pos (label :: labels) (1 + label.length + size)
  | pointer {pos size : Nat} {len low : Byte} {labels : List (List Byte)} (h : pkt[pos]? = some len)
      (hlen : 0xc0 ≤ len) (hlow : pkt[pos + 1]? = some low) (hback : pointerOffset len low < pos)
      (hto : WellFormed pkt (pointerOffset len low) labels size) (hne : labels ≠ []) : WellFormed pkt pos labels 2

theorem toNat_lengthByte (h : n ≤ 63) : (BitVec.ofNat 8 n).toNat = n := by
  rw [toNat_ofNat, Nat.mod_eq_of_lt (by omega)]

theorem lengthByte_ne_zero (h1 : 1 ≤ n) (h : n ≤ 63) : BitVec.ofNat 8 n ≠ 0 := by
  intro hz
  have hn := toNat_lengthByte h
  rw [hz] at hn
  exact absurd hn.symm (Nat.ne_of_gt h1)

theorem lengthByte_le (h : n ≤ 63) : BitVec.ofNat 8 n ≤ maxLabelLen := by
  rw [le_def, toNat_lengthByte h]
  exact h

theorem WellFormed.next (h : WellFormed pkt pos labels size) :
    ∃ next, pkt[pos]? = some next ∧ (next = 0 ↔ labels = []) := by
  cases h with
  | root h => exact ⟨0, h, by simp⟩
  | label h1 h63 h =>
    refine ⟨_, h, ?_⟩
    simp only [reduceCtorEq, iff_false]
    exact lengthByte_ne_zero h1 h63
  | pointer h hlen _ _ _ hne =>
    refine ⟨_, h, ?_⟩
    simp only [hne, iff_false]
    rintro rfl
    exact absurd hlen (by decide)

theorem WellFormed.nameAt (h : WellFormed pkt pos labels size) : NameAt pkt pos (dotJoin labels) size := by
  induction h with
  | root h => exact .root h
  | @label pos size label labels h1 h63 h hl hz hrest ih =>
    have hlen := toNat_lengthByte h63
    obtain ⟨next, hn, hnext⟩ := hrest.next
    have hjoin : dotJoin (label :: labels) = label ++ dotted next (dotJoin labels) := by
      cases labels with
      | nil =>
        rw [dotted, if_pos (hnext.mpr rfl), List.append_nil]
        exact List.intercalate_singleton
      | cons l ls =>
        have hne : next ≠ 0 := fun hz => List.cons_ne_nil l ls (hnext.mp hz)
        rw [dotted, if_neg hne, dotJoin, List.intercalate_cons_cons, List.append_assoc]
        rfl
    rw [← hlen] at hn hrest ih
    have hname := NameAt.label h (lengthByte_ne_zero h1 h63) (lengthByte_le h63) rfl hn ih
    rwa [hlen, hl, ← hjoin] at hname
  | pointer h hlen hlow hback hto hne ih =>
    refine .pointer h (fun h63 => ?_) hlow ih
    exact absurd (BitVec.le_trans hlen h63) (by decide)

/-- Both decoders write the text of a well-formed name that fits the buffer, return its size, and leave the rest
of the buffer alone. -/
theorem resolve_name_decodes {labels : List (List Byte)} (h : WellFormed pkt pos labels size)
    (hroom : name + (dotJoin labels).length < cap) :
    ∃ n, ∀ fuel ≥ n, ∀ f,
      Dns.resolveName pkt cap fuel pos name f = .ok (size, write f name (dotJoin labels ++ [0])) ∧
      Userlib.resolveName pkt cap fuel pos name f = .ok (size, write f name (dotJoin labels ++ [0])) := by
  obtain ⟨n, hn⟩ := h.nameAt.returns
  exact ⟨n, fun fuel hf f => ⟨hn fuel hf hroom, hn fuel hf hroom⟩⟩

/-- Three names that share their ends: `a`, `b.a` and, behind a pointer to the second, `c.b.a`. -/
def sharedNames : List Byte := [1, 0x61, 0, 1, 0x62, 0xc0, 0, 1, 0x63, 0xc0, 3]

theorem sharedNames_wellFormed : WellFormed sharedNames 7 [[0x63], [0x62], [0x61]] 4 := by
  have ha : WellFormed sharedNames 0 [[0x61]] 3 := .label (by decide) (by decide) rfl rfl (by decide) (.root rfl)
  have hb : WellFormed sharedNames 3 [[0x62], [0x61]] 4 :=
    .label (by decide) (by decide) rfl rfl (by decide) (.pointer rfl (by decide) rfl (by decide) ha (by decide))
  exact .label (by decide) (by decide) rfl rfl (by decide) (.pointer rfl (by decide) rfl (by decide) hb (by decide))

theorem resolve_name_decodes_shared : ∃ n, ∀ fuel ≥ n, ∀ f,
    Dns.resolveName sharedNames 512 fuel 7 0 f = .ok (4, write f 0 [0x63, 0x2e, 0x62, 0x2e, 0x61, 0]) ∧
    Userlib.resolveName sharedNames 512 fuel 7 0 f = .ok (4, write f 0 [0x63, 0x2e, 0x62, 0x2e, 0x61, 0]) :=
  resolve_name_decodes sharedNames_wellFormed (by decide)

end

end BabyOS
