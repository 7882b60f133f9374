import BabyOS.DnsName

open List

namespace BabyOS

def maxDnsPacketSize : Nat := 512
def rrTypeA : Half := 1
def rrTypeCname : Half := 5
def invalidIp : Word := 0xffffffff

section

variable (pkt : List Byte)

def readHalf (i : Nat) : DnsProg Half := do
  let a ← readByte pkt i
  let b ← readByte pkt (i + 1)
  pure (b ++ a)

def readWord (i : Nat) : DnsProg Word := do
  let a ← readHalf pkt i
  let b ← readHalf pkt (i + 2)
  pure (b ++ a)

def clearName : DnsProg Unit := set fun _ : Nat => (0 : Byte)

def cString (f : Nat → Byte) : List Byte := (Net.bytes f maxDnsPacketSize).takeWhile (· ≠ 0)

def queriesWith (look : Nat → DnsProg Unit) (fuel : Nat) : Nat → Nat → DnsProg Nat
  | 0, p => pure p
  | n + 1, p => do
    clearName
    let k ← resolveName pkt maxDnsPacketSize fuel p 0
    look (p + k)
    queriesWith look fuel n (p + k + 4)

namespace Dns

def readQuery (q : Nat) : DnsProg Unit := do
  discard (readHalf pkt q)
  discard (readHalf pkt (q + 2))

def queries : Nat → Nat → Nat → DnsProg Nat := queriesWith pkt (readQuery pkt)

def readData (fuel : Nat) (ansType : Half) (p : Nat) : DnsProg Unit :=
  if ntohs ansType = rrTypeA then discard (readWord pkt p)
  else if ntohs ansType = rrTypeCname then do
    clearName
    discard (resolveName pkt maxDnsPacketSize fuel p 0)
  else pure ()

def answers (fuel : Nat) : Nat → Nat → DnsProg Unit
  | 0, _ => pure ()
  | n + 1, p => do
    clearName
    let k ← resolveName pkt maxDnsPacketSize fuel p 0
    let ansType ← readHalf pkt (p + k)
    discard (readHalf pkt (p + k + 2))
    discard (readWord pkt (p + k + 4))
    let dataLen ← readHalf pkt (p + k + 8)
    readData pkt fuel ansType (p + k + 10)
    answers fuel n (p + k + 10 + (ntohs dataLen).toNat)

def resolve (fuel : Nat) : DnsProg Int := do
  let queryCount ← readHalf pkt 4
  let answerCount ← readHalf pkt 6
  discard (readHalf pkt 0)
  discard (readHalf pkt 2)
  let p ← queries pkt fuel (ntohs queryCount).toNat 12
  answers pkt fuel (ntohs answerCount).toNat p
  pure 0

end Dns

namespace Userlib

/-- The loop of `dns_resolve` over the queries, whose types and classes it does not look at. -/
def queries : Nat → Nat → Nat → DnsProg Nat := queriesWith pkt fun _ => pure ()

/-- An alias takes the place of the string in `dest_name`. -/
def followAlias (fuel : Nat) (ansType : Half) (dest : List Byte) (p : Nat) : DnsProg (List Byte) :=
  if ntohs ansType = rrTypeCname then do
    clearName
    discard (resolveName pkt maxDnsPacketSize fuel p 0)
    let name ← get
    pure (cString name)
  else pure dest

def answers (fuel : Nat) : Nat → List Byte → Nat → DnsProg Word
  | 0, _, _ => pure invalidIp
  | n + 1, dest, p => do
    clearName
    let k ← resolveName pkt maxDnsPacketSize fuel p 0
    let name ← get
    let ansType ← readHalf pkt (p + k)
    if ntohs ansType = rrTypeA ∧ dest = cString name then do
      let ip ← readWord pkt (p + k + 10)
      pure (ntohl ip)
    else do
      let dest ← followAlias pkt fuel ansType dest (p + k + 10)
      let dataLen ← readHalf pkt (p + k + 8)
      answers fuel n dest (p + k + 10 + (ntohs dataLen).toNat)

/-- `dns_resolve`; the name that is looked for is first copied to a buffer of its own. -/
def dnsResolve (dest : List Byte) (fuel : Nat) : DnsProg Word := do
  let queryCount ← readHalf pkt 4
  let answerCount ← readHalf pkt 6
  if dest.length < maxDnsPacketSize then do
    let p ← queries pkt fuel (ntohs queryCount).toNat 12
    answers pkt fuel (ntohs answerCount).toNat dest p
  else throw .write

end Userlib

def halfAt (i : Nat) : Half := getHalf (fun j => pkt.getD j 0) i

/-- A name that the buffers have room for stands at a position and takes some bytes. -/
def NameFits (p k : Nat) : Prop := ∃ text, NameAt pkt p text k ∧ text.length < maxDnsPacketSize

/-- Some queries from a position up to another, with so many bytes of each behind its name in the packet. -/
def QueriesAt (look : Nat) : Nat → Nat → Nat → Prop
  | 0, p, stop => stop = p
  | n + 1, p, stop => ∃ k, NameFits pkt p k ∧ p + k + look ≤ pkt.length ∧ QueriesAt look n (p + k + 4) stop

def AnswersAt : Nat → Nat → Prop
  | 0, _ => True
  | n + 1, p => ∃ k, NameFits pkt p k ∧ p + k + 10 ≤ pkt.length ∧
    (ntohs (halfAt pkt (p + k)) = rrTypeA → p + k + 14 ≤ pkt.length) ∧
    (ntohs (halfAt pkt (p + k)) = rrTypeCname → ∃ j, NameFits pkt (p + k + 10) j) ∧
    AnswersAt n (p + k + 10 + (ntohs (halfAt pkt (p + k + 8))).toNat)

/-- The name that a search goes on with behind an answer of some type, whose data stands at a position. -/
def Follows (ansType : Half) (dest : List Byte) (p : Nat) (next : List Byte) : Prop :=
  if ntohs ansType = rrTypeCname then
    ∃ j text, NameAt pkt p text j ∧ text.length < maxDnsPacketSize ∧ next = text.takeWhile (· ≠ 0)
  else next = dest

/-- The answers as far as a search for a name looks at them: it ends at an address of the name, and goes on with
another name behind an alias. -/
def SearchAt : Nat → List Byte → Nat → Prop
  | 0, _, _ => True
  | n + 1, dest, p => ∃ k text, NameAt pkt p text k ∧ text.length < maxDnsPacketSize ∧
    if ntohs (halfAt pkt (p + k)) = rrTypeA ∧ dest = text.takeWhile (· ≠ 0) then p + k + 14 ≤ pkt.length
    else p + k + 10 ≤ pkt.length ∧ ∃ next, Follows pkt (halfAt pkt (p + k)) dest (p + k + 10) next ∧
      SearchAt n next (p + k + 10 + (ntohs (halfAt pkt (p + k + 8))).toNat)

/-- A message whose names and records stand in the packet, as the kernel looks at it. -/
def MessageAt : Prop :=
  8 ≤ pkt.length ∧ ∃ p, QueriesAt pkt 4 (ntohs (halfAt pkt 4)).toNat 12 p ∧
    AnswersAt pkt (ntohs (halfAt pkt 6)).toNat p

/-- A message in which a name can be looked for without a look behind the packet. -/
def SearchableAt (dest : List Byte) : Prop :=
  8 ≤ pkt.length ∧ dest.length < maxDnsPacketSize ∧ ∃ p, QueriesAt pkt 0 (ntohs (halfAt pkt 4)).toNat 12 p ∧
    SearchAt pkt (ntohs (halfAt pkt 6)).toNat dest p

end

/-- The decoder returns, whatever is in the buffer, and reads and writes only where it may. -/
def Safe {α : Type} (m : Nat → DnsProg α) : Prop := ∀ f, ∃ fuel r, m fuel f = .ok r

section

open Net (write)

variable {pkt : List Byte} {f g : Nat → Byte} {n p k : Nat}

variable {i fuel r stop : Nat} {text : List Byte}

theorem readHalf_eq_ok {w : Half} :
    readHalf pkt i f = .ok (w, g) ↔ i + 2 ≤ pkt.length ∧ w = halfAt pkt i ∧ g = f := by
  unfold readHalf
  simp only [bind_eq_ok, readByte_eq_ok, pure_eq_ok]
  constructor
  · rintro ⟨a, t, ⟨ha, rfl⟩, b, t, ⟨hb, rfl⟩, rfl, rfl⟩
    obtain ⟨hi, -⟩ := List.getElem?_eq_some_iff.mp hb
    refine ⟨by omega, ?_, rfl⟩
    rw [halfAt, getHalf, getD_eq_getElem?_getD, getD_eq_getElem?_getD, ha, hb]
    rfl
  · rintro ⟨hi, rfl, rfl⟩
    refine ⟨_, _, ⟨List.getElem?_eq_getElem (by omega), rfl⟩, _, _, ⟨List.getElem?_eq_getElem (by omega), rfl⟩, ?_, rfl⟩
    rw [halfAt, getHalf, getD_eq_getElem, getD_eq_getElem]

theorem readWord_eq_ok {w : Word} :
    readWord pkt i f = .ok (w, g) ↔ i + 4 ≤ pkt.length ∧ w = halfAt pkt (i + 2) ++ halfAt pkt i ∧ g = f := by
  unfold readWord
  simp only [bind_eq_ok, readHalf_eq_ok, pure_eq_ok]
  constructor
  · rintro ⟨a, t, ⟨-, rfl, rfl⟩, b, t, ⟨hi, rfl, rfl⟩, rfl, rfl⟩
    exact ⟨hi, rfl, rfl⟩
  · rintro ⟨hi, rfl, rfl⟩
    exact ⟨_, _, ⟨by omega, rfl, rfl⟩, _, _, ⟨hi, rfl, rfl⟩, rfl, rfl⟩

theorem clearName_eq_ok {u : Unit} : clearName f = .ok (u, g) ↔ g = fun _ => 0 := by
  constructor
  · intro h
    cases h
    rfl
  · rintro rfl
    rfl

theorem NameAt.size_le (h : NameAt pkt p text k) : p + k ≤ pkt.length := by
  induction h with
  | root h =>
    obtain ⟨hi, -⟩ := List.getElem?_eq_some_iff.mp h
    omega
  | label _ _ _ _ _ _ ih => omega
  | pointer _ _ hlow =>
    obtain ⟨hi, -⟩ := List.getElem?_eq_some_iff.mp hlow
    omega

theorem takeWhile_append_zero (text rest : List Byte) :
    (text ++ 0 :: rest).takeWhile (· ≠ 0) = text.takeWhile (· ≠ 0) := by
  induction text with
  | nil => rfl
  | cons b text ih =>
    rw [cons_append, takeWhile_cons, takeWhile_cons, ih]

theorem write_cleared (text : List Byte) (i : Nat) : write (fun _ => 0) 0 (text ++ [0]) i = text.getD i 0 := by
  rw [write, Nat.sub_zero, Nat.zero_add]
  rcases Nat.lt_trichotomy i text.length with hi | rfl | hi
  · rw [if_pos (by simp; omega), getD_append _ _ _ _ hi]
  · simp
  · rw [if_neg (by simp; omega), getD_eq_default _ _ (by omega)]

theorem cString_text (h : text.length < maxDnsPacketSize) :
    cString (write (fun _ => 0) 0 (text ++ [0])) = text.takeWhile (· ≠ 0) := by
  have hbytes : Net.bytes (write (fun _ => 0) 0 (text ++ [0])) maxDnsPacketSize =
      text ++ 0 :: List.replicate (maxDnsPacketSize - 1 - text.length) 0 := by
    apply ext_getElem
    · rw [Net.length_bytes, length_append, length_cons, length_replicate]
      omega
    · intro i hi _
      rw [Net.getElem_bytes, write_cleared]
      by_cases hin : i < text.length
      · rw [getD_eq_getElem _ _ hin, getElem_append_left hin]
      · rw [getD_eq_default _ _ (Nat.le_of_not_lt hin), getElem_append_right (Nat.le_of_not_lt hin)]
        simp [getElem_cons]
  rw [cString, hbytes, takeWhile_append_zero]

theorem resolveName_fits (h : resolveName pkt maxDnsPacketSize fuel p 0 f = .ok (k, g)) :
    ∃ text, NameAt pkt p text k ∧ text.length < maxDnsPacketSize ∧ g = write f 0 (text ++ [0]) := by
  obtain ⟨text, hat, hroom, hg⟩ := (resolve_sound fuel).2 h
  exact ⟨text, hat, by omega, hg⟩

theorem NameAt.fits (h : NameAt pkt p text k) (hroom : text.length < maxDnsPacketSize) :
    ∃ m, ∀ fuel ≥ m, ∀ f, resolveName pkt maxDnsPacketSize fuel p 0 f = .ok (k, write f 0 (text ++ [0])) := by
  obtain ⟨m, hm⟩ := h.returns
  exact ⟨m, fun fuel hf f => hm fuel hf (by omega)⟩

theorem queriesWith_sound {look : Nat → DnsProg Unit}
    (hlook : ∀ q f u g, look q f = .ok (u, g) → q ≤ pkt.length → q + r ≤ pkt.length)
    (h : queriesWith pkt look fuel n p f = .ok (stop, g)) : QueriesAt pkt r n p stop := by
  induction n generalizing p f with
  | zero => exact (pure_eq_ok.mp h).1
  | succ n ih =>
    rw [queriesWith] at h
    simp only [bind_eq_ok] at h
    obtain ⟨-, t, -, k, t1, hname, u, t2, hread, h⟩ := h
    obtain ⟨text, hat, hroom, -⟩ := resolveName_fits hname
    exact ⟨k, ⟨text, hat, hroom⟩, hlook _ _ _ _ hread hat.size_le, ih h⟩

theorem QueriesAt.returns (look : Nat → DnsProg Unit)
    (hlook : ∀ q f, q + r ≤ pkt.length → look q f = .ok ((), f)) (h : QueriesAt pkt r n p stop) :
    ∃ m, ∀ fuel ≥ m, ∀ f, ∃ g, queriesWith pkt look fuel n p f = .ok (stop, g) := by
  induction n generalizing p with
  | zero =>
    refine ⟨0, fun fuel _ f => ⟨f, ?_⟩⟩
    rw [queriesWith, pure_eq_ok]
    exact ⟨h, rfl⟩
  | succ n ih =>
    obtain ⟨k, ⟨text, hat, hroom⟩, hin, hrest⟩ := h
    obtain ⟨m1, h1⟩ := hat.fits hroom
    obtain ⟨m2, h2⟩ := ih hrest
    refine ⟨max m1 m2, fun fuel hf f => ?_⟩
    obtain ⟨g, hg⟩ := h2 fuel (by omega) (write (fun _ => 0) 0 (text ++ [0]))
    refine ⟨g, ?_⟩
    rw [queriesWith, bind_ok (a := ()) (clearName_eq_ok.mpr rfl), bind_ok (h1 fuel (by omega) _),
      bind_ok (hlook _ _ hin), hg]

namespace Dns

variable {u : Unit} {ansType : Half}

theorem readQuery_eq_ok {q : Nat} : readQuery pkt q f = .ok (u, g) ↔ q + 4 ≤ pkt.length ∧ g = f := by
  unfold readQuery
  simp only [bind_eq_ok, discard_eq_ok, readHalf_eq_ok]
  constructor
  · rintro ⟨-, t, ⟨a, -, -, rfl⟩, b, hq, -, rfl⟩
    exact ⟨hq, rfl⟩
  · rintro ⟨hq, rfl⟩
    exact ⟨(), _, ⟨_, by omega, rfl, rfl⟩, _, hq, rfl, rfl⟩

/-- What the data of an answer must be for the kernel to look at it. -/
def DataFits (pkt : List Byte) (ansType : Half) (p : Nat) : Prop :=
  (ntohs ansType = rrTypeA → p + 4 ≤ pkt.length) ∧ (ntohs ansType = rrTypeCname → ∃ j, NameFits pkt p j)

theorem readData_sound (h : readData pkt fuel ansType p f = .ok (u, g)) : DataFits pkt ansType p := by
  unfold readData at h
  split_ifs at h with hA hC
  · obtain ⟨w, hw⟩ := discard_eq_ok.mp h
    refine ⟨fun _ => (readWord_eq_ok.mp hw).1, fun hC => ?_⟩
    rw [hA] at hC
    exact absurd hC (by decide)
  · simp only [bind_eq_ok, discard_eq_ok] at h
    obtain ⟨-, t, -, j, hname⟩ := h
    obtain ⟨text, hat, hroom, -⟩ := resolveName_fits hname
    exact ⟨fun h => absurd h hA, fun _ => ⟨j, text, hat, hroom⟩⟩
  · exact ⟨fun h => absurd h hA, fun h => absurd h hC⟩

theorem DataFits.returns (h : DataFits pkt ansType p) :
    ∃ m, ∀ fuel ≥ m, ∀ f, ∃ g, readData pkt fuel ansType p f = .ok ((), g) := by
  unfold readData
  split_ifs with hA hC
  · exact ⟨0, fun fuel _ f => ⟨f, discard_eq_ok.mpr ⟨_, readWord_eq_ok.mpr ⟨h.1 hA, rfl, rfl⟩⟩⟩⟩
  · obtain ⟨j, text, hat, hroom⟩ := h.2 hC
    obtain ⟨m, hm⟩ := hat.fits hroom
    refine ⟨m, fun fuel hf f => ⟨write (fun _ => 0) 0 (text ++ [0]), ?_⟩⟩
    rw [bind_ok (a := ()) (clearName_eq_ok.mpr rfl)]
    exact discard_eq_ok.mpr ⟨j, hm fuel hf _⟩
  · exact ⟨0, fun fuel _ f => ⟨f, rfl⟩⟩

theorem answers_sound (h : answers pkt fuel n p f = .ok (u, g)) : AnswersAt pkt n p := by
  induction n generalizing p f with
  | zero => trivial
  | succ n ih =>
    rw [answers] at h
    simp only [bind_eq_ok, discard_eq_ok, readHalf_eq_ok] at h
    obtain ⟨-, t, -, k, t1, hname, ansType, t2, ⟨-, rfl, -⟩, -, t3, -, -, t4, -, dataLen, t5, ⟨hin, rfl, -⟩, v, t6,
      hdata, h⟩ := h
    obtain ⟨text, hat, hroom, -⟩ := resolveName_fits hname
    obtain ⟨hA, hC⟩ := readData_sound hdata
    exact ⟨k, ⟨text, hat, hroom⟩, by omega, hA, hC, ih h⟩

theorem answers_returns (h : AnswersAt pkt n p) :
    ∃ m, ∀ fuel ≥ m, ∀ f, ∃ g, answers pkt fuel n p f = .ok ((), g) := by
  induction n generalizing p with
  | zero => exact ⟨0, fun fuel _ f => ⟨f, rfl⟩⟩
  | succ n ih =>
    obtain ⟨k, ⟨text, hat, hroom⟩, hin, hA, hC, hrest⟩ := h
    obtain ⟨m1, h1⟩ := hat.fits hroom
    have hfits : DataFits pkt (halfAt pkt (p + k)) (p + k + 10) := ⟨hA, hC⟩
    obtain ⟨m2, h2⟩ := hfits.returns
    obtain ⟨m3, h3⟩ := ih hrest
    refine ⟨max m1 (max m2 m3), fun fuel hf f => ?_⟩
    obtain ⟨g2, hg2⟩ := h2 fuel (by omega) (write (fun _ => 0) 0 (text ++ [0]))
    obtain ⟨g3, hg3⟩ := h3 fuel (by omega) g2
    refine ⟨g3, ?_⟩
    rw [answers]
    simp only [bind_eq_ok, discard_eq_ok, readHalf_eq_ok, readWord_eq_ok]
    exact ⟨(), _, clearName_eq_ok.mpr rfl, k, _, h1 fuel (by omega) _, _, _, ⟨by omega, rfl, rfl⟩, (), _,
      ⟨_, by omega, rfl, rfl⟩, (), _, ⟨_, by omega, rfl, rfl⟩, _, _, ⟨by omega, rfl, rfl⟩, (), _, hg2, hg3⟩

theorem resolve_safe_iff : Safe (resolve pkt) ↔ MessageAt pkt := by
  constructor
  · intro h
    obtain ⟨fuel, r, hr⟩ := h fun _ => 0
    rw [resolve] at hr
    simp only [bind_eq_ok, discard_eq_ok, readHalf_eq_ok] at hr
    obtain ⟨qd, t, ⟨-, rfl, -⟩, an, t1, ⟨h8, rfl, -⟩, -, t2, -, -, t3, -, p, t4, hq, u, t5, ha, -⟩ := hr
    refine ⟨h8, p, queriesWith_sound (fun q f u g hread _ => ?_) hq, answers_sound ha⟩
    exact (readQuery_eq_ok.mp hread).1
  · rintro ⟨h8, p, hq, ha⟩ f
    obtain ⟨m1, h1⟩ := hq.returns (readQuery pkt) (fun q f hin => (readQuery_eq_ok (u := ())).mpr ⟨hin, rfl⟩)
    obtain ⟨m2, h2⟩ := answers_returns ha
    obtain ⟨g1, hg1⟩ := h1 (max m1 m2) (by omega) f
    obtain ⟨g2, hg2⟩ := h2 (max m1 m2) (by omega) g1
    refine ⟨max m1 m2, (0, g2), ?_⟩
    rw [resolve]
    simp only [bind_eq_ok, discard_eq_ok, readHalf_eq_ok]
    exact ⟨_, f, ⟨by omega, rfl, rfl⟩, _, f, ⟨by omega, rfl, rfl⟩, (), f, ⟨_, by omega, rfl, rfl⟩, (), f,
      ⟨_, by omega, rfl, rfl⟩, p, g1, hg1, (), g2, hg2, rfl⟩

end Dns

namespace Userlib

variable {ansType : Half} {dest next : List Byte}

theorem followAlias_sound
    (h : followAlias pkt fuel ansType dest p f = .ok (next, g)) : Follows pkt ansType dest p next := by
  unfold followAlias at h
  unfold Follows
  split_ifs at h ⊢ with hC
  · simp only [bind_eq_ok, discard_eq_ok, pure_eq_ok] at h
    obtain ⟨u, t, hclear, v, t1, ⟨j, hname⟩, t2, t3, hget, hnext, -⟩ := h
    cases hget
    obtain rfl := clearName_eq_ok.mp hclear
    obtain ⟨text, hat, hroom, rfl⟩ := resolveName_fits hname
    exact ⟨j, text, hat, hroom, hnext.trans (cString_text hroom)⟩
  · exact (pure_eq_ok.mp h).1

theorem followAlias_returns (h : Follows pkt ansType dest p next) :
    ∃ m, ∀ fuel ≥ m, ∀ f, ∃ g, followAlias pkt fuel ansType dest p f = .ok (next, g) := by
  unfold followAlias
  unfold Follows at h
  split_ifs at h ⊢ with hC
  · obtain ⟨j, text, hat, hroom, rfl⟩ := h
    obtain ⟨m, hm⟩ := hat.fits hroom
    refine ⟨m, fun fuel hf f => ⟨write (fun _ => 0) 0 (text ++ [0]), ?_⟩⟩
    simp only [bind_eq_ok, discard_eq_ok, pure_eq_ok]
    exact ⟨(), _, clearName_eq_ok.mpr rfl, (), _, ⟨j, hm fuel hf _⟩, _, _, rfl, (cString_text hroom).symm, rfl⟩
  · exact ⟨0, fun fuel _ f => ⟨f, pure_eq_ok.mpr ⟨h, rfl⟩⟩⟩

theorem answers_sound {ip : Word} (h : answers pkt fuel n dest p f = .ok (ip, g)) : SearchAt pkt n dest p := by
  induction n generalizing dest p f with
  | zero => trivial
  | succ n ih =>
    rw [answers] at h
    simp only [bind_eq_ok, readHalf_eq_ok] at h
    obtain ⟨u, t, hclear, k, t1, hname, t2, t3, hget, ansType, t4, ⟨hin, rfl, rfl⟩, h⟩ := h
    cases hget
    obtain rfl := clearName_eq_ok.mp hclear
    obtain ⟨text, hat, hroom, rfl⟩ := resolveName_fits hname
    rw [cString_text hroom] at h
    refine ⟨k, text, hat, hroom, ?_⟩
    split_ifs at h ⊢ with hA
    · obtain ⟨w, t5, hw, -⟩ := bind_eq_ok.mp h
      exact (readWord_eq_ok.mp hw).1
    · simp only [bind_eq_ok, readHalf_eq_ok] at h
      obtain ⟨next, t5, hfollow, dataLen, t6, ⟨hin', rfl, rfl⟩, h⟩ := h
      exact ⟨hin', next, followAlias_sound hfollow, ih h⟩

theorem answers_returns (h : SearchAt pkt n dest p) :
    ∃ m, ∀ fuel ≥ m, ∀ f, ∃ ip g, answers pkt fuel n dest p f = .ok (ip, g) := by
  induction n generalizing dest p with
  | zero => exact ⟨0, fun fuel _ f => ⟨_, f, rfl⟩⟩
  | succ n ih =>
    obtain ⟨k, text, hat, hroom, h⟩ := h
    obtain ⟨m1, h1⟩ := hat.fits hroom
    by_cases hA : ntohs (halfAt pkt (p + k)) = rrTypeA ∧ dest = text.takeWhile (· ≠ 0)
    · rw [if_pos hA] at h
      refine ⟨m1, fun fuel hf f =>
        ⟨ntohl (halfAt pkt (p + k + 10 + 2) ++ halfAt pkt (p + k + 10)), write (fun _ => 0) 0 (text ++ [0]), ?_⟩⟩
      rw [answers]
      simp only [bind_eq_ok, readHalf_eq_ok]
      refine ⟨(), _, clearName_eq_ok.mpr rfl, k, _, h1 fuel hf _, _, _, rfl, _, _, ⟨by omega, rfl, rfl⟩, ?_⟩
      rw [cString_text hroom, if_pos hA, bind_ok (readWord_eq_ok.mpr ⟨h, rfl, rfl⟩)]
      rfl
    · rw [if_neg hA] at h
      obtain ⟨hin, next, hfollow, hrest⟩ := h
      obtain ⟨m2, h2⟩ := followAlias_returns hfollow
      obtain ⟨m3, h3⟩ := ih hrest
      refine ⟨max m1 (max m2 m3), fun fuel hf f => ?_⟩
      obtain ⟨g2, hg2⟩ := h2 fuel (by omega) (write (fun _ => 0) 0 (text ++ [0]))
      obtain ⟨ip, g3, hg3⟩ := h3 fuel (by omega) g2
      refine ⟨ip, g3, ?_⟩
      rw [answers]
      simp only [bind_eq_ok, readHalf_eq_ok]
      refine ⟨(), _, clearName_eq_ok.mpr rfl, k, _, h1 fuel (by omega) _, _, _, rfl, _, _, ⟨by omega, rfl, rfl⟩, ?_⟩
      rw [cString_text hroom, if_neg hA]
      simp only [bind_eq_ok, readHalf_eq_ok]
      exact ⟨next, g2, hg2, _, _, ⟨by omega, rfl, rfl⟩, hg3⟩

theorem dnsResolve_safe_iff : Safe (dnsResolve pkt dest) ↔ SearchableAt pkt dest := by
  constructor
  · intro h
    obtain ⟨fuel, r, hr⟩ := h fun _ => 0
    rw [dnsResolve] at hr
    simp only [bind_eq_ok, readHalf_eq_ok] at hr
    obtain ⟨qd, t, ⟨-, rfl, -⟩, an, t1, ⟨h8, rfl, -⟩, hr⟩ := hr
    split_ifs at hr with hdest
    · obtain ⟨p, t2, hq, ha⟩ := bind_eq_ok.mp hr
      exact ⟨h8, hdest, p, queriesWith_sound (fun q f u g _ hq => hq) hq, answers_sound ha⟩
    · cases hr
  · rintro ⟨h8, hdest, p, hq, ha⟩ f
    obtain ⟨m1, h1⟩ := hq.returns (fun _ => pure ()) (fun q f _ => rfl)
    obtain ⟨m2, h2⟩ := answers_returns ha
    obtain ⟨g1, hg1⟩ := h1 (max m1 m2) (by omega) f
    obtain ⟨ip, g2, hg2⟩ := h2 (max m1 m2) (by omega) g1
    refine ⟨max m1 m2, (ip, g2), ?_⟩
    rw [dnsResolve]
    simp only [bind_eq_ok, readHalf_eq_ok]
    refine ⟨_, f, ⟨by omega, rfl, rfl⟩, _, f, ⟨by omega, rfl, rfl⟩, ?_⟩
    rw [if_pos hdest]
    exact bind_eq_ok.mpr ⟨p, g1, hg1, hg2⟩

end Userlib

theorem resolveName_safe_iff :
    Safe (fun fuel => resolveName pkt maxDnsPacketSize fuel p 0) ↔ ∃ k, NameFits pkt p k := by
  constructor
  · intro h
    obtain ⟨fuel, ⟨k, g⟩, hr⟩ := h fun _ => 0
    obtain ⟨text, hat, hroom, -⟩ := resolveName_fits hr
    exact ⟨k, text, hat, hroom⟩
  · rintro ⟨k, text, hat, hroom⟩ f
    obtain ⟨m, hm⟩ := hat.fits hroom
    exact ⟨m, _, hm m (Nat.le_refl m) f⟩

/-- A packet is decoded safely just where every name and record that its counts and lengths lead to stands in
it: a name ends by a zero byte or behind pointers that do not go round, and fits the buffer. -/
theorem dns_decoding_safe (pkt : List Byte) :
    (∀ p, (Safe (fun fuel => Dns.resolveName pkt maxDnsPacketSize fuel p 0) ↔ ∃ k, NameFits pkt p k) ∧
      (Safe (fun fuel => Userlib.resolveName pkt maxDnsPacketSize fuel p 0) ↔ ∃ k, NameFits pkt p k)) ∧
    (Safe (Dns.resolve pkt) ↔ MessageAt pkt) ∧
    ∀ dest, Safe (Userlib.dnsResolve pkt dest) ↔ SearchableAt pkt dest :=
  ⟨fun _ => ⟨resolveName_safe_iff, resolveName_safe_iff⟩, Dns.resolve_safe_iff, fun _ => Userlib.dnsResolve_safe_iff⟩

def selfPointer : List Byte := [0xc0, 0]

def bareHeader : List Byte := [0, 0, 0, 0, 0, 0, 0, 1, 0, 0, 0, 0]

theorem selfPointer_not_name (h : NameAt selfPointer p text k) : p ≠ 0 := by
  induction h with
  | root h =>
    rintro rfl
    exact absurd h (by decide)
  | label h _ hlen =>
    rintro rfl
    cases h
    exact absurd hlen (by decide)
  | pointer h _ hlow _ ih =>
    rintro rfl
    cases h
    cases hlow
    exact ih rfl

/-- `resolve_name` never comes back from a pointer to itself, and both decoders look behind a packet that counts
an answer it does not hold. -/
theorem dns_decoding_unsafe :
    ¬Safe (fun fuel => Dns.resolveName selfPointer maxDnsPacketSize fuel 0 0) ∧
    ¬Safe (fun fuel => Userlib.resolveName selfPointer maxDnsPacketSize fuel 0 0) ∧
    ¬Safe (Dns.resolve bareHeader) ∧ ¬Safe (Userlib.dnsResolve bareHeader []) := by
  have hself : ¬∃ k, NameFits selfPointer 0 k := by
    rintro ⟨k, text, hat, -⟩
    exact selfPointer_not_name hat rfl
  have hnone : ∀ {text k}, ¬NameAt bareHeader 12 text k := by
    intro text k hat
    obtain ⟨len, hlen⟩ := hat.byte
    cases hlen
  refine ⟨fun h => hself (resolveName_safe_iff.mp h), fun h => hself (resolveName_safe_iff.mp h), ?_, ?_⟩
  · intro h
    obtain ⟨-, p, hq, ha⟩ := Dns.resolve_safe_iff.mp h
    obtain rfl : p = 12 := hq
    obtain ⟨k, ⟨text, hat, -⟩, -⟩ := ha
    exact hnone hat
  · intro h
    obtain ⟨-, -, p, hq, ha⟩ := Userlib.dnsResolve_safe_iff.mp h
    obtain rfl : p = 12 := hq
    obtain ⟨k, text, hat, -⟩ := ha
    exact hnone hat

end

end BabyOS
