import BabyOS.DnsMessage
import Mathlib.Data.List.TakeWhile

namespace BabyOS

def rrClassIn : Half := 1

/-- A resource record; `addr` is read where it is an address and `target` where it is an alias. -/
structure DnsRecord where
  owner : List Byte
  type : Half
  cls : Half
  addr : Word
  target : List Byte

section

variable (pkt : List Byte)

def TextFits (text : List Byte) : Prop := text.length < maxDnsPacketSize ∧ ∀ c ∈ text, c ≠ 0

structure RecordAt (p : Nat) (r : DnsRecord) (k size : Nat) : Prop where
  name : NameAt pkt p r.owner k
  owner : TextFits r.owner
  inside : p + size ≤ pkt.length
  length : size = k + 10 + (ntohs (halfAt pkt (p + k + 8))).toNat
  type : r.type = ntohs (halfAt pkt (p + k))
  cls : r.cls = ntohs (halfAt pkt (p + k + 2))
  addr : r.type = rrTypeA → k + 14 ≤ size ∧
    r.addr = ntohl (halfAt pkt (p + k + 10 + 2) ++ halfAt pkt (p + k + 10))
  target : r.type = rrTypeCname → TextFits r.target ∧ ∃ j, NameAt pkt (p + k + 10) r.target j

def RecordsAt : List DnsRecord → Nat → Prop
  | [], _ => True
  | r :: recs, p => ∃ k size, RecordAt pkt p r k size ∧ RecordsAt recs (p + size)

def ResponseAt (recs : List DnsRecord) : Prop :=
  12 ≤ pkt.length ∧ ∃ p, QueriesAt pkt 4 (ntohs (halfAt pkt 4)).toNat 12 p ∧ RecordsAt pkt recs p ∧
    recs.length = (ntohs (halfAt pkt 6)).toNat

def Answer (dest : List Byte) (ip : Word) : Prop :=
  ∃ m, ∀ fuel ≥ m, ∀ f, ∃ g, Userlib.dnsResolve pkt dest fuel f = .ok (ip, g)

end

def DnsRecord.next (r : DnsRecord) (cur : List Byte) : List Byte := if r.type = rrTypeCname then r.target else cur

def found : List Byte → List DnsRecord → Option DnsRecord
  | _, [] => none
  | cur, r :: recs => if r.type = rrTypeA ∧ cur = r.owner then some r else found (r.next cur) recs

def addrOf (r : Option DnsRecord) : Word := (r.map DnsRecord.addr).getD invalidIp

/-- A name is reached from another over aliases that the names on the way own. -/
inductive Leads (recs : List DnsRecord) : List Byte → List Byte → Prop
  | refl (name : List Byte) : Leads recs name name
  | step {r : DnsRecord} {last : List Byte} (hr : r ∈ recs) (ht : r.type = rrTypeCname)
      (h : Leads recs r.target last) : Leads recs r.owner last

/-- The address is that of a record of the name that was asked for. -/
def Belongs (recs : List DnsRecord) (dest : List Byte) (ip : Word) : Prop :=
  ∃ r ∈ recs, r.type = rrTypeA ∧ r.cls = rrClassIn ∧ r.addr = ip ∧ Leads recs dest r.owner

def DnsRecord.taken (r : DnsRecord) (last : Option DnsRecord) : Option DnsRecord :=
  if r.type = rrTypeCname then some r else last

/-- The name that the search follows is that of the alias it took last, whoever owns that alias. -/
def followed (dest : List Byte) (last : Option DnsRecord) : List Byte := (last.map DnsRecord.target).getD dest

/-- The alias that the search took last before it ends is owned by a name reached from the one asked for, or stands for
such a name, and the record where it ends is of the internet class (or has no address to return). -/
def Straight (all : List DnsRecord) (dest : List Byte) : Option DnsRecord → List DnsRecord → Prop
  | _, [] => True
  | last, r :: recs => if r.type = rrTypeA ∧ followed dest last = r.owner then
      r.addr = invalidIp ∨ r.cls = rrClassIn ∧ ∀ c ∈ last, Leads all dest c.owner ∨ Leads all dest c.target
    else Straight all dest (r.taken last) recs

/-- Every address stands in one record. -/
def Distinct (recs : List DnsRecord) : Prop :=
  ∀ r ∈ recs, ∀ r' ∈ recs, r.type = rrTypeA → r'.type = rrTypeA → r.addr = r'.addr → r = r'

section

open Net (write)

variable {pkt dest cur : List Byte} {recs all : List DnsRecord} {p : Nat}

theorem TextFits.takeWhile_eq {text : List Byte} (h : TextFits text) : text.takeWhile (· ≠ 0) = text := by
  rw [List.takeWhile_eq_self_iff]
  intro c hc
  simpa using h.2 c hc

theorem TextFits.cString_eq {text : List Byte} (h : TextFits text) :
    cString (write (fun _ => 0) 0 (text ++ [0])) = text := by
  rw [cString_text h.1, h.takeWhile_eq]

theorem RecordAt.follows {r : DnsRecord} {k size : Nat} (h : RecordAt pkt p r k size) (cur : List Byte) :
    Follows pkt (halfAt pkt (p + k)) cur (p + k + 10) (r.next cur) := by
  unfold Follows DnsRecord.next
  rw [← h.type]
  split_ifs with hC
  · obtain ⟨hfit, j, hat⟩ := h.target hC
    exact ⟨j, r.target, hat, hfit.1, hfit.takeWhile_eq.symm⟩
  · rfl

theorem answers_found (cur : List Byte) (h : RecordsAt pkt recs p) : ∃ m, ∀ fuel ≥ m, ∀ f, ∃ g,
    Userlib.answers pkt fuel recs.length cur p f = .ok (addrOf (found cur recs), g) := by
  induction recs generalizing cur p with
  | nil => exact ⟨0, fun fuel _ f => ⟨f, rfl⟩⟩
  | cons r recs ih =>
    obtain ⟨k, size, hr, hrest⟩ := h
    obtain ⟨m1, h1⟩ := hr.name.fits hr.owner.1
    have hin := hr.inside
    have hsize := hr.length
    rw [List.length_cons]
    simp only [Userlib.answers, bind_eq_ok, readHalf_eq_ok, found]
    by_cases hA : r.type = rrTypeA ∧ cur = r.owner
    · obtain ⟨hroom, haddr⟩ := hr.addr hA.1
      refine ⟨m1, fun fuel hf f => ⟨write (fun _ => 0) 0 (r.owner ++ [0]), (), _, clearName_eq_ok.mpr rfl, k, _,
        h1 fuel hf _, _, _, rfl, _, _, ⟨by omega, rfl, rfl⟩, ?_⟩⟩
      rw [hr.owner.cString_eq, ← hr.type, if_pos hA, if_pos hA,
        bind_ok (readWord_eq_ok.mpr ⟨by omega, rfl, rfl⟩), ← haddr]
      rfl
    · obtain ⟨m2, h2⟩ := Userlib.followAlias_returns (hr.follows cur)
      rw [hsize, ← Nat.add_assoc, ← Nat.add_assoc] at hrest
      obtain ⟨m3, h3⟩ := ih (r.next cur) hrest
      refine ⟨max m1 (max m2 m3), fun fuel hf f => ?_⟩
      obtain ⟨g2, hg2⟩ := h2 fuel (by omega) (write (fun _ => 0) 0 (r.owner ++ [0]))
      obtain ⟨g3, hg3⟩ := h3 fuel (by omega) g2
      refine ⟨g3, (), _, clearName_eq_ok.mpr rfl, k, _, h1 fuel (by omega) _, _, _, rfl, _, _,
        ⟨by omega, rfl, rfl⟩, ?_⟩
      rw [hr.owner.cString_eq, ← hr.type, if_neg hA, if_neg hA]
      simp only [bind_eq_ok, readHalf_eq_ok]
      exact ⟨_, g2, hg2, _, _, ⟨by omega, rfl, rfl⟩, hg3⟩

theorem ResponseAt.answer (h : ResponseAt pkt recs) (dest : List Byte) (hdest : dest.length < maxDnsPacketSize) :
    Answer pkt dest (addrOf (found dest recs)) := by
  obtain ⟨h12, p, hq, hrecs, hlen⟩ := h
  have hq0 : QueriesAt pkt 0 (ntohs (halfAt pkt 4)).toNat 12 p := by
    generalize (ntohs (halfAt pkt 4)).toNat = n at hq
    generalize 12 = q at hq
    induction n generalizing q with
    | zero => exact hq
    | succ n ih =>
      obtain ⟨k, hfit, hin, hrest⟩ := hq
      exact ⟨k, hfit, by omega, ih _ hrest⟩
  obtain ⟨m1, h1⟩ := hq0.returns (fun _ => pure ()) (fun q f _ => rfl)
  obtain ⟨m2, h2⟩ := answers_found dest hrecs
  refine ⟨max m1 m2, fun fuel hf f => ?_⟩
  obtain ⟨g1, hg1⟩ := h1 fuel (by omega) f
  obtain ⟨g2, hg2⟩ := h2 fuel (by omega) g1
  refine ⟨g2, ?_⟩
  rw [Userlib.dnsResolve]
  simp only [bind_eq_ok, readHalf_eq_ok]
  refine ⟨_, f, ⟨by omega, rfl, rfl⟩, _, f, ⟨by omega, rfl, rfl⟩, ?_⟩
  rw [if_pos hdest, ← hlen]
  exact bind_eq_ok.mpr ⟨p, g1, hg1, hg2⟩

theorem Answer.unique {ip ip' : Word} (h : Answer pkt dest ip) (h' : Answer pkt dest ip') : ip = ip' := by
  obtain ⟨m, hm⟩ := h
  obtain ⟨m', hm'⟩ := h'
  obtain ⟨g, hg⟩ := hm (max m m') (by omega) fun _ => 0
  obtain ⟨g', hg'⟩ := hm' (max m m') (by omega) fun _ => 0
  cases hg.symm.trans hg'
  rfl

theorem Answer.length_lt {ip : Word} (h : Answer pkt dest ip) : dest.length < maxDnsPacketSize := by
  obtain ⟨m, hm⟩ := h
  obtain ⟨g, hg⟩ := hm m le_rfl fun _ => 0
  rw [Userlib.dnsResolve] at hg
  simp only [bind_eq_ok, readHalf_eq_ok] at hg
  obtain ⟨qd, t, -, an, t1, -, hg⟩ := hg
  by_contra hlen
  rw [if_neg hlen] at hg
  cases hg

theorem found_some {r : DnsRecord} (h : found cur recs = some r) : r ∈ recs ∧ r.type = rrTypeA := by
  induction recs generalizing cur with
  | nil => cases h
  | cons r' recs ih =>
    rw [found] at h
    split_ifs at h with hA
    · cases h
      exact ⟨List.mem_cons_self .., hA.1⟩
    · exact ⟨List.mem_cons_of_mem _ (ih h).1, (ih h).2⟩

theorem Leads.target {r : DnsRecord} {name : List Byte} (hr : r ∈ all) (ht : r.type = rrTypeCname)
    (h : Leads all name r.owner) : Leads all name r.target := by
  generalize howner : r.owner = last at h
  induction h with
  | refl name =>
    rw [← howner]
    exact .step hr ht (.refl _)
  | step hr' ht' _ ih => exact .step hr' ht' (ih howner)

theorem followed_taken (r : DnsRecord) (last : Option DnsRecord) :
    followed dest (r.taken last) = r.next (followed dest last) := by
  unfold DnsRecord.taken DnsRecord.next
  split
  · rfl
  · rfl

theorem leads_followed {last : Option DnsRecord} (hlast : ∀ c ∈ last, c ∈ all ∧ c.type = rrTypeCname) :
    (∀ c ∈ last, Leads all dest c.owner ∨ Leads all dest c.target) ↔ Leads all dest (followed dest last) := by
  cases last with
  | none => exact iff_of_true (fun c hc => nomatch hc) (.refl dest)
  | some c =>
    obtain ⟨hc, ht⟩ := hlast c rfl
    constructor
    · intro h
      exact (h c rfl).elim (.target hc ht) id
    · rintro h c' hc'
      cases hc'
      exact Or.inr h

/-- The name followed at the end of the search is the owner of the record found there. -/
theorem straight_iff {last : Option DnsRecord} (hlast : ∀ c ∈ last, c ∈ all ∧ c.type = rrTypeCname)
    (hrecs : ∀ r ∈ recs, r ∈ all) : Straight all dest last recs ↔ ∀ r, found (followed dest last) recs = some r →
      r.addr ≠ invalidIp → r.cls = rrClassIn ∧ Leads all dest r.owner := by
  induction recs generalizing last with
  | nil => exact iff_of_true trivial fun r hr => nomatch hr
  | cons r recs ih =>
    rw [Straight, found]
    split_ifs with hA
    · rw [leads_followed hlast, hA.2]
      constructor
      · rintro (hip | hok) r' hr' hne
        · cases hr'
          exact absurd hip hne
        · cases hr'
          exact hok
      · intro h
        by_cases hip : r.addr = invalidIp
        · exact Or.inl hip
        · exact Or.inr (h r rfl hip)
    · rw [← followed_taken]
      refine ih (fun c hc => ?_) fun r' hr' => hrecs r' (List.mem_cons_of_mem r hr')
      unfold DnsRecord.taken at hc
      split_ifs at hc with hC
      · cases hc
        exact ⟨hrecs r (List.mem_cons_self ..), hC⟩
      · exact hlast c hc

theorem straight_none : Straight recs dest none recs ↔ ∀ r, found dest recs = some r → r.addr ≠ invalidIp →
    r.cls = rrClassIn ∧ Leads recs dest r.owner :=
  straight_iff (fun _ hc => nomatch hc) fun _ hr => hr

theorem ResponseAt.answer_iff (h : ResponseAt pkt recs) {ip : Word} :
    Answer pkt dest ip ↔ dest.length < maxDnsPacketSize ∧ ip = addrOf (found dest recs) := by
  constructor
  · intro hip
    exact ⟨hip.length_lt, hip.unique (h.answer dest hip.length_lt)⟩
  · rintro ⟨hlen, rfl⟩
    exact h.answer dest hlen

theorem ResponseAt.belongs_of_straight (h : ResponseAt pkt recs) (hs : Straight recs dest none recs) {ip : Word}
    (hip : Answer pkt dest ip) (hne : ip ≠ invalidIp) : Belongs recs dest ip := by
  obtain ⟨-, rfl⟩ := h.answer_iff.mp hip
  cases hr : found dest recs with
  | none =>
    rw [hr] at hne
    exact absurd rfl hne
  | some r =>
    rw [hr] at hne
    obtain ⟨hcls, hlead⟩ := straight_none.mp hs r hr hne
    exact ⟨r, (found_some hr).1, (found_some hr).2, hcls, rfl, hlead⟩

def aliasResponse : List Byte :=
  [0, 0, 0, 0, 0, 0, 0, 2, 0, 0, 0, 0, 1, 0x78, 0, 0, 5, 0, 1, 0, 0, 0, 0, 0, 3, 1, 0x79, 0,
    1, 0x79, 0, 0, 1, 0, 1, 0, 0, 0, 0, 0, 4, 1, 2, 3, 4]

def aliasRecords : List DnsRecord := [⟨[0x78], 5, 1, 0, [0x79]⟩, ⟨[0x79], 1, 1, 0x01020304, []⟩]

theorem aliasResponse_at : ResponseAt aliasResponse aliasRecords := by
  have hx : NameAt aliasResponse 12 ([0x78] ++ dotted 0 []) (1 + 1 + 1) :=
    .label (show aliasResponse[12]? = some 1 from rfl) (by decide) (by decide) rfl rfl (.root rfl)
  have hy : NameAt aliasResponse 25 ([0x79] ++ dotted 0 []) (1 + 1 + 1) :=
    .label (show aliasResponse[25]? = some 1 from rfl) (by decide) (by decide) rfl rfl (.root rfl)
  have hy' : NameAt aliasResponse 28 ([0x79] ++ dotted 0 []) (1 + 1 + 1) :=
    .label (show aliasResponse[28]? = some 1 from rfl) (by decide) (by decide) rfl rfl (.root rfl)
  have hfit : ∀ c : Byte, c ≠ 0 → TextFits [c] := fun c hc => ⟨by simp [maxDnsPacketSize], by simpa using hc⟩
  refine ⟨by decide, 12, rfl, ⟨3, 16, ⟨hx, hfit _ (by decide), by decide, by decide, by decide, by decide,
    fun hA => absurd hA (by decide), fun _ => ⟨hfit _ (by decide), 3, hy⟩⟩, 3, 17, ⟨hy', hfit _ (by decide),
    by decide, by decide, by decide, by decide, fun _ => ⟨by decide, by decide⟩, fun hC => absurd hC (by decide)⟩,
    trivial⟩, by decide⟩

theorem leads_stray {last : List Byte} (h : Leads aliasRecords [0x64] last) : last = [0x64] := by
  generalize hname : ([0x64] : List Byte) = name at h
  induction h with
  | refl name => rfl
  | step hr ht h ih =>
    rcases List.mem_cons.mp hr with rfl | hr
    · cases hname
    · cases List.mem_singleton.mp hr
      cases hname

end

end BabyOS
