import BabyOS.DnsName
import BabyOS.NetRun
import BabyOS.NetWire

open List

namespace BabyOS

def queryTail : List Byte := le16 (htons 1) ++ le16 (htons 1)

namespace Userlib

/-- `prepare_dns_query` from a place in the name on, with the label and the bytes written so far. -/
def prepareLoop : List Byte → List Byte → List Byte → Int × List Byte
  | out, label, [] =>
    if label = [] then (-1, out)
    else if 63 < label.length then (-1, out)
    else
      let out := out ++ .ofNat 8 label.length :: label ++ [0] ++ queryTail
      (out.length, out)
  | out, label, c :: name =>
    if c ≠ 0x2e then prepareLoop out (label ++ [c]) name
    else if 63 < label.length then (-1, out)
    else prepareLoop (out ++ .ofNat 8 label.length :: label) [] name

def prepareDnsQuery (name : List Byte) : Int × List Byte := prepareLoop [] [] name

end Userlib

def labelsOf (name : List Byte) : List (List Byte) := name.splitOn 0x2e

def encodeLabels (labels : List (List Byte)) : List Byte := labels.flatMap fun l => .ofNat 8 l.length :: l

def LabelOk (label : List Byte) : Prop := 1 ≤ label.length ∧ label.length ≤ 63

/-- A name ends at a label that is too long, behind a dot, or behind a label. -/
inductive Encoding
  | tooLong
  | unended
  | ended
  deriving DecidableEq

def encodeName : List (List Byte) → Encoding × List Byte
  | [] => (.unended, [])
  | [l] =>
    if l = [] then (.unended, [])
    else if 63 < l.length then (.tooLong, [])
    else (.ended, .ofNat 8 l.length :: l ++ [0])
  | l :: l' :: ls =>
    if 63 < l.length then (.tooLong, [])
    else ((encodeName (l' :: ls)).1, .ofNat 8 l.length :: l ++ (encodeName (l' :: ls)).2)

section

open Net (write)

variable {label name out : List Byte} {ls : List (List Byte)}

theorem encodeName_cons (h : ls ≠ []) (l : List Byte) : encodeName (l :: ls) =
    if 63 < l.length then (.tooLong, []) else ((encodeName ls).1, .ofNat 8 l.length :: l ++ (encodeName ls).2) := by
  obtain ⟨l', ls', rfl⟩ := exists_cons_of_ne_nil h
  rfl

/-- What `prepare_dns_query` returns and has written, behind some bytes. -/
def Encoding.prepared : Encoding → List Byte → Int × List Byte
  | .ended, out => ((out ++ queryTail).length, out ++ queryTail)
  | _, out => (-1, out)

theorem Userlib.prepareLoop_eq (h : (0x2e : Byte) ∉ label) : prepareLoop out label name =
    (encodeName ((label ++ name).splitOn 0x2e)).1.prepared (out ++ (encodeName ((label ++ name).splitOn 0x2e)).2) := by
  induction name generalizing out label with
  | nil =>
    rw [append_nil, splitOn_eq_singleton h, prepareLoop, encodeName]
    split_ifs with h0 h63
    all_goals simp [Encoding.prepared]
  | cons c name ih =>
    rw [prepareLoop]
    by_cases hc : c = 0x2e
    · subst hc
      rw [splitOn_append_cons_self_of_not_mem h, encodeName_cons (splitOn_ne_nil _ _), if_neg (by simp)]
      split_ifs with h63
      · simp [Encoding.prepared]
      · rw [ih not_mem_nil, nil_append, append_assoc]
    · have hdot : (0x2e : Byte) ∉ label ++ [c] := by
        rw [mem_append, mem_singleton]
        exact not_or_intro h (Ne.symm hc)
      rw [if_pos hc, ih hdot, append_assoc]
      rfl

def Encoding.parsed : Encoding → Int
  | .tooLong => -1
  | _ => 0

theorem Net.Filled.appendLabel {s t : Net} {b room : Nat} {bs : List Byte} (h : Net.Filled s t b bs room)
    (hroom : label.length + 1 ≤ room) :
    Net.Filled s ((t.append b [.ofNat 8 label.length]).2.append b label).2 b (bs ++ .ofNat 8 label.length :: label)
      (room - (label.length + 1)) := by
  have h2 := (h.append [.ofNat 8 label.length] (by simp; omega)).append label (by simp; omega)
  rw [length_singleton, append_assoc, Nat.sub_sub, Nat.add_comm 1] at h2
  exact h2

theorem parseName_eq {s t : Net} {b room : Nat} {bs : List Byte} (h : (0x2e : Byte) ∉ label)
    (hf : Net.Filled s t b bs room) (hroom : label.length + name.length + 2 ≤ room) :
    ∃ u, parseName b label name t = .ok ((encodeName ((label ++ name).splitOn 0x2e)).1.parsed, u) ∧
      Net.Filled s u b (bs ++ (encodeName ((label ++ name).splitOn 0x2e)).2)
        (room - (encodeName ((label ++ name).splitOn 0x2e)).2.length) := by
  induction name generalizing t label bs room with
  | nil =>
    rw [append_nil, splitOn_eq_singleton h, parseName, encodeName]
    rw [length_nil] at hroom
    by_cases h0 : label = []
    · rw [if_pos h0, if_pos h0]
      exact ⟨t, rfl, by rwa [append_nil]⟩
    · rw [if_neg h0, if_neg h0]
      by_cases h63 : 63 < label.length
      · rw [if_pos h63, if_pos h63]
        exact ⟨t, rfl, by rwa [append_nil]⟩
      · rw [if_neg h63, if_neg h63]
        have hzero := (hf.appendLabel (show label.length + 1 ≤ room by omega)).append [0] (by simp; omega)
        rw [append_assoc, Nat.sub_sub] at hzero
        exact ⟨_, rfl, by simpa using hzero⟩
  | cons c name ih =>
    rw [length_cons] at hroom
    rw [parseName]
    by_cases hc : c = 0x2e
    · subst hc
      rw [splitOn_append_cons_self_of_not_mem h, encodeName_cons (splitOn_ne_nil _ _), if_neg (by simp)]
      by_cases h63 : 63 < label.length
      · rw [if_pos h63, if_pos h63]
        exact ⟨t, rfl, by rwa [append_nil]⟩
      · rw [if_neg h63, if_neg h63, append_bind, append_bind]
        have hnext := hf.appendLabel (show label.length + 1 ≤ room by omega)
        obtain ⟨u, hu, hfu⟩ := ih not_mem_nil hnext (by simp; omega)
        rw [nil_append] at hu hfu
        refine ⟨u, hu, ?_⟩
        rw [append_assoc, Nat.sub_sub] at hfu
        rw [length_append, length_cons]
        exact hfu
    · rw [if_pos hc]
      have hdot : (0x2e : Byte) ∉ label ++ [c] := by
        rw [mem_append, mem_singleton]
        exact not_or_intro h (Ne.symm hc)
      obtain ⟨u, hu, hfu⟩ := ih hdot hf (by simp; omega)
      rw [append_assoc] at hu hfu
      exact ⟨u, hu, hfu⟩

theorem encodeLabels_cons (l : List Byte) (ls : List (List Byte)) :
    encodeLabels (l :: ls) = .ofNat 8 l.length :: l ++ encodeLabels ls := flatMap_cons

theorem encodeLabels_append_nil (ls : List (List Byte)) : encodeLabels (ls ++ [[]]) = encodeLabels ls ++ [0] := by
  rw [encodeLabels, flatMap_append]
  rfl

theorem encodeName_of_long (h : ∃ l ∈ ls, 63 < l.length) : (encodeName ls).1 = .tooLong := by
  induction ls with
  | nil => simp at h
  | cons l ls ih =>
    cases ls with
    | nil =>
      have hl : 63 < l.length := by simpa using h
      have h0 : l ≠ [] := ne_nil_of_length_pos (by omega)
      rw [encodeName, if_neg h0, if_pos hl]
    | cons l' ls =>
      rw [encodeName]
      by_cases hl : 63 < l.length
      · rw [if_pos hl]
      · rw [if_neg hl]
        obtain ⟨m, hm, hlong⟩ := h
        rcases mem_cons.mp hm with rfl | hm
        · exact absurd hlong hl
        · exact ih ⟨m, hm, hlong⟩

theorem encodeName_of_short (h : ∀ l ∈ ls, l.length ≤ 63) (hne : ls ≠ []) : encodeName ls =
    if ls.getLast hne = [] then (.unended, encodeLabels ls.dropLast) else (.ended, encodeLabels ls ++ [0]) := by
  induction ls with
  | nil => exact absurd rfl hne
  | cons l ls ih =>
    have hl : ¬63 < l.length := Nat.not_lt.mpr (h l mem_cons_self)
    cases ls with
    | nil =>
      rw [encodeName, if_neg hl, getLast_singleton]
      split_ifs with h0
      · rfl
      · simp [encodeLabels]
    | cons l' ls =>
      have hrest := ih (fun m hm => h m (mem_cons_of_mem l hm)) (cons_ne_nil _ _)
      rw [encodeName, if_neg hl, hrest, getLast_cons (cons_ne_nil _ _), dropLast_cons_cons]
      split_ifs with h0
      · rw [encodeLabels_cons l]
      · rw [encodeLabels_cons l, append_assoc]

theorem encodeLabels_inj {ls' : List (List Byte)} (h : ∀ l ∈ ls, l.length ≤ 63) (h' : ∀ l ∈ ls', l.length ≤ 63)
    (he : encodeLabels ls = encodeLabels ls') : ls = ls' := by
  induction ls generalizing ls' with
  | nil =>
    cases ls' with
    | nil => rfl
    | cons l' ls' => cases he
  | cons l ls ih =>
    cases ls' with
    | nil => cases he
    | cons l' ls' =>
      rw [encodeLabels_cons, encodeLabels_cons, cons_append, cons_append] at he
      obtain ⟨hlen, hrest⟩ := List.cons.inj he
      have hlength : l.length = l'.length := by
        rw [← toNat_lengthByte (h l mem_cons_self), hlen, toNat_lengthByte (h' l' mem_cons_self)]
      obtain ⟨rfl, htail⟩ := append_inj hrest hlength
      rw [ih (fun m hm => h m (mem_cons_of_mem l hm)) (fun m hm => h' m (mem_cons_of_mem l hm)) htail]

theorem wellFormed_encode (h : ∀ l ∈ ls, LabelOk l) (hz : ∀ l ∈ ls, ∀ c ∈ l, c ≠ 0) (front : List Byte) :
    WellFormed (front ++ (encodeLabels ls ++ [0])) front.length ls (encodeLabels ls ++ [0]).length := by
  induction ls generalizing front with
  | nil =>
    refine .root ?_
    simp [encodeLabels]
  | cons l ls ih =>
    obtain ⟨h1, h63⟩ := h l mem_cons_self
    have hsplit : front ++ (encodeLabels (l :: ls) ++ [0]) =
        front ++ .ofNat 8 l.length :: l ++ (encodeLabels ls ++ [0]) := by
      rw [encodeLabels_cons]
      simp
    have hrest := ih (fun m hm => h m (mem_cons_of_mem l hm)) (fun m hm => hz m (mem_cons_of_mem l hm))
      (front ++ .ofNat 8 l.length :: l)
    rw [← hsplit] at hrest
    have hsize : (encodeLabels (l :: ls) ++ [0]).length = 1 + l.length + (encodeLabels ls ++ [0]).length := by
      rw [encodeLabels_cons]
      simp
      omega
    rw [hsize]
    refine .label h1 h63 ?_ ?_ (hz l mem_cons_self) ?_
    · rw [hsplit]
      simp
    · rw [hsplit]
      simp
    · rw [length_append, length_cons, ← Nat.add_assoc, Nat.add_right_comm] at hrest
      exact hrest

def DecodesTo (resolve : List Byte → Nat → Nat → Nat → Nat → DnsProg Nat) (bytes name : List Byte) : Prop :=
  ∃ n, ∀ fuel ≥ n, ∀ f, resolve bytes 512 fuel 0 0 f = .ok (bytes.length, write f 0 (name ++ [0]))

/-- `prepare_dns_query` fails, or emits labels and a zero byte that `resolve_name` takes for the name. -/
def Userlib.Faithful (name : List Byte) : Prop :=
  (prepareDnsQuery name).1 < 0 ∨ ∃ labels, (∀ l ∈ labels, LabelOk l) ∧
    (prepareDnsQuery name).2 = encodeLabels labels ++ [0] ++ queryTail ∧
    (prepareDnsQuery name).1 = (prepareDnsQuery name).2.length ∧
    DecodesTo Userlib.resolveName (encodeLabels labels ++ [0]) name

/-- `dns_t::query` sends nothing, neither at once nor after an ARP reply. -/
def Dns.Quiet (name : List Byte) : Prop :=
  ∀ cfg s, Ends (fun _ => True) (dnsQuery cfg name) (fun _ t => t.frames = s.frames ∧ t.arp = s.arp) s

/-- `parse_name` fails, and then the query sends nothing, or it adds, with room, labels and a zero byte that
`resolve_name` takes for the name. -/
def Dns.Faithful (name : List Byte) : Prop :=
  ∀ s b, name.length + 2 ≤ (s.bufs b).left → Ends (fun _ => False) (parseName b [] name)
    (fun r t => r < 0 ∧ Dns.Quiet name ∨ r = 0 ∧ ∃ labels, (∀ l ∈ labels, LabelOk l) ∧
      t.content b = s.content b ++ (encodeLabels labels ++ [0]) ∧
      DecodesTo Dns.resolveName (encodeLabels labels ++ [0]) name) s

theorem mem_dotJoin {l : List Byte} {c : Byte} (hl : l ∈ ls) (hc : c ∈ l) : c ∈ dotJoin ls := by
  induction ls with
  | nil => cases hl
  | cons m ls ih =>
    cases ls with
    | nil =>
      obtain rfl := mem_singleton.mp hl
      rw [dotJoin, intercalate_singleton]
      exact hc
    | cons m' ls =>
      rw [dotJoin, intercalate_cons_cons, mem_append]
      rcases mem_cons.mp hl with rfl | hl
      · exact Or.inl (mem_append_left _ hc)
      · exact Or.inr (ih hl)

theorem decodesTo_labels (hz : ∀ c ∈ name, c ≠ 0) (hlen : name.length < 512) (h : ∀ l ∈ labelsOf name, LabelOk l) :
    DecodesTo BabyOS.resolveName (encodeLabels (labelsOf name) ++ [0]) name := by
  have hjoin : dotJoin (labelsOf name) = name := intercalate_splitOn 0x2e
  have hnonzero : ∀ l ∈ labelsOf name, ∀ c ∈ l, c ≠ 0 := by
    intro l hl c hc
    apply hz
    rw [← hjoin]
    exact mem_dotJoin hl hc
  obtain ⟨n, hn⟩ := (wellFormed_encode h hnonzero []).nameAt.returns
  rw [hjoin] at hn
  exact ⟨n, fun fuel hf f => hn fuel hf (by omega)⟩

theorem encodeName_length_le (ls : List (List Byte)) : (encodeName ls).2.length ≤ (dotJoin ls).length + 2 := by
  induction ls with
  | nil => exact Nat.zero_le _
  | cons l ls ih =>
    cases ls with
    | nil =>
      rw [encodeName, dotJoin, intercalate_singleton]
      split_ifs
      · exact Nat.zero_le _
      · exact Nat.zero_le _
      · simp
    | cons l' ls =>
      rw [encodeName, dotJoin, intercalate_cons_cons]
      split_ifs
      · exact Nat.zero_le _
      · rw [dotJoin] at ih
        simp at ih ⊢
        omega

theorem dnsQuery_sends {cfg : NetCfg} {s : Net} {held all exts : Multiset Nat} {mac : Mac}
    (ho : Net.Own s held all exts) (hs : s.Spare 4) (hip : checkIp cfg cfg.dnsAddr = true)
    (hmac : s.arp.lookupCache (nextHop cfg cfg.dnsAddr) = some mac) (hne : mac ≠ cfg.ethAddr)
    (hlen : name.length ≤ 253) :
    Ends (fun _ => False) (dnsQuery cfg name) (fun _ t => ∃ frame, t.frames = s.frames ++ [frame]) s := by
  obtain ⟨b, t, ht, hk⟩ := alloc_bind (α := Int) (hs.alloc (show 512 ≤ 2048 by omega))
  obtain ⟨room, hfit, h0⟩ := ht.filled (show 512 ≤ 2048 by omega)
  have hhdr : dnsHdr.length = 12 := rfl
  have h1 := h0.append dnsHdr (by omega)
  obtain ⟨u, hu, h2⟩ := @parseName_eq [] name _ _ _ _ _ not_mem_nil h1 (by simp; omega)
  have hbytes : (encodeName (([] ++ name).splitOn 0x2e)).2.length ≤ name.length + 2 := by
    have hle := encodeName_length_le (name.splitOn 0x2e)
    rwa [dotJoin, intercalate_splitOn] at hle
  have htail : (le16 (htons 1)).length = 2 := rfl
  have h3 := h2.append (le16 (htons 1)) (by omega)
  have h4 := h3.append (le16 (htons 1)) (by omega)
  obtain ⟨v, hv⟩ : ∃ v, v = ((u.append b (le16 (htons 1))).2.append b (le16 (htons 1))).2 := ⟨_, rfl⟩
  rw [← hv] at h4
  have hrun : dnsQuery cfg name s =
      (discard (udpTransmit cfg cfg.dnsAddr 50150 53 (v.content b)) >>= fun _ => pure 0) v := by
    unfold dnsQuery
    rw [hk]
    dsimp only
    rw [append_bind, bind_ok (a := ()) (discard_eq_ok.mpr ⟨_, hu⟩), append_bind, append_bind, get_bind, ← hv]
  have hcalled := h4.called ht ho
  obtain ⟨held', ho'⟩ := hcalled.own
  have hdata : (v.content b).length + 42 ≤ 2048 := by
    rw [h4.content]
    simp only [length_append, length_nil]
    omega
  obtain ⟨id, hands⟩ := udpTransmit_hands ho' (hcalled.spare hs) hip hdata 50150 53
  unfold Hands at hands
  rw [hcalled.arp, hmac] at hands
  rw [ends_congr hrun, ends_bind, ends_discard]
  refine (hands hne).imp fun _ w hw => ?_
  exact ⟨_, by rw [hw.2, hcalled.frames]⟩

def queryHost : Net :=
  { Net.host with extBuffers := [0, 1, 2, 3], arp := { Arp.init with cache := [(0xc0a80101, fun _ => 2)] } }

theorem Dns.not_quiet (hlen : name.length ≤ 253) : ¬Dns.Quiet name := by
  have ho : Net.Own queryHost 0 {0, 1, 2, 3} {0, 1, 2, 3} := ⟨rfl, rfl, by decide, by decide⟩
  have hsends := @dnsQuery_sends name Net.hostCfg queryHost 0 _ _ (fun _ => 2) ho ⟨by decide, by decide⟩ rfl rfl
    (fun h => absurd (congrFun h 0) (by decide)) hlen
  intro hq
  obtain ⟨r, t, hrun, frame, hframe⟩ := hsends.returns
  have hsame := ((hq Net.hostCfg queryHost).of_ok hrun).1
  rw [hframe] at hsame
  simp at hsame

/-- `prepare_dns_query` notices a label that is too long and a dot at the end, but no other empty label. -/
def Userlib.Encodable (name : List Byte) : Prop :=
  (∃ l ∈ labelsOf name, 63 < l.length) ∨ [] = (labelsOf name).getLast (splitOn_ne_nil _ _) ∨
    ∀ l ∈ labelsOf name, l ≠ []

/-- What `parse_name` notices makes no difference to the query. -/
def Dns.Encodable (name : List Byte) : Prop := ∀ l ∈ labelsOf name, LabelOk l

theorem short_or_long (ls : List (List Byte)) : (∃ l ∈ ls, 63 < l.length) ∨ ∀ l ∈ ls, l.length ≤ 63 := by
  by_cases h : ∃ l ∈ ls, 63 < l.length
  · exact Or.inl h
  · push Not at h
    exact Or.inr h

theorem encode_end_inj {labels : List (List Byte)} (h : ∀ l ∈ ls, l.length ≤ 63) (hok : ∀ l ∈ labels, LabelOk l)
    (he : encodeLabels ls ++ [0] = encodeLabels labels ++ [0]) : ls = labels :=
  encodeLabels_inj h (fun l hl => (hok l hl).2) (append_cancel_right he)

theorem Userlib.faithful_iff (hz : ∀ c ∈ name, c ≠ 0) (hlen : name.length ≤ 253) :
    Userlib.Faithful name ↔ Userlib.Encodable name := by
  unfold Userlib.Faithful
  rw [show prepareDnsQuery name = (encodeName (labelsOf name)).1.prepared (encodeName (labelsOf name)).2 from
    prepareLoop_eq not_mem_nil]
  rcases short_or_long (labelsOf name) with hlong | hshort
  · refine iff_of_true (Or.inl ?_) (Or.inl hlong)
    rw [encodeName_of_long hlong]
    exact (by decide : (-1 : Int) < 0)
  · have hne : labelsOf name ≠ [] := splitOn_ne_nil _ _
    rw [encodeName_of_short hshort hne]
    by_cases hlast : (labelsOf name).getLast hne = []
    · rw [if_pos hlast]
      exact iff_of_true (Or.inl (by decide : (-1 : Int) < 0)) (Or.inr (Or.inl hlast.symm))
    · rw [if_neg hlast]
      constructor
      · rintro (hneg | ⟨labels, hok, he, -, -⟩)
        · exact absurd hneg (Int.not_lt.mpr (Int.natCast_nonneg _))
        · have hsame := encode_end_inj hshort hok (append_cancel_right he)
          refine Or.inr (Or.inr fun l hl => ?_)
          rw [hsame] at hl
          exact ne_nil_of_length_pos (hok l hl).1
      · intro henc
        have hall : ∀ l ∈ labelsOf name, l ≠ [] := by
          rcases henc with ⟨l, hl, hlong⟩ | hnil | hall
          · exact absurd (hshort l hl) (Nat.not_le.mpr hlong)
          · exact absurd hnil.symm hlast
          · exact hall
        have hok := fun l hl => (⟨length_pos_iff.mpr (hall l hl), hshort l hl⟩ : LabelOk l)
        exact Or.inr ⟨_, hok, rfl, rfl, decodesTo_labels hz (by omega) hok⟩

theorem length_dotJoin_lt (ls : List (List Byte)) : (dotJoin ls).length < (dotJoin (ls ++ [[], []])).length := by
  induction ls with
  | nil => decide
  | cons l ls ih =>
    cases ls with
    | nil =>
      rw [singleton_append, dotJoin, dotJoin, intercalate_singleton, intercalate_cons_cons]
      simp
    | cons l' ls =>
      rw [cons_append, cons_append, dotJoin, dotJoin, intercalate_cons_cons, intercalate_cons_cons]
      rw [cons_append, dotJoin, dotJoin] at ih
      simp only [length_append]
      omega

theorem DecodesTo.not_longer {labels : List (List Byte)} (hz : ∀ c ∈ name, c ≠ 0) (hok : ∀ l ∈ labels, LabelOk l)
    (hnz : ∀ l ∈ labels, ∀ c ∈ l, c ≠ 0) (hlen : name.length ≤ 253)
    (h : DecodesTo BabyOS.resolveName (encodeLabels labels ++ [0]) name) : ¬(dotJoin labels).length < name.length := by
  intro hlt
  obtain ⟨n, hn⟩ := h
  obtain ⟨m, hm⟩ := @NameAt.returns _ 512 _ _ _ (wellFormed_encode hok hnz []).nameAt
  have h1 := hn (max n m) (by omega) fun _ => 0
  have h2 := @hm (max n m) (by omega) 0 (fun _ => 0) (by omega)
  have hsame : write (fun _ => 0) 0 (name ++ [0]) = write (fun _ => 0) 0 (dotJoin labels ++ [0]) :=
    congrArg Prod.snd (Except.ok.inj (h1.symm.trans h2))
  have hat := congrFun hsame (0 + (dotJoin labels).length)
  rw [Net.write_add (by simp; omega), Net.write_add (by simp), getElem_append_left hlt,
    getElem_append_right (Nat.le_refl _)] at hat
  exact hz _ (getElem_mem hlt) (by simpa using hat)

theorem Dns.faithful_iff (hz : ∀ c ∈ name, c ≠ 0) (hlen : name.length ≤ 253) :
    Dns.Faithful name ↔ Dns.Encodable name := by
  have hjoin : dotJoin (labelsOf name) = name := intercalate_splitOn 0x2e
  have hne : labelsOf name ≠ [] := splitOn_ne_nil _ _
  have hparse : ∀ {s : Net} {b : Nat}, name.length + 2 ≤ (s.bufs b).left →
      ∃ u, parseName b [] name s = .ok ((encodeName (labelsOf name)).1.parsed, u) ∧
        u.content b = s.content b ++ (encodeName (labelsOf name)).2 := by
    intro s b hroom
    have hfilled : Net.Filled s s b (s.content b) (s.bufs b).left := ⟨.refl s, rfl, rfl, rfl⟩
    obtain ⟨u, hu, hf⟩ := @parseName_eq [] name _ _ _ _ _ not_mem_nil hfilled (by simp; omega)
    exact ⟨u, hu, hf.content⟩
  constructor
  · intro h
    obtain ⟨s, hs⟩ : ∃ s : Net, name.length + 2 ≤ (s.bufs 0).left :=
      ⟨{ Net.host with bufs := fun _ => .init (some 0) }, show name.length + 2 ≤ 2048 by omega⟩
    obtain ⟨u, hu, hcontent⟩ := hparse hs
    have hends := (h s 0 hs).of_ok hu
    rcases short_or_long (labelsOf name) with hlong | hshort
    · rw [encodeName_of_long hlong] at hends
      rcases hends with ⟨-, hq⟩ | ⟨h0, -⟩
      · exact absurd hq (Dns.not_quiet hlen)
      · cases h0
    · rw [encodeName_of_short hshort hne] at hends hcontent
      by_cases hlast : (labelsOf name).getLast hne = []
      · rw [if_pos hlast] at hends hcontent
        rcases hends with ⟨hneg, -⟩ | ⟨-, labels, hok, he, hdec⟩
        · exact absurd hneg (Int.lt_irrefl 0)
        · have hbytes := append_cancel_left (hcontent.symm.trans he)
          rw [← encodeLabels_append_nil] at hbytes
          have hdrop : (labelsOf name).dropLast = labels ++ [[]] := by
            refine encodeLabels_inj (fun l hl => hshort l (mem_of_mem_dropLast hl)) (fun l hl => ?_) hbytes
            rcases mem_append.mp hl with hl | hl
            · exact (hok l hl).2
            · rw [mem_singleton.mp hl]
              exact Nat.zero_le 63
          have hall : labelsOf name = labels ++ [[], []] := by
            rw [← dropLast_append_getLast hne, hdrop, hlast, append_assoc]
            rfl
          have hnz : ∀ l ∈ labels, ∀ c ∈ l, c ≠ 0 := by
            intro l hl c hc
            apply hz
            rw [← hjoin, hall]
            exact mem_dotJoin (mem_append_left _ hl) hc
          refine absurd ?_ (hdec.not_longer hz hok hnz hlen)
          rw [← hjoin, hall]
          exact length_dotJoin_lt labels
      · rw [if_neg hlast] at hends hcontent
        rcases hends with ⟨hneg, -⟩ | ⟨-, labels, hok, he, -⟩
        · exact absurd hneg (Int.lt_irrefl 0)
        · have hsame := encode_end_inj hshort hok (append_cancel_left (hcontent.symm.trans he))
          unfold Dns.Encodable
          rw [hsame]
          exact hok
  · intro hok s b hroom
    obtain ⟨u, hu, hcontent⟩ := hparse hroom
    have hlast : (labelsOf name).getLast hne ≠ [] :=
      ne_nil_of_length_pos (hok _ (getLast_mem hne)).1
    rw [encodeName_of_short (fun l hl => (hok l hl).2) hne, if_neg hlast] at hu hcontent
    refine (ends_of_ok hu).mpr (Or.inr ⟨rfl, _, hok, hcontent, ?_⟩)
    exact decodesTo_labels hz (by omega) hok

/-- The encoders are faithful just where each label has its length or, in the user library, where a label is too
long or the name ends in a dot or is empty. -/
theorem dns_encoding_faithful (hz : ∀ c ∈ name, c ≠ 0) (hlen : name.length ≤ 253) :
    (Userlib.Faithful name ↔ Userlib.Encodable name) ∧ (Dns.Faithful name ↔ Dns.Encodable name) :=
  ⟨Userlib.faithful_iff hz hlen, Dns.faithful_iff hz hlen⟩

theorem dns_encoding_faithful_two :
    Userlib.Faithful [0x61, 0x2e, 0x62] ∧ Dns.Faithful [0x61, 0x2e, 0x62] := by
  obtain ⟨huser, hkernel⟩ := @dns_encoding_faithful [0x61, 0x2e, 0x62] (by decide) (by decide)
  have hlabels : labelsOf [0x61, 0x2e, 0x62] = [[0x61], [0x62]] := by decide
  refine ⟨huser.mpr (Or.inr (Or.inr ?_)), hkernel.mpr ?_⟩
  · rw [hlabels]
    decide
  · unfold Dns.Encodable
    rw [hlabels]
    simp [LabelOk]

/-- Both encoders make a zero byte in the middle of `a..b`; `parse_name` ends the empty name and `a.` by none, and the
query of a name whose label is too long is sent. -/
theorem dns_encoding_unfaithful :
    ¬Userlib.Faithful [0x61, 0x2e, 0x2e, 0x62] ∧ ¬Dns.Faithful [0x61, 0x2e, 0x2e, 0x62] ∧ ¬Dns.Faithful [] ∧
    ¬Dns.Faithful [0x61, 0x2e] ∧ ¬Dns.Faithful (List.replicate 64 0x61) := by
  refine ⟨fun h => ?_, fun h => ?_, fun h => ?_, fun h => ?_, fun h => ?_⟩
  · rcases (Userlib.faithful_iff (by decide) (by decide)).mp h with hlong | hnil | hall
    · exact absurd hlong (by decide)
    · exact absurd hnil (by decide)
    · exact hall [] (by decide) rfl
  rotate_right
  · have hok := (Dns.faithful_iff (by decide) (by decide)).mp h (List.replicate 64 0x61) (by decide)
    exact absurd hok.2 (by decide)
  all_goals
    have hok := (Dns.faithful_iff (by decide) (by decide)).mp h [] (by decide)
    exact absurd hok.1 (by decide)

end

end BabyOS
