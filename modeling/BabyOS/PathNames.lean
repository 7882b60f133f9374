import BabyOS.FsInode
import Mathlib.Data.List.TakeWhile

open Function List

namespace BabyOS

def slash : Byte := 0x2f#8

/-- The bytes that `strncpy` stores, from the start of `dst` on; the end of `src` stands for the zero behind a path. -/
def strncpy : List Byte → Nat → List Byte
  | c :: src, n + 1 => if c = 0 then [0] else c :: strncpy src n
  | _, _ => [0]

/-- `strcmp` of two arrays, `none` if it reads behind one of them. -/
def strcmp : List Byte → List Byte → Option Int
  | a :: s, b :: t => if a ≠ 0 ∧ b ≠ 0 ∧ a = b then strcmp s t else some (a.toInt - b.toInt)
  | _, _ => none

/-- An array of `MAX_PATH` bytes after `memset` and then these stores. -/
def nameArray (w : List Byte) : List Byte := w.take maxPath ++ replicate (maxPath - w.length) 0

theorem length_nameArray (w : List Byte) : (nameArray w).length = maxPath := by
  rw [nameArray, length_append, length_take, length_replicate]
  omega

def elem (path : List Byte) : List Byte := (path.dropWhile (· = slash)).takeWhile (· ≠ slash)

/-- The path that is left, and what is stored into `name`. -/
def skipElem (path : List Byte) : Option (List Byte × List Byte) :=
  let start := path.dropWhile (· = slash)
  if start = [] then none
  else
    let stop := start.dropWhile (· ≠ slash)
    let len := start.length - stop.length
    some (stop.dropWhile (· = slash), strncpy start (if maxPath ≤ len then maxPath else len))

structure DirEntry where
  inum : Half
  name : List Byte
  size : name.length = maxPath

def dirLookup (name : List Byte) : List DirEntry → Option (Option Half)
  | [] => some none
  | e :: es =>
    if e.inum ≠ 0 then do
      let r ← strcmp name e.name
      if r = 0 then pure (some e.inum) else dirLookup name es
    else dirLookup name es

/-- The entry goes where there is none, or to the end of the directory. -/
def putEntry (e : DirEntry) : List DirEntry → List DirEntry
  | [] => [e]
  | x :: es => if x.inum = 0 then e :: es else x :: putEntry e es

def dirLink (name : List Byte) (inum : Half) (es : List DirEntry) : Option (List DirEntry) :=
  match dirLookup name es with
  | some none => some (putEntry ⟨inum, nameArray (strncpy name maxPath), length_nameArray _⟩ es)
  | _ => none

section

variable {c rest path w : List Byte} {n : Nat}

theorem skipElem_some (h : skipElem path = some (rest, w)) : ∃ tail, elem path ++ tail <:+ path ∧ rest <:+ tail ∧
    elem path ≠ [] ∧ w = strncpy (elem path ++ tail) (min maxPath (elem path).length) := by
  unfold skipElem at h
  dsimp only at h
  split at h
  · cases h
  next hne =>
    obtain ⟨rfl, rfl⟩ := Prod.mk.inj (Option.some.inj h)
    have hsplit := takeWhile_append_dropWhile (p := fun b => decide (b ≠ slash)) (l := path.dropWhile (· = slash))
    have hlen := congrArg length hsplit
    rw [length_append] at hlen
    refine ⟨(path.dropWhile (· = slash)).dropWhile (· ≠ slash), ?_, dropWhile_suffix _, ?_, ?_⟩
    · rw [elem, hsplit]
      exact dropWhile_suffix _
    · obtain ⟨b, bs, hb⟩ := exists_cons_of_ne_nil hne
      have hhead : b ≠ slash := by
        have := head_dropWhile_not (· = slash) (l := path) hne
        simpa [hb] using this
      rw [elem, hb, takeWhile_cons_of_pos (by simpa using hhead)]
      exact cons_ne_nil _ _
    · rw [elem, hsplit, ← hlen, Nat.add_sub_cancel, Nat.min_def]

theorem elem_of_none (h : skipElem path = none) : elem path = [] := by
  unfold skipElem at h
  dsimp only at h
  split at h
  next hnil => rw [elem, hnil, takeWhile_nil]
  · cases h

theorem skipElem_length (h : skipElem path = some (rest, w)) : rest.length < path.length := by
  obtain ⟨tail, hpath, hrest, hne, -⟩ := skipElem_some h
  have hpos := length_pos_of_ne_nil hne
  have hle := hpath.length_le
  have hle' := hrest.length_le
  rw [length_append] at hle
  omega

end

/-- The directories by the numbers of their inodes, as `read_inode` and `write_inode` give access to them. -/
structure Names where
  isDir : Half → Bool
  entries : Half → List DirEntry
  cwd : Half

namespace Names

/-- The loop of `namei`; `none` if it fails or `strcmp` reads behind a name. -/
def walk (t : Names) (parent : Bool) (inode : Half) (name path : List Byte) : Option (Half × List Byte) :=
  match _h : skipElem path with
  | none => if parent then none else some (inode, name)
  | some (rest, w) =>
    if t.isDir inode = false then none
    else if parent ∧ rest = [] then some (inode, nameArray w)
    else
      match dirLookup (nameArray w) (t.entries inode) with
      | some (some next) => walk t parent next (nameArray w) rest
      | _ => none
termination_by path.length
decreasing_by exact skipElem_length _h

def namei (t : Names) (path : List Byte) (parent : Bool) : Option (Half × List Byte) :=
  t.walk parent (if path.head? = some slash then 1 else t.cwd) (replicate maxPath 0) path

/-- `create` of a file that is not there, for which `alloc_inode` has given an inode. -/
def create (t : Names) (path : List Byte) (inum : Half) : Option Names := do
  let (dir, name) ← t.namei path true
  let es ← dirLink name inum (t.entries dir)
  pure { t with entries := update t.entries dir es }

end Names

/-- From every place in the path on, the next component is shorter than `MAX_PATH`. -/
def ShortElems (path : List Byte) : Prop := ∀ q, q <:+ path → (elem q).length < maxPath

def Fits (c : List Byte) : Prop := 0 ∉ c ∧ c.length < maxPath

def nameField (c : List Byte) : List Byte := nameArray (c ++ [0])

def DirEntry.text (e : DirEntry) : List Byte := e.name.takeWhile (· ≠ 0)

section

variable {c rest path w : List Byte} {n : Nat} {es es' : List DirEntry} {e : DirEntry} {inum : Half}

theorem strncpy_append (hc : 0 ∉ c) (hn : n = c.length ∨ c.length ≤ n ∧ rest.head?.getD 0 = 0) :
    strncpy (c ++ rest) n = c ++ [0] := by
  induction c generalizing n with
  | nil =>
    cases rest with
    | nil => rfl
    | cons b rest =>
      cases n with
      | zero => rfl
      | succ n =>
        have hb : b = 0 := by simpa using hn
        rw [nil_append, strncpy, if_pos hb]
        rfl
  | cons a c ih =>
    obtain ⟨ha, hc⟩ := not_or.mp (mt mem_cons.mpr hc)
    obtain ⟨n, rfl⟩ : ∃ m, n = m + 1 := ⟨n - 1, by simp at hn; omega⟩
    rw [cons_append, strncpy, if_neg (Ne.symm ha), ih hc (by simpa using hn)]
    rfl

theorem skipElem_stores (hz : 0 ∉ path) (h : skipElem path = some (rest, w)) :
    0 ∉ elem path ∧ rest <:+ path ∧ w = (elem path).take maxPath ++ [0] := by
  obtain ⟨tail, hpath, hrest, -, rfl⟩ := skipElem_some h
  have hc : 0 ∉ elem path := fun h0 => hz (hpath.subset (mem_append_left _ h0))
  refine ⟨hc, hrest.trans ((suffix_append _ _).trans hpath), ?_⟩
  nth_rewrite 1 [← take_append_drop maxPath (elem path)]
  rw [append_assoc, strncpy_append (fun h0 => hc (mem_of_mem_take h0)) (Or.inl length_take.symm)]

theorem nameField_eq (hc : Fits c) : nameField c = c ++ 0 :: replicate (maxPath - (c.length + 1)) 0 := by
  have hlen : (c ++ [(0 : Byte)]).length = c.length + 1 := by rw [length_append, length_singleton]
  rw [nameField, nameArray, take_of_length_le (by rw [hlen]; exact hc.2), hlen, append_assoc]
  rfl

theorem strncpy_nameField (hc : Fits c) : strncpy (nameField c) maxPath = c ++ [0] := by
  rw [nameField_eq hc]
  exact strncpy_append hc.1 (Or.inr ⟨Nat.le_of_lt hc.2, rfl⟩)

theorem strcmp_nameField (hc : Fits c) : ∃ r, strcmp (nameField c) e.name = some r ∧ (r = 0 ↔ e.text = c) := by
  have hsize : c.length < e.name.length := by
    rw [e.size]
    exact hc.2
  rw [nameField_eq hc, DirEntry.text]
  generalize e.name = s at hsize ⊢
  generalize replicate (maxPath - (c.length + 1)) (0 : Byte) = z
  have h0 := hc.1
  clear hc
  induction c generalizing s with
  | nil =>
    obtain ⟨b, s, rfl⟩ := exists_cons_of_length_pos hsize
    refine ⟨_, rfl, ?_⟩
    by_cases hb : b = 0
    · rw [hb]
      exact iff_of_true rfl rfl
    · rw [takeWhile_cons_of_pos (by exact decide_eq_true hb)]
      exact iff_of_false (fun h => hb (BitVec.toInt_inj.mp (Int.sub_eq_zero.mp h)).symm) (cons_ne_nil _ _)
  | cons a c ih =>
    obtain ⟨ha, h0⟩ := not_or.mp (mt mem_cons.mpr h0)
    obtain ⟨b, s, rfl⟩ := exists_cons_of_length_pos (Nat.zero_lt_of_lt hsize)
    rw [cons_append, strcmp]
    by_cases hab : a = b
    · subst hab
      obtain ⟨r, hr, hiff⟩ := ih s (Nat.lt_of_succ_lt_succ hsize) h0
      rw [if_pos ⟨Ne.symm ha, Ne.symm ha, rfl⟩, takeWhile_cons_of_pos (by exact decide_eq_true (Ne.symm ha))]
      exact ⟨r, hr, hiff.trans (cons_inj_right a).symm⟩
    · rw [if_neg (fun h => hab h.2.2)]
      refine ⟨_, rfl, iff_of_false (fun h => hab (BitVec.toInt_inj.mp (Int.sub_eq_zero.mp h))) ?_⟩
      rw [takeWhile_cons]
      split
      · exact fun h => hab (cons.inj h).1.symm
      · exact fun h => cons_ne_nil _ _ h.symm

def DirEntry.Is (c : List Byte) (e : DirEntry) : Bool := e.inum ≠ 0 ∧ e.text = c

theorem dirLookup_nameField (hc : Fits c) : dirLookup (nameField c) es = some ((es.find? (·.Is c)).map (·.inum)) := by
  induction es with
  | nil => rfl
  | cons e es ih =>
    obtain ⟨r, hr, hiff⟩ := strcmp_nameField (e := e) hc
    rw [dirLookup, hr, ih]
    by_cases hi : e.inum = 0
    · rw [if_neg (not_not.mpr hi), find?_cons_of_neg fun h => (of_decide_eq_true h).1 hi]
    · rw [if_pos hi]
      by_cases ht : e.text = c
      · rw [find?_cons_of_pos (by exact decide_eq_true ⟨hi, ht⟩)]
        exact if_pos (hiff.mpr ht)
      · rw [find?_cons_of_neg fun h => ht (of_decide_eq_true h).2]
        exact if_neg (mt hiff.mp ht)

theorem find_putEntry_self {P : DirEntry → Bool} (hfree : es.find? P = none) (he : P e = true) :
    (putEntry e es).find? P = some e := by
  induction es with
  | nil => exact find?_cons_of_pos he
  | cons x es ih =>
    have hx : ¬P x = true := find?_eq_none.mp hfree x mem_cons_self
    rw [find?_cons_of_neg hx] at hfree
    rw [putEntry]
    split
    · exact find?_cons_of_pos he
    · rw [find?_cons_of_neg hx]
      exact ih hfree

theorem find_putEntry_other {P : DirEntry → Bool} (hP : ∀ x, x.inum = 0 → ¬P x = true) (he : ¬P e = true) :
    (putEntry e es).find? P = es.find? P := by
  induction es with
  | nil => exact find?_cons_of_neg he
  | cons x es ih =>
    rw [putEntry]
    split
    next hx => rw [find?_cons_of_neg he, find?_cons_of_neg (hP x hx)]
    · rw [find?_cons, find?_cons, ih]

theorem dirLink_nameField (hc : Fits c) (hn : inum ≠ 0) (h : dirLink (nameField c) inum es = some es') :
    dirLookup (nameField c) es' = some (some inum) ∧ ∀ c' next, Fits c' →
      dirLookup (nameField c') es = some (some next) → dirLookup (nameField c') es' = some (some next) := by
  obtain ⟨e, he⟩ : ∃ e : DirEntry, e = ⟨inum, nameArray (strncpy (nameField c) maxPath), length_nameArray _⟩ := ⟨_, rfl⟩
  have htext : e.text = c := by
    rw [he, DirEntry.text]
    dsimp only
    have hne : ∀ b ∈ c, decide (b ≠ 0) = true := fun b hb => decide_eq_true fun h0 => hc.1 (h0 ▸ hb)
    rw [strncpy_nameField hc, ← nameField, nameField_eq hc, takeWhile_append_of_pos hne]
    exact append_nil _
  rw [dirLink, ← he, dirLookup_nameField hc] at h
  have hnone : es.find? (·.Is c) = none := by
    cases hf : es.find? (·.Is c) with
    | none => rfl
    | some x =>
      rw [hf] at h
      cases h
  rw [hnone] at h
  cases h
  refine ⟨?_, fun c' next hc' hnext => ?_⟩
  · have his : e.Is c = true := decide_eq_true ⟨by rw [he]; exact hn, htext⟩
    rw [dirLookup_nameField hc, find_putEntry_self hnone his, he]
    rfl
  · have hne : c' ≠ c := by
      rintro rfl
      rw [dirLookup_nameField hc, hnone] at hnext
      cases hnext
    have hother : ¬e.Is c' = true := fun h => hne ((of_decide_eq_true h).2.symm.trans htext)
    rw [dirLookup_nameField hc', find_putEntry_other (fun x hx h => (of_decide_eq_true h).1 hx) hother,
      ← dirLookup_nameField hc', hnext]

end

namespace Names

variable {t t' : Names} {parent : Bool} {i dir inum : Half} {name last path rest w : List Byte}

theorem walk_none (h : skipElem path = none) : t.walk parent i name path = if parent then none else some (i, name) := by
  rw [walk]
  split
  · rfl
  next h' => cases h.symm.trans h'

theorem walk_some (h : skipElem path = some (rest, w)) : t.walk parent i name path =
    if t.isDir i = false then none
    else if parent ∧ rest = [] then some (i, nameArray w)
    else
      match dirLookup (nameArray w) (t.entries i) with
      | some (some next) => t.walk parent next (nameArray w) rest
      | _ => none := by
  rw [walk]
  split
  next h' => cases h.symm.trans h'
  next h' =>
    cases h.symm.trans h'
    rfl

/-- The directories are the same, and what was found is found. -/
structure Extends (t t' : Names) : Prop where
  isDir : t'.isDir = t.isDir
  found : ∀ i c next, Fits c → dirLookup (nameField c) (t.entries i) = some (some next) →
    dirLookup (nameField c) (t'.entries i) = some (some next)

theorem walk_parent (hz : 0 ∉ path) (hs : ShortElems path) (h : t.walk true i name path = some (dir, last)) :
    ∃ c, Fits c ∧ last = nameField c ∧ ∀ t' inum, t.Extends t' → dirLookup last (t'.entries dir) = some (some inum) →
      ∃ name', t'.walk false i name path = some (inum, name') := by
  induction hlen : path.length using Nat.strong_induction_on generalizing path i name with
  | _ len ih =>
    cases hskip : skipElem path with
    | none =>
      rw [walk_none hskip] at h
      cases h
    | some x =>
      obtain ⟨rest, w⟩ := x
      obtain ⟨h0, hrest, rfl⟩ := skipElem_stores hz hskip
      have hc : Fits (elem path) := ⟨h0, hs path (suffix_refl _)⟩
      rw [take_of_length_le (Nat.le_of_lt hc.2)] at hskip
      rw [walk_some hskip, ← nameField] at h
      split at h
      · cases h
      next hdir =>
        split at h
        next hend =>
          obtain ⟨rfl, rfl⟩ := Prod.mk.inj (Option.some.inj h)
          refine ⟨_, hc, rfl, fun t' inum hext hfound => ⟨nameField (elem path), ?_⟩⟩
          rw [walk_some hskip, ← nameField, hext.isDir, if_neg hdir, if_neg (fun h => Bool.noConfusion h.1), hfound]
          rw [hend.2]
          exact walk_none rfl
        · split at h
          next next hnext =>
            obtain ⟨c', hc', hlast, hwalk⟩ := ih rest.length (hlen ▸ skipElem_length hskip)
              (fun hm => hz (hrest.subset hm)) (fun q hq => hs q (hq.trans hrest)) h rfl
            refine ⟨c', hc', hlast, fun t' inum hext hfound => ?_⟩
            obtain ⟨name', hname⟩ := hwalk t' inum hext hfound
            refine ⟨name', ?_⟩
            rw [walk_some hskip, ← nameField, hext.isDir, if_neg hdir, if_neg (fun h => Bool.noConfusion h.1),
              hext.found i _ next hc hnext]
            exact hname
          · cases h

theorem namei_created (hz : 0 ∉ path) (hs : ShortElems path) (hn : inum ≠ 0) (h : t.create path inum = some t') :
    ∃ name, t'.namei path false = some (inum, name) := by
  obtain ⟨⟨dir, last⟩, hwalk, h⟩ := Option.bind_eq_some_iff.mp h
  obtain ⟨es, hlink, h⟩ := Option.bind_eq_some_iff.mp h
  cases h
  obtain ⟨c, hc, rfl, hfound⟩ := walk_parent hz hs hwalk
  obtain ⟨hself, hkeeps⟩ := dirLink_nameField hc hn hlink
  refine hfound _ inum ⟨rfl, fun i c' next hc' hnext => ?_⟩ ?_
  · by_cases hi : i = dir
    · subst hi
      dsimp only
      rw [update_self]
      exact hkeeps c' next hc' hnext
    · dsimp only
      rw [update_of_ne hi]
      exact hnext
  · dsimp only
    rw [update_self]
    exact hself

end Names

/-- The text of a path, before the zero that ends it. -/
structure Path where
  text : List Byte
  ended : 0 ∉ text

/-- Wherever it stands in the path, `skip_elem` stores into `name` only and `dir_link` into its entry, which
ends with the name; and `namei` finds a file that was created. -/
def Path.Handled (path : Path) : Prop :=
  (∀ q rest w, q <:+ path.text → skipElem q = some (rest, w) →
    w.length ≤ maxPath ∧ (strncpy (nameArray w) maxPath).length ≤ maxPath) ∧
  ∀ t t' inum, inum ≠ 0 → Names.create t path.text inum = some t' →
    ∃ name, t'.namei path.text false = some (inum, name)

/-- Paths are handled well just where every component is shorter than `MAX_PATH`, and no two such components denote one
entry. -/
theorem long_names_iff (path : Path) : (path.Handled ↔ ShortElems path.text) ∧
    ∀ c c' e, Fits c → Fits c' → c ≠ c' → strcmp (nameField c) (DirEntry.name e) = some 0 →
      strcmp (nameField c') e.name ≠ some 0 := by
  refine ⟨⟨?_, ?_⟩, ?_⟩
  · rintro ⟨hstores, -⟩ q hq
    cases hskip : skipElem q with
    | none =>
      rw [elem_of_none hskip]
      decide
    | some x =>
      have hle := (hstores q x.1 x.2 hq hskip).1
      rw [(skipElem_stores (fun hm => path.ended (hq.subset hm)) hskip).2.2, length_append, length_take,
        length_singleton] at hle
      omega
  · intro hs
    refine ⟨fun q rest w hq hskip => ?_, fun t t' inum hn hcreate => Names.namei_created path.ended hs hn hcreate⟩
    obtain ⟨h0, -, rfl⟩ := skipElem_stores (fun hm => path.ended (hq.subset hm)) hskip
    have hc : Fits (elem q) := ⟨h0, hs q hq⟩
    rw [take_of_length_le (Nat.le_of_lt hc.2), ← nameField, strncpy_nameField hc, length_append]
    exact ⟨hc.2, hc.2⟩
  · intro c c' e hc hc' hne h h'
    obtain ⟨r, hr, hiff⟩ := strcmp_nameField (e := e) hc
    obtain ⟨r', hr', hiff'⟩ := strcmp_nameField (e := e) hc'
    cases hr.symm.trans h
    cases hr'.symm.trans h'
    exact hne ((hiff.mp rfl).symm.trans (hiff'.mp rfl))

/-- A component of 14 bytes: the zero behind it is stored behind `name`, and behind the entry. -/
theorem long_name_out_of_bounds : skipElem (replicate 14 0x61#8) = some ([], replicate 14 0x61#8 ++ [0]) ∧
    strncpy (nameArray (replicate 14 0x61#8 ++ [0])) maxPath = replicate 14 0x61#8 ++ [0] ∧
    maxPath < (replicate 14 0x61#8 ++ [(0 : Byte)]).length := by
  decide

end BabyOS
