import BabyOS.FsInode
import BabyOS.Runs
import BabyOS.Tally

open Function BitVec List Option

namespace BabyOS

/-- What a file of the table stands for: an inode, or one end of a pipe. -/
inductive Target
  | inode (i : InodeIx)
  | pipe (id : Nat) (writeEnd : Bool)
  deriving DecidableEq

/-- `file_t`; `none` for `TYPE_NONE`, else the type with the pointer that goes with it. -/
structure TableFile where
  target : Option Target
  ref : Word
  readable : Bool
  writeable : Bool
  offset : Word

abbrev FileIx := Fin 256

abbrev Descriptors := Fin 64 → Option FileIx

/-- The calls of `file_t::init`, and the calls of `put_inode` and `pipe_t::close` when a file is
given up. -/
inductive FileEvent
  | init (f : FileIx) (t : Target)
  | close (f : FileIx) (t : Target)

/-- The file table, the descriptors of the processes, and what was done with the files so far. -/
structure FileSys where
  files : FileIx → TableFile
  procs : ProcIx → Option Descriptors
  log : List FileEvent

namespace FileSys

def setFile (s : FileSys) (f : FileIx) (g : TableFile → TableFile) : FileSys :=
  { s with files := update s.files f (g (s.files f)) }

def setSlots (s : FileSys) (p : ProcIx) (t : Option Descriptors) : FileSys :=
  { s with procs := update s.procs p t }

def allocFile (s : FileSys) : FileSys × Option FileIx :=
  match (List.finRange 256).find? fun f => (s.files f).ref = 0 with
  | none => (s, none)
  | some f => (s.setFile f fun e => { e with ref := 1 }, some f)

/-- `file_table_t::free`, `none` where it panics. -/
def closeFile (s : FileSys) (f : FileIx) : Option FileSys :=
  if (s.files f).ref < 1 then none
  else
    let s := s.setFile f fun e => { e with ref := e.ref - 1 }
    if 0 < (s.files f).ref then some s
    else
      match (s.files f).target with
      | none => some s
      | some t => some { s.setFile f fun e => { e with target := none } with log := s.log ++ [.close f t] }

def dupFile (s : FileSys) (f : FileIx) : Option FileSys :=
  if (s.files f).ref < 1 then none else some (s.setFile f fun e => { e with ref := e.ref + 1 })

def initFile (s : FileSys) (f : FileIx) (t : Target) (readable writeable : Bool) : FileSys :=
  { s with
    files := update s.files f ⟨some t, 1, readable, writeable, 0⟩
    log := s.log ++ [.init f t] }

def freeSlot (t : Descriptors) : Option (Fin 64) := (List.finRange 64).find? fun fd => t fd = none

def allocFd (s : FileSys) (p : ProcIx) (t : Descriptors) (f : FileIx) : FileSys × Option (Fin 64) :=
  match freeSlot t with
  | none => (s, none)
  | some fd => (s.setSlots p (some (update t fd (some f))), some fd)

/-- `do_open` once the inode is found; the second part of `found` tells a directory. -/
def doOpen (s : FileSys) (p : ProcIx) (t : Descriptors) (found : Option (InodeIx × Bool)) (mode : Word) :
    Option (FileSys × Int) :=
  match found with
  | none => some (s, -1)
  | some (i, dir) =>
    if dir ∧ mode ≠ Fs.modeRdonly then some (s, -1)
    else
      match s.allocFile with
      | (s, none) => some (s, -1)
      | (s, some f) =>
        match s.allocFd p t f with
        | (s, none) => (s.closeFile f).map fun s => (s, -1)
        | (s, some fd) =>
          some (s.initFile f (.inode i) (mode &&& Fs.modeWronly = 0)
            (mode &&& Fs.modeWronly ≠ 0 ∨ mode &&& Fs.modeRdwr ≠ 0), fd.val)

theorem descriptor_lt {fd : Int} (h : 0 ≤ fd ∧ fd < 64) : fd.toNat < 64 := (Int.toNat_lt h.1).mpr h.2

def getFile (t : Descriptors) (fd : Int) : Option (Fin 64 × FileIx) :=
  if h : 0 ≤ fd ∧ fd < 64 then
    let k : Fin 64 := ⟨fd.toNat, descriptor_lt h⟩
    (t k).map fun f => (k, f)
  else none

def doClose (s : FileSys) (p : ProcIx) (t : Descriptors) (fd : Int) : Option (FileSys × Int) :=
  match getFile t fd with
  | none => some (s, 0)
  | some (k, f) => ((s.setSlots p (some (update t k none))).closeFile f).map fun s => (s, 0)

def doDup (s : FileSys) (p : ProcIx) (t : Descriptors) (fd : Int) : Option (FileSys × Int) :=
  match getFile t fd with
  | none => some (s, -1)
  | some (_, f) =>
    match s.allocFd p t f with
    | (s, none) => some (s, -1)
    | (s, some _) => (s.dupFile f).map fun s => (s, 0)

/-- The label `failed` of `alloc_pipe` and of `do_pipe`: the files that are there are given up. -/
def closeAll (s : FileSys) : List FileIx → Option FileSys
  | [] => some s
  | f :: fs => (s.closeFile f).bind fun s => closeAll s fs

def allocPipe (s : FileSys) (pool : Option Nat) : Option (FileSys × Option (FileIx × FileIx)) :=
  match s.allocFile with
  | (s, none) => some (s, none)
  | (s, some r) =>
    match s.allocFile with
    | (s, none) => (s.closeAll [r]).map fun s => (s, none)
    | (s, some w) =>
      match pool with
      | none => (s.closeAll [r, w]).map fun s => (s, none)
      | some id =>
        some ((s.initFile r (.pipe id false) true false).initFile w (.pipe id true) false true, some (r, w))

def doPipe (s : FileSys) (p : ProcIx) (t : Descriptors) (pool : Option Nat) : Option (FileSys × Int) :=
  match s.allocPipe pool with
  | none => none
  | some (s, none) => some (s, -1)
  | some (s, some (r, w)) =>
    match freeSlot t with
    | none => (s.closeAll [r, w]).map fun s => (s, -1)
    | some fd =>
      let t' := update t fd (some r)
      match freeSlot t' with
      | none => ((s.setSlots p (some (update t' fd none))).closeAll [r, w]).map fun s => (s, -1)
      | some fd' => some (s.setSlots p (some (update t' fd' (some w))), 0)

def dupFiles (s : FileSys) (t : Descriptors) : List (Fin 64) → Option FileSys
  | [] => some s
  | fd :: fds =>
    match t fd with
    | none => dupFiles s t fds
    | some f =>
      if (s.files f).target = none then dupFiles s t fds
      else (s.dupFile f).bind fun s => dupFiles s t fds

def fork (s : FileSys) (child : ProcIx) (t : Descriptors) : Option FileSys :=
  (s.dupFiles t (List.finRange 64)).map fun s => s.setSlots child (some t)

def closeFiles (s : FileSys) (t : Descriptors) : List (Fin 64) → Option FileSys
  | [] => some s
  | fd :: fds =>
    match t fd with
    | none => closeFiles s t fds
    | some f =>
      if (s.files f).target = none then closeFiles s t fds
      else (s.closeFile f).bind fun s => closeFiles s t fds

def exit (s : FileSys) (p : ProcIx) (t : Descriptors) : Option FileSys :=
  (s.closeFiles t (List.finRange 64)).map fun s => s.setSlots p none

end FileSys

/-- The calls that make and give up descriptors, with what they meet outside the file table. -/
inductive FileCall
  | open (found : Option (InodeIx × Bool)) (mode : Word)
  | close (fd : Int)
  | dup (fd : Int)
  | pipe (pool : Option Nat)
  | fork (child : ProcIx)
  | exit

namespace FileSys

/-- A call of a process that has not exited; `fork` is given a structure that is not in use. -/
def step (s : FileSys) : ProcIx × FileCall → Option (FileSys × Int)
  | (p, c) =>
    (s.procs p).bind fun t =>
      match c with
      | .open found mode => s.doOpen p t found mode
      | .close fd => s.doClose p t fd
      | .dup fd => s.doDup p t fd
      | .pipe pool => s.doPipe p t pool
      | .fork child =>
        if (s.procs child).isSome then none else (s.fork child t).map fun s => (s, 0)
      | .exit => (s.exit p t).map fun s => (s, 0)

def next (s : FileSys) (c : ProcIx × FileCall) : Option FileSys := (s.step c).map Prod.fst

/-- `file_table_t::init` has cleared the table, and no process has a descriptor. -/
structure Booted (s : FileSys) : Prop where
  files : ∀ f, (s.files f).target = none ∧ (s.files f).ref = 0
  procs : ∀ p t, s.procs p = some t → ∀ fd, t fd = none
  log : s.log = []

def slotsOf (f : FileIx) : Option Descriptors → Nat
  | none => 0
  | some t => tally (fun o => o = some f) t

def slots (s : FileSys) (f : FileIx) : Nat := ∑ p, slotsOf f (s.procs p)

/-- What a file stands for: it is initialised only while it stands for nothing, and given up once, as what it
stands for. -/
def replay (f : FileIx) : Option Target → List FileEvent → Option (Option Target)
  | t, [] => some t
  | t, .init g u :: es => if g ≠ f then replay f t es else if t = none then replay f (some u) es else none
  | t, .close g u :: es => if g ≠ f then replay f t es else if t = some u then replay f none es else none

section

variable {s s' : FileSys} {cnt : FileIx → Nat} {f g : FileIx} {t : Descriptors} {p : ProcIx} {fd : Fin 64}

theorem replay_append (o : Option Target) (es es' : List FileEvent) :
    replay f o (es ++ es') = (replay f o es).bind fun o => replay f o es' := by
  induction es generalizing o with
  | nil => rfl
  | cons e es ih =>
    cases e with
    | init g u | close g u =>
      rw [List.cons_append, replay, replay]
      split_ifs
      · exact ih o
      · exact ih _
      · rfl

structure Counted (s : FileSys) (cnt : FileIx → Nat) : Prop where
  ref : ∀ f, (s.files f).ref.toNat = cnt f
  log : ∀ f, replay f none s.log = some (s.files f).target
  free : ∀ f, cnt f = 0 → (s.files f).target = none

theorem Counted.setSlots (h : Counted s cnt) (p : ProcIx) (t : Option Descriptors) :
    Counted (s.setSlots p t) cnt :=
  ⟨h.ref, h.log, h.free⟩

theorem setFile_self (g : TableFile → TableFile) : (s.setFile f g).files f = g (s.files f) :=
  update_self _ _ _

theorem setFile_of_ne (hg : g ≠ f) (k : TableFile → TableFile) : (s.setFile f k).files g = s.files g :=
  update_of_ne hg _ _

theorem Counted.setRef (h : Counted s cnt) {r : Word} {n : Nat} (hr : r.toNat = n)
    (hn : n = 0 → (s.files f).target = none) :
    Counted (s.setFile f fun e => { e with ref := r }) (update cnt f n) := by
  refine ⟨fun g => ?_, fun g => ?_, fun g hg => ?_⟩ <;> by_cases hgf : g = f
  · subst g
    rw [setFile_self, update_self]
    exact hr
  · rw [setFile_of_ne hgf, update_of_ne hgf]
    exact h.ref g
  · subst g
    rw [setFile_self]
    exact h.log f
  · rw [setFile_of_ne hgf]
    exact h.log g
  · subst g
    rw [update_self] at hg
    rw [setFile_self]
    exact hn hg
  · rw [update_of_ne hgf] at hg
    rw [setFile_of_ne hgf]
    exact h.free g hg

theorem target_setRef (r : Word) (g : FileIx) :
    ((s.setFile f fun e => { e with ref := r }).files g).target = (s.files g).target := by
  by_cases hgf : g = f
  · subst g
    rw [setFile_self]
  · rw [setFile_of_ne hgf]

theorem Counted.allocFile (h : Counted s cnt) : s.allocFile = (s, none) ∨
    ∃ s' f, s.allocFile = (s', some f) ∧ cnt f = 0 ∧ Counted s' (update cnt f 1) ∧
      s'.procs = s.procs ∧ ∀ g, (s'.files g).target = (s.files g).target := by
  rw [FileSys.allocFile]
  cases hf : (List.finRange 256).find? fun f => (s.files f).ref = 0 with
  | none => exact Or.inl rfl
  | some f =>
    have hzero : (s.files f).ref = 0 := by simpa using List.find?_some hf
    have hcnt : cnt f = 0 := by rw [← h.ref f, hzero]; rfl
    exact Or.inr ⟨_, f, rfl, hcnt, h.setRef rfl (by simp), rfl, target_setRef 1⟩

theorem Counted.dupFile (h : Counted s cnt) (hf : 0 < cnt f) (hlt : cnt f + 1 < 2 ^ 32) :
    ∃ s', s.dupFile f = some s' ∧ Counted s' (update cnt f (cnt f + 1)) ∧ s'.procs = s.procs ∧
      ∀ g, (s'.files g).target = (s.files g).target := by
  have href := h.ref f
  have hpos : ¬(s.files f).ref < 1 := by
    rw [BitVec.not_lt, BitVec.le_def]
    exact href ▸ hf
  rw [FileSys.dupFile, if_neg hpos]
  refine ⟨_, rfl, h.setRef (r := (s.files f).ref + 1) ?_ (by omega), rfl, target_setRef _⟩
  rw [toNat_add, href]
  exact Nat.mod_eq_of_lt hlt

def giveUp (s : FileSys) (f : FileIx) (u : Target) : FileSys :=
  { s with
    files := update s.files f { s.files f with target := none, ref := 0 }
    log := s.log ++ [.close f u] }

theorem files_giveUp_of_ne {u : Target} (hg : g ≠ f) : (s.giveUp f u).files g = s.files g :=
  update_of_ne hg _ _

theorem Counted.giveUp (h : Counted s cnt) {u : Target} (hu : (s.files f).target = some u) :
    Counted (s.giveUp f u) (update cnt f 0) := by
  have hself : (s.giveUp f u).files f = { s.files f with target := none, ref := 0 } :=
    update_self _ _ _
  have hlog : ∀ g, replay g none (s.giveUp f u).log =
      if g = f then some none else some (s.files g).target := by
    intro g
    show replay g none (s.log ++ [.close f u]) = _
    rw [replay_append, h.log g, bind_some, replay]
    by_cases hgf : g = f
    · subst g
      rw [if_neg (by simp), if_pos hu, if_pos rfl]
      rfl
    · rw [if_pos (Ne.symm hgf), if_neg hgf]
      rfl
  refine ⟨fun g => ?_, fun g => ?_, fun g hg => ?_⟩ <;> by_cases hgf : g = f
  · subst g
    rw [hself, update_self]
    rfl
  · rw [files_giveUp_of_ne hgf, update_of_ne hgf]
    exact h.ref g
  · rw [hlog, if_pos hgf, hgf, hself]
  · rw [hlog, if_neg hgf, files_giveUp_of_ne hgf]
  · rw [hgf, hself]
  · rw [update_of_ne hgf] at hg
    rw [files_giveUp_of_ne hgf]
    exact h.free g hg

theorem Counted.closeFile (h : Counted s cnt) (hf : 0 < cnt f) :
    ∃ s', s.closeFile f = some s' ∧ Counted s' (update cnt f (cnt f - 1)) ∧ s'.procs = s.procs ∧
      ∀ g, g ≠ f ∨ 1 < cnt f → (s'.files g).target = (s.files g).target := by
  have href := h.ref f
  have hpos : ¬(s.files f).ref < 1 := by
    rw [BitVec.not_lt, BitVec.le_def]
    exact href ▸ hf
  have hdec : ((s.files f).ref - 1).toNat = cnt f - 1 := by
    rw [toNat_sub_of_le (by rw [le_def]; exact href ▸ hf), href]
    rfl
  rw [FileSys.closeFile, if_neg hpos]
  dsimp only
  rw [setFile_self]
  by_cases hlast : cnt f = 1
  · have hzero : ¬(0 : Word) < (s.files f).ref - 1 := by
      rw [lt_def, hdec, hlast]
      decide
    rw [if_neg hzero]
    cases ht : (s.files f).target with
    | none =>
      exact ⟨_, rfl, h.setRef (r := (s.files f).ref - 1) hdec fun _ => ht, rfl, fun g _ => target_setRef _ g⟩
    | some u =>
      have hr : (s.files f).ref - 1 = 0 := eq_of_toNat_eq (by rw [hdec, hlast]; rfl)
      refine ⟨s.giveUp f u, ?_, ?_, rfl, fun g hg => ?_⟩
      · simp only [FileSys.setFile, update_self, update_idem, hr, FileSys.giveUp]
      · rw [hlast]
        exact h.giveUp ht
      · rw [files_giveUp_of_ne (hg.resolve_right (by omega))]
  · have hmore : (0 : Word) < (s.files f).ref - 1 := by
      rw [lt_def, hdec]
      show 0 < _
      omega
    rw [if_pos hmore]
    exact ⟨_, rfl, h.setRef (r := (s.files f).ref - 1) hdec (by omega), rfl, fun g _ => target_setRef _ g⟩

theorem Counted.initFile (h : Counted s cnt) (hone : cnt f = 1) (hnone : (s.files f).target = none)
    (u : Target) (r w : Bool) : Counted (s.initFile f u r w) cnt := by
  have hself : (s.initFile f u r w).files f = ⟨some u, 1, r, w, 0⟩ := update_self _ _ _
  have hne : ∀ {g}, g ≠ f → (s.initFile f u r w).files g = s.files g :=
    fun hg => update_of_ne hg _ _
  refine ⟨fun g => ?_, fun g => ?_, fun g hg => ?_⟩ <;> by_cases hgf : g = f
  · rw [hgf, hself, hone]
    rfl
  · rw [hne hgf]
    exact h.ref g
  · subst g
    show replay f none (s.log ++ [.init f u]) = _
    rw [replay_append, h.log f, bind_some, replay, if_neg (by simp), if_pos hnone, hself]
    rfl
  · show replay g none (s.log ++ [.init f u]) = _
    rw [replay_append, h.log g, bind_some, replay, if_pos (Ne.symm hgf), hne hgf]
    rfl
  · rw [hgf, hone] at hg
    omega
  · rw [hne hgf]
    exact h.free g hg

theorem target_initFile (u : Target) (r w : Bool) (g : FileIx) :
    ((s.initFile f u r w).files g).target = if g = f then some u else (s.files g).target := by
  by_cases hgf : g = f
  · rw [if_pos hgf, hgf]
    exact congrArg _ (update_self _ _ _)
  · rw [if_neg hgf]
    exact congrArg _ (update_of_ne hgf _ _)

theorem Counted.dupFiles (h : Counted s cnt) (l : List (Fin 64))
    (hset : ∀ fd f, t fd = some f → 0 < cnt f ∧ (s.files f).target ≠ none)
    (hlt : ∀ f, cnt f + l.length < 2 ^ 32) :
    ∃ s', s.dupFiles t l = some s' ∧ Counted s' (fun f => cnt f + l.countP fun fd => t fd = some f) ∧
      s'.procs = s.procs ∧ ∀ g, (s'.files g).target = (s.files g).target := by
  induction l generalizing s cnt with
  | nil => exact ⟨s, rfl, by simpa using h, rfl, fun _ => rfl⟩
  | cons fd l ih =>
    rw [FileSys.dupFiles]
    cases hf : t fd with
    | none =>
      obtain ⟨s', he, hc, hrest⟩ := ih h hset fun f => by
        have := hlt f
        rw [length_cons] at this
        omega
      refine ⟨s', he, ?_, hrest⟩
      simpa [countP_cons, hf] using hc
    | some f =>
      obtain ⟨hpos, htarget⟩ := hset fd f hf
      have hlen : cnt f + (l.length + 1) < 2 ^ 32 := hlt f
      obtain ⟨s1, h1, hc1, hp1, ht1⟩ := h.dupFile hpos (by omega)
      have hset1 : ∀ fd g, t fd = some g → 0 < update cnt f (cnt f + 1) g ∧
          (s1.files g).target ≠ none := by
        intro k g hg
        rw [ht1, update_apply]
        refine ⟨?_, (hset k g hg).2⟩
        split_ifs
        · omega
        · exact (hset k g hg).1
      obtain ⟨s', he, hc, hp, ht⟩ := ih hc1 hset1 fun g => by
        have := hlt g
        rw [length_cons] at this
        rw [update_apply]
        split_ifs with hgf
        · subst g
          omega
        · omega
      dsimp only
      rw [if_neg htarget, h1, bind_some]
      refine ⟨s', he, ?_, hp.trans hp1, fun g => (ht g).trans (ht1 g)⟩
      have hcount : (fun g => cnt g + (fd :: l).countP fun k => t k = some g) =
          fun g => update cnt f (cnt f + 1) g + l.countP fun k => t k = some g := by
        funext g
        rw [countP_cons, update_apply, hf]
        by_cases hgf : g = f
        · subst g
          simp
          omega
        · simp [hgf, Ne.symm hgf]
      rw [hcount]
      exact hc

theorem Counted.closeFiles {base : FileIx → Nat} (l : List (Fin 64))
    (h : Counted s fun f => base f + l.countP fun fd => t fd = some f)
    (hset : ∀ f, 0 < base f + l.countP (fun fd => t fd = some f) → (s.files f).target ≠ none) :
    ∃ s', s.closeFiles t l = some s' ∧ Counted s' base ∧ s'.procs = s.procs ∧
      ∀ f, 0 < base f → (s'.files f).target ≠ none := by
  induction l generalizing s with
  | nil => exact ⟨s, rfl, by simpa using h, rfl, fun f hf => hset f (by simpa using hf)⟩
  | cons fd l ih =>
    rw [FileSys.closeFiles]
    cases hf : t fd with
    | none =>
      refine ih (by simpa [countP_cons, hf] using h) fun f hpos => hset f ?_
      simpa [countP_cons, hf] using hpos
    | some f =>
      have hmem : 0 < base f + (fd :: l).countP fun k => t k = some f := by
        rw [countP_cons_of_pos (by simpa using hf)]
        omega
      obtain ⟨s1, h1, hc1, hp1, ht1⟩ := h.closeFile hmem
      have hcount : update (fun f => base f + (fd :: l).countP fun k => t k = some f) f
          (base f + (fd :: l).countP (fun k => t k = some f) - 1) =
          fun g => base g + l.countP fun k => t k = some g := by
        funext g
        rw [update_apply]
        split_ifs with hgf
        · subst g
          rw [countP_cons_of_pos (by simpa using hf)]
          omega
        · rw [countP_cons_of_neg (by simp [hf, Ne.symm hgf])]
      rw [hcount] at hc1
      dsimp only
      rw [if_neg (hset f hmem), h1, bind_some]
      have hset1 : ∀ g, 0 < base g + l.countP (fun k => t k = some g) → (s1.files g).target ≠ none := by
        intro g hg
        have hle : l.countP (fun k => t k = some g) ≤ (fd :: l).countP fun k => t k = some g :=
          (sublist_cons_self fd l).countP_le
        rw [ht1 g]
        · exact hset g (by omega)
        · by_cases hgf : g = f
          · subst g
            rw [countP_cons_of_pos (by simpa using hf)]
            exact Or.inr (by omega)
          · exact Or.inl hgf
      obtain ⟨s', he, hc, hp, ht⟩ := ih hc1 hset1
      exact ⟨s', he, hc, hp.trans hp1, ht⟩

theorem slotsOf_none (f : FileIx) : slotsOf f none = 0 := rfl

theorem slotsOf_some (f : FileIx) (t : Descriptors) :
    slotsOf f (some t) = tally (fun o => o = some f) t := rfl

theorem slotsOf_eq (f : FileIx) (t : Descriptors) :
    slotsOf f (some t) = (List.finRange 64).countP fun fd => t fd = some f := by
  rw [slotsOf_some, tally_fin]

theorem slots_setSlots (s : FileSys) (p : ProcIx) (o : Option Descriptors) (f : FileIx) :
    (s.setSlots p o).slots f + slotsOf f (s.procs p) = s.slots f + slotsOf f o :=
  sum_update (slotsOf f) s.procs p o

theorem slots_congr (h : s'.procs = s.procs) : s'.slots = s.slots := by
  funext f
  rw [slots, slots, h]

theorem slotsOf_le (f : FileIx) (o : Option Descriptors) : slotsOf f o ≤ 64 := by
  cases o with
  | none => exact Nat.zero_le _
  | some t =>
    rw [slotsOf_eq]
    exact countP_le_length.trans (by simp)

theorem slots_le (s : FileSys) (f : FileIx) : s.slots f ≤ 33554432 := by
  have hle : s.slots f ≤ ∑ _p : ProcIx, 64 := Finset.sum_le_sum fun p _ => slotsOf_le f (s.procs p)
  simpa using hle

theorem slots_pos (hp : s.procs p = some t) (hfd : t fd = some f) : 0 < s.slots f := by
  have hone : 0 < slotsOf f (s.procs p) := by
    rw [hp, slotsOf_some]
    exact tally_pos (i := fd) hfd
  exact lt_of_lt_of_le hone (Finset.single_le_sum (f := fun p => slotsOf f (s.procs p))
    (fun _ _ => Nat.zero_le _) (Finset.mem_univ p))

theorem freeSlot_none (h : freeSlot t = some fd) : t fd = none := by
  simpa using List.find?_some h

structure Sound (s : FileSys) : Prop where
  counted : Counted s s.slots
  set : ∀ f, 0 < s.slots f → (s.files f).target ≠ none

theorem slots_update (hp : s.procs p = some t) (fd : Fin 64) (o : Option FileIx) (f : FileIx) :
    (s.setSlots p (some (update t fd o))).slots f + (if t fd = some f then 1 else 0) =
      s.slots f + if o = some f then 1 else 0 := by
  have hsum := slots_setSlots s p (some (update t fd o)) f
  have hupd := tally_update (P := fun o => o = some f) t fd o
  rw [← slotsOf_some, ← slotsOf_some] at hupd
  rw [hp] at hsum
  omega

theorem slots_put (hp : s.procs p = some t) (hfd : t fd = none) (g : FileIx) :
    (s.setSlots p (some (update t fd (some g)))).slots = update s.slots g (s.slots g + 1) := by
  funext f
  have hupd := slots_update hp fd (some g) f
  rw [hfd, if_neg (by simp), Nat.add_zero] at hupd
  rw [hupd, update_apply]
  by_cases hfg : f = g
  · subst g
    simp
  · simp [hfg, Ne.symm hfg]

theorem slots_drop (hp : s.procs p = some t) (hfd : t fd = some g) :
    (s.setSlots p (some (update t fd none))).slots = update s.slots g (s.slots g - 1) := by
  funext f
  have hupd := slots_update hp fd none f
  rw [hfd, if_neg (show ¬none = some f by simp), Nat.add_zero] at hupd
  rw [update_apply]
  by_cases hfg : f = g
  · subst g
    simp at hupd
    simp
    omega
  · simp [Ne.symm hfg] at hupd
    simp [hfg, hupd]

theorem allocFd_cases (s : FileSys) (p : ProcIx) (t : Descriptors) (f : FileIx) :
    s.allocFd p t f = (s, none) ∨ ∃ fd, t fd = none ∧
        s.allocFd p t f = (s.setSlots p (some (update t fd (some f))), some fd) := by
  rw [allocFd]
  cases hfd : freeSlot t with
  | none => exact Or.inl rfl
  | some fd => exact Or.inr ⟨fd, freeSlot_none hfd, rfl⟩

theorem Sound.giveBack (h : Sound s) {s1 : FileSys} (hc : Counted s1 (update s.slots f 1))
    (hf : s.slots f = 0) (hp : s1.procs = s.procs)
    (ht : ∀ g, g ≠ f → (s1.files g).target = (s.files g).target) :
    ∃ s2, s1.closeFile f = some s2 ∧ Sound s2 := by
  obtain ⟨s2, h2, hc2, hp2, ht2⟩ := hc.closeFile (f := f) (by rw [update_self]; omega)
  have hslots : s2.slots = s.slots := (slots_congr hp2).trans (slots_congr hp)
  rw [update_self, update_idem, Nat.sub_self, ← hf, update_eq_self] at hc2
  refine ⟨s2, h2, by rw [hslots]; exact hc2, fun g hg => ?_⟩
  rw [hslots] at hg
  have hgf : g ≠ f := by
    rintro rfl
    omega
  rw [ht2 g (Or.inl hgf), ht g hgf]
  exact h.set g hg

section

variable (h : Sound s) (hp : s.procs p = some t)
include h hp

theorem Sound.doOpen (found : Option (InodeIx × Bool)) (mode : Word) :
    ∃ s' r, s.doOpen p t found mode = some (s', r) ∧ Sound s' := by
  unfold FileSys.doOpen
  cases found with
  | none => exact ⟨s, -1, rfl, h⟩
  | some found =>
    dsimp only
    split_ifs with hdir
    · exact ⟨s, -1, rfl, h⟩
    rcases h.counted.allocFile with ha | ⟨s1, f, ha, hf, hc1, hp1, ht1⟩
    · rw [ha]
      exact ⟨s, -1, rfl, h⟩
    · rw [ha]
      dsimp only
      have hp1' : s1.procs p = some t := by rw [hp1, hp]
      rcases allocFd_cases s1 p t f with hfd | ⟨fd, hfd, hal⟩
      · obtain ⟨s2, h2, hs2⟩ := h.giveBack hc1 hf hp1 fun g _ => ht1 g
        rw [hfd]
        dsimp only
        rw [h2]
        exact ⟨s2, -1, rfl, hs2⟩
      · rw [hal]
        have hslots : (s1.setSlots p (some (update t fd (some f)))).slots =
            update s.slots f 1 := by
          rw [slots_put hp1' hfd, slots_congr hp1, hf]
        have htarget : ((s1.setSlots p (some (update t fd (some f)))).files f).target = none :=
          (ht1 f).trans (h.counted.free f hf)
        refine ⟨_, _, rfl, ⟨?_, fun g hg => ?_⟩⟩
        · refine Counted.initFile ?_ ?_ htarget _ _ _
          · show Counted _ (FileSys.slots (s1.setSlots p (some (update t fd (some f)))))
            rw [hslots]
            exact hc1.setSlots _ _
          · show FileSys.slots (s1.setSlots p (some (update t fd (some f)))) f = 1
            rw [hslots, update_self]
        · have hg' : 0 < FileSys.slots (s1.setSlots p (some (update t fd (some f)))) g := hg
          rw [hslots] at hg'
          rw [target_initFile]
          split_ifs with hgf
          · simp
          · rw [update_of_ne hgf] at hg'
            exact (ht1 g).symm ▸ h.set g hg'

omit h hp in
theorem getFile_some {k : Fin 64} {n : Int} (h : getFile t n = some (k, f)) : t k = some f := by
  unfold getFile at h
  split at h
  next hn =>
    obtain ⟨g, hg, he⟩ := map_eq_some_iff.mp h
    cases he
    exact hg
  next => simp at h

theorem Sound.doClose (n : Int) : ∃ s' r, s.doClose p t n = some (s', r) ∧ Sound s' := by
  unfold FileSys.doClose
  cases hg : getFile t n with
  | none => exact ⟨s, 0, rfl, h⟩
  | some kf =>
    obtain ⟨k, f⟩ := kf
    have hk := getFile_some hg
    have hpos := slots_pos hp hk
    obtain ⟨s2, h2, hc2, hp2, ht2⟩ :=
      (h.counted.setSlots p (some (update t k none))).closeFile hpos
    have hslots := (slots_congr hp2).trans (slots_drop hp hk)
    dsimp only
    rw [h2]
    refine ⟨s2, 0, rfl, by rw [hslots]; exact hc2, fun g hg => ?_⟩
    rw [hslots, update_apply] at hg
    split_ifs at hg with hgf
    · subst g
      rw [ht2 f (Or.inr (by omega))]
      exact h.set f hpos
    · rw [ht2 g (Or.inl hgf)]
      exact h.set g hg

theorem Sound.doDup (n : Int) : ∃ s' r, s.doDup p t n = some (s', r) ∧ Sound s' := by
  unfold FileSys.doDup
  cases hg : getFile t n with
  | none => exact ⟨s, -1, rfl, h⟩
  | some kf =>
    obtain ⟨k, f⟩ := kf
    have hpos := slots_pos hp (getFile_some hg)
    have hle := s.slots_le f
    dsimp only
    rcases allocFd_cases s p t f with hfd | ⟨fd, hfd, hal⟩
    · rw [hfd]
      exact ⟨s, -1, rfl, h⟩
    · obtain ⟨s2, h2, hc2, hp2, ht2⟩ :=
        (h.counted.setSlots p (some (update t fd (some f)))).dupFile hpos (by omega)
      have hslots := (slots_congr hp2).trans (slots_put hp hfd f)
      rw [hal]
      dsimp only
      rw [h2]
      refine ⟨s2, 0, rfl, by rw [hslots]; exact hc2, fun g hg => ?_⟩
      rw [hslots, update_apply] at hg
      rw [ht2 g]
      split_ifs at hg with hgf
      · subst g
        exact h.set f hpos
      · exact h.set g hg

theorem Sound.fork {child : ProcIx} (hc : s.procs child = none) : ∃ s', s.fork child t = some s' ∧ Sound s' := by
  have hset : ∀ fd f, t fd = some f → 0 < s.slots f ∧ (s.files f).target ≠ none := fun fd f hf =>
    ⟨slots_pos hp hf, h.set f (slots_pos hp hf)⟩
  obtain ⟨s1, h1, hc1, hp1, ht1⟩ := h.counted.dupFiles (List.finRange 64) hset fun f => by
    have := s.slots_le f
    rw [length_finRange]
    omega
  have hslots : (s1.setSlots child (some t)).slots =
      fun f => s.slots f + (List.finRange 64).countP fun fd => t fd = some f := by
    funext f
    have hsum := slots_setSlots s1 child (some t) f
    rw [hp1, hc, slots_congr hp1, slotsOf_eq, slotsOf_none, Nat.add_zero] at hsum
    exact hsum
  refine ⟨s1.setSlots child (some t), by rw [FileSys.fork, h1]; rfl, ⟨?_, fun g hg => ?_⟩⟩
  · rw [hslots]
    exact hc1.setSlots _ _
  · rw [hslots] at hg
    dsimp only at hg
    show (s1.files g).target ≠ none
    rw [ht1 g]
    rcases Nat.eq_zero_or_pos (s.slots g) with hz | hpos
    · rw [hz, Nat.zero_add, countP_pos_iff] at hg
      obtain ⟨fd, -, hfd⟩ := hg
      exact (hset fd g (by simpa using hfd)).2
    · exact h.set g hpos

theorem Sound.exit : ∃ s', s.exit p t = some s' ∧ Sound s' := by
  have hbase : ∀ f, (s.setSlots p none).slots f + (List.finRange 64).countP (fun fd => t fd = some f) =
      s.slots f := by
    intro f
    have hsum := slots_setSlots s p none f
    rw [hp, slotsOf_eq, slotsOf_none, Nat.add_zero] at hsum
    exact hsum
  have hcounted : Counted s fun f => (s.setSlots p none).slots f +
      (List.finRange 64).countP fun fd => t fd = some f := by
    simp only [hbase]
    exact h.counted
  obtain ⟨s1, h1, hc1, hp1, ht1⟩ := hcounted.closeFiles (List.finRange 64)
    fun f hf => h.set f (by rwa [hbase] at hf)
  have hslots : (s1.setSlots p none).slots = (s.setSlots p none).slots :=
    slots_congr (by simp only [FileSys.setSlots, hp1])
  refine ⟨s1.setSlots p none, by rw [FileSys.exit, h1]; rfl, ⟨?_, fun g hg => ?_⟩⟩
  · rw [hslots]
    exact hc1.setSlots _ _
  · rw [hslots] at hg
    exact ht1 g hg

omit h hp in
theorem Sound.giveBackTwo (h : Sound s) {s1 : FileSys} {r w : FileIx} (hrw : w ≠ r) (hr : s.slots r = 0)
    (hw : s.slots w = 0) (hc : Counted s1 (update (update s.slots r 1) w 1))
    (hp : s1.procs = s.procs)
    (ht : ∀ g, g ≠ r → g ≠ w → (s1.files g).target = (s.files g).target) :
    ∃ s2, s1.closeAll [r, w] = some s2 ∧ Sound s2 := by
  rw [update_comm hrw.symm] at hc
  obtain ⟨s2, h2, hc2, hp2, ht2⟩ := hc.closeFile (f := r) (by rw [update_self]; omega)
  have hback : update (update s.slots w 1) r 0 = update s.slots w 1 := by
    rw [update_comm hrw, ← hr, update_eq_self]
  rw [update_self, update_idem, Nat.sub_self, hback] at hc2
  have ht' : ∀ g, g ≠ w → (s2.files g).target = (s.files g).target := by
    intro g hgw
    by_cases hgr : g = r
    · subst g
      rw [h.counted.free r hr]
      exact hc2.free r (by rw [update_of_ne hrw.symm, hr])
    · rw [ht2 g (Or.inl hgr), ht g hgr hgw]
  obtain ⟨s3, h3, hs3⟩ := h.giveBack hc2 hw (hp2.trans hp) ht'
  refine ⟨s3, ?_, hs3⟩
  rw [closeAll, h2, bind_some, closeAll, h3]
  rfl

omit h hp in
theorem Sound.allocPipe (h : Sound s) (pool : Option Nat) :
    (∃ s', s.allocPipe pool = some (s', none) ∧ Sound s') ∨
      ∃ s' r w, s.allocPipe pool = some (s', some (r, w)) ∧ w ≠ r ∧ s.slots r = 0 ∧ s.slots w = 0 ∧
        Counted s' (update (update s.slots r 1) w 1) ∧ s'.procs = s.procs ∧
        (s'.files r).target ≠ none ∧ (s'.files w).target ≠ none ∧
        ∀ g, g ≠ r → g ≠ w → (s'.files g).target = (s.files g).target := by
  unfold FileSys.allocPipe
  rcases h.counted.allocFile with ha | ⟨s1, r, ha, hr, hc1, hp1, ht1⟩
  · rw [ha]
    exact Or.inl ⟨s, rfl, h⟩
  rw [ha]
  dsimp only
  rcases hc1.allocFile with hb | ⟨s2, w, hb, hw, hc2, hp2, ht2⟩
  · obtain ⟨s2, h2, hs2⟩ := h.giveBack hc1 hr hp1 fun g _ => ht1 g
    rw [hb]
    dsimp only
    rw [closeAll, h2]
    exact Or.inl ⟨s2, rfl, hs2⟩
  rw [hb]
  have hwr : w ≠ r := by
    rintro rfl
    simp at hw
  rw [update_of_ne hwr] at hw
  cases pool with
  | none =>
    obtain ⟨s3, h3, hs3⟩ := h.giveBackTwo hwr hr hw hc2 (hp2.trans hp1) fun g _ _ => (ht2 g).trans (ht1 g)
    dsimp only
    rw [h3]
    exact Or.inl ⟨s3, rfl, hs3⟩
  | some id =>
    refine Or.inr ⟨_, r, w, rfl, hwr, hr, hw, ?_, hp2.trans hp1, ?_, ?_, fun g hgr hgw => ?_⟩
    · refine (hc2.initFile ?_ ?_ _ _ _).initFile ?_ ?_ _ _ _
      · rw [update_of_ne hwr.symm, update_self]
      · rw [ht2, ht1, h.counted.free r hr]
      · rw [update_self]
      · rw [target_initFile, if_neg hwr, ht2, ht1, h.counted.free w hw]
    · rw [target_initFile, if_neg hwr.symm, target_initFile, if_pos rfl]
      simp
    · rw [target_initFile, if_pos rfl]
      simp
    · rw [target_initFile, if_neg hgw, target_initFile, if_neg hgr, ht2, ht1]


theorem Sound.doPipe (pool : Option Nat) : ∃ s' r, s.doPipe p t pool = some (s', r) ∧ Sound s' := by
  unfold FileSys.doPipe
  rcases h.allocPipe pool with ⟨s1, h1, hs1⟩ | ⟨s1, r, w, h1, hwr, hr, hw, hc1, hp1, htr, htw, ht1⟩
  · rw [h1]
    exact ⟨s1, -1, rfl, hs1⟩
  rw [h1]
  dsimp only
  cases hfd : freeSlot t with
  | none =>
    obtain ⟨s2, h2, hs2⟩ := h.giveBackTwo hwr hr hw hc1 hp1 ht1
    dsimp only
    rw [h2]
    exact ⟨s2, -1, rfl, hs2⟩
  | some fd =>
    have hnone := freeSlot_none hfd
    dsimp only
    cases hfd' : freeSlot (update t fd (some r)) with
    | none =>
      have hsame : update (update t fd (some r)) fd none = t := by
        rw [update_idem, ← hnone, update_eq_self]
      have hprocs : (s1.setSlots p (some t)).procs = s.procs := by
        show update s1.procs p (some t) = s.procs
        rw [hp1, ← hp, update_eq_self]
      obtain ⟨s2, h2, hs2⟩ := h.giveBackTwo hwr hr hw (hc1.setSlots p (some t)) hprocs ht1
      rw [hsame, h2]
      exact ⟨s2, -1, rfl, hs2⟩
    | some fd' =>
      have hnone' := freeSlot_none hfd'
      have hslots : (s1.setSlots p (some (update (update t fd (some r)) fd' (some w)))).slots =
          update (update s.slots r 1) w 1 := by
        have hput := slots_put (s := s1) (p := p) (by rw [hp1, hp]) hnone r
        have hput' := slots_put (s := s1.setSlots p (some (update t fd (some r)))) (p := p)
          (update_self _ _ _) hnone' w
        rw [hput, slots_congr hp1, hr, update_of_ne hwr, hw] at hput'
        rw [← hput']
        exact slots_congr (by simp only [FileSys.setSlots, update_idem])
      refine ⟨_, 0, rfl, ⟨?_, fun g hg => ?_⟩⟩
      · rw [hslots]
        exact hc1.setSlots _ _
      · rw [hslots] at hg
        show (s1.files g).target ≠ none
        by_cases hgw : g = w
        · rw [hgw]
          exact htw
        · by_cases hgr : g = r
          · rw [hgr]
            exact htr
          · rw [update_of_ne hgw, update_of_ne hgr] at hg
            rw [ht1 g hgr hgw]
            exact h.set g hg

theorem Sound.step {c : FileCall} (hfork : ∀ child, c = .fork child → s.procs child = none) :
    ∃ s' r, s.step (p, c) = some (s', r) ∧ Sound s' := by
  rw [FileSys.step, hp, bind_some]
  cases c with
  | «open» found mode => exact h.doOpen hp found mode
  | close fd => exact h.doClose hp fd
  | dup fd => exact h.doDup hp fd
  | pipe pool => exact h.doPipe hp pool
  | fork child =>
    have hc := hfork child rfl
    obtain ⟨s', hs', hs⟩ := h.fork hp hc
    dsimp only
    rw [if_neg (by simp [hc]), hs']
    exact ⟨s', 0, rfl, hs⟩
  | exit =>
    obtain ⟨s', hs', hs⟩ := h.exit hp
    rw [hs']
    exact ⟨s', 0, rfl, hs⟩

end

theorem Sound.next (h : Sound s) {c : ProcIx × FileCall} (hs : s.next c = some s') : Sound s' := by
  obtain ⟨p, c⟩ := c
  obtain ⟨⟨s1, r⟩, hstep, rfl⟩ := map_eq_some_iff.mp hs
  obtain ⟨t, hp, -⟩ := bind_eq_some_iff.mp hstep
  have hfork : ∀ child, c = .fork child → s.procs child = none := by
    rintro child rfl
    rw [FileSys.step, hp, bind_some] at hstep
    dsimp only at hstep
    split_ifs at hstep with hc
    simpa using hc
  obtain ⟨s2, r2, hstep2, hs2⟩ := h.step hp hfork
  cases some.inj (hstep.symm.trans hstep2)
  exact hs2

theorem Booted.sound (h : Booted s) : Sound s := by
  have hslots : ∀ f, s.slots f = 0 := by
    intro f
    refine Finset.sum_eq_zero fun p _ => ?_
    cases hp : s.procs p with
    | none => rfl
    | some t =>
      rw [slotsOf_some]
      exact tally_eq_zero fun fd => by simp [h.procs p t hp fd]
  refine ⟨⟨fun f => ?_, fun f => ?_, fun f _ => (h.files f).1⟩, fun f hf => ?_⟩
  · rw [hslots, (h.files f).2]
    rfl
  · rw [h.log, (h.files f).1]
    rfl
  · rw [hslots] at hf
    omega

/-- After every call the counter of a file is the number of descriptors that point to it; each initialisation of
a file but the last was followed by one close, and so was the last if no descriptor is left. The next call of
any process returns. -/
theorem file_refs_count_descriptors {s0 : FileSys} {calls : List (ProcIx × FileCall)} (hboot : Booted s0)
    (hrun : run next s0 calls = some s) :
    (∀ f, (s.files f).ref.toNat = s.slots f ∧
      replay f none s.log = some (s.files f).target ∧ ((s.files f).target = none ↔ s.slots f = 0)) ∧
    ∀ p c, (s.procs p).isSome → (∀ child, c = .fork child → s.procs child = none) →
      (s.next (p, c)).isSome := by
  have hsound : Sound s := run_invariant (I := Sound) (P := fun _ _ => True)
    (fun _ _ _ h _ hs => h.next hs) hboot.sound (along_true _ _) hrun
  refine ⟨fun f => ⟨hsound.counted.ref f, hsound.counted.log f, fun hnone => ?_, hsound.counted.free f⟩,
    fun p c hp hfork => ?_⟩
  · by_contra hne
    exact hsound.set f (Nat.pos_of_ne_zero hne) hnone
  · obtain ⟨t, ht⟩ := isSome_iff_exists.mp hp
    obtain ⟨s', r, hs', -⟩ := hsound.step ht hfork
    rw [FileSys.next, hs']
    rfl

def atBoot : FileSys where
  files _ := ⟨none, 0, false, false, 0⟩
  procs p := if p.val = 0 then some fun _ => none else none
  log := []

theorem booted_atBoot : Booted atBoot := by
  refine ⟨fun _ => ⟨rfl, rfl⟩, fun p t hp fd => ?_, rfl⟩
  simp only [atBoot] at hp
  split_ifs at hp
  exact congrFun (some.inj hp).symm fd

theorem file_refs_count_descriptors_fork : ∃ s, run next atBoot
    [(0, .open (some (5, false)) 0), (0, .dup 0), (0, .fork 1), (0, .close 0), (1, .pipe (some 7)), (0, .exit)] =
      some s ∧ (s.files 0).ref.toNat = 2 ∧ s.slots 0 = 2 := by
  obtain ⟨s, hs, href⟩ : ∃ s, run next atBoot
      [(0, .open (some (5, false)) 0), (0, .dup 0), (0, .fork 1), (0, .close 0), (1, .pipe (some 7)),
        (0, .exit)] = some s ∧ (s.files 0).ref.toNat = 2 := ⟨_, rfl, rfl⟩
  exact ⟨s, hs, href, ((file_refs_count_descriptors booted_atBoot hs).1 0).1 ▸ href⟩

end

end FileSys

end BabyOS
