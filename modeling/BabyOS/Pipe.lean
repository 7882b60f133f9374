import BabyOS.Bytes
import BabyOS.RingLog
import BabyOS.Sem
import Mathlib.Data.List.Perm.Subperm

open Function List Option

namespace BabyOS

def pipeBufSize : Nat := 512

structure Pipe (Proc : Type) where
  buffer : Nat → Byte
  readIndex : Nat
  writeIndex : Nat
  space : Sem Proc
  item : Sem Proc
  readable : Bool
  writable : Bool

namespace Pipe

variable {Proc : Type} [DecidableEq Proc]

def init (mem : Nat → Byte) : Pipe Proc := ⟨mem, 0, 0, .init (.ofNat 32 pipeBufSize), .init 0, true, true⟩

def getChar (s : Pipe Proc) : Option Byte × Pipe Proc :=
  if s.readable then
    (some (s.buffer s.readIndex), { s with readIndex := (s.readIndex + 1) % pipeBufSize })
  else (none, s)

def putChar (s : Pipe Proc) (ch : Byte) : Bool × Pipe Proc :=
  if s.writable then
    (true, { s with
      buffer := update s.buffer s.writeIndex ch
      writeIndex := (s.writeIndex + 1) % pipeBufSize })
  else (false, s)

def close (s : Pipe Proc) (writeEnd : Bool) : Pipe Proc :=
  if writeEnd then { s with writable := false, item := s.item.up.2 }
  else { s with readable := false, space := s.space.up.2 }

end Pipe

/-- Where a process is in `put_char` or `get_char`: asleep in `down`, before the locked access, before `up`. -/
inductive PipePlace where
  | outside
  | putAsleep
  | putReady
  | putLeaving
  | getAsleep
  | getReady
  | getLeaving
  deriving DecidableEq

/-- A pipe and its processes, with the argument of the `put_char` that each is in; the bytes that `put_char` has
stored and `get_char` has returned, in order; how often the object was freed, and whether it was used after
that. -/
structure PipeSys (Proc : Type) where
  pipe : Pipe Proc
  place : Proc → PipePlace
  ch : Proc → Byte
  stored : List Byte
  taken : List Byte
  freed : Nat
  touched : Bool

inductive PipeAct (Proc : Type) where
  | put (p : Proc) (ch : Byte)
  | putResume (p : Proc)
  | putAccess (p : Proc)
  | putLeave (p : Proc)
  | get (p : Proc)
  | getResume (p : Proc)
  | getAccess (p : Proc)
  | getLeave (p : Proc)
  | close (writeEnd : Bool)

namespace PipeSys

variable {Proc : Type} [DecidableEq Proc]

def init (mem : Nat → Byte) : PipeSys Proc := ⟨.init mem, fun _ => .outside, fun _ => 0, [], [], 0, false⟩

def setPlace (s : PipeSys Proc) (p : Proc) (x : PipePlace) : PipeSys Proc :=
  { s with place := update s.place p x }

def setPipe (s : PipeSys Proc) (x : Pipe Proc) : PipeSys Proc := { s with pipe := x }

def setSpace (s : PipeSys Proc) (x : Sem Proc) : PipeSys Proc := s.setPipe { s.pipe with space := x }

def setItem (s : PipeSys Proc) (x : Sem Proc) : PipeSys Proc := s.setPipe { s.pipe with item := x }

def putAccess (s : PipeSys Proc) (p : Proc) : PipeSys Proc :=
  let x := s.pipe.putChar (s.ch p)
  { (s.setPipe x.2).setPlace p .putLeaving with stored := if x.1 then s.stored ++ [s.ch p] else s.stored }

def getAccess (s : PipeSys Proc) (p : Proc) : PipeSys Proc :=
  let x := s.pipe.getChar
  { (s.setPipe x.2).setPlace p .getLeaving with taken := s.taken ++ x.1.toList }

/-- `close`, which frees the object of a pipe that has no end left and then unlocks it once more. -/
def close (s : PipeSys Proc) (writeEnd : Bool) : PipeSys Proc :=
  let x := s.pipe.close writeEnd
  if x.readable = false ∧ x.writable = false then { s.setPipe x with freed := s.freed + 1, touched := true }
  else s.setPipe x

/-- The sections of the calls that are atomic. `file_table_t::free` closes each end with its last file, once. -/
def act (s : PipeSys Proc) : PipeAct Proc → Option (PipeSys Proc)
  | .put p ch =>
    if s.place p = .outside then
      let x := s.pipe.space.down p
      some { (s.setSpace x.2).setPlace p (if x.1 then .putReady else .putAsleep) with ch := update s.ch p ch }
    else none
  | .putResume p =>
    if s.place p = .putAsleep then
      (s.pipe.space.resume p).map fun x => (s.setSpace x.2).setPlace p (if x.1 then .putReady else .putAsleep)
    else none
  | .putAccess p => if s.place p = .putReady then some (s.putAccess p) else none
  | .putLeave p =>
    if s.place p = .putLeaving then some ((s.setItem s.pipe.item.up.2).setPlace p .outside) else none
  | .get p =>
    if s.place p = .outside then
      let x := s.pipe.item.down p
      some ((s.setItem x.2).setPlace p (if x.1 then .getReady else .getAsleep))
    else none
  | .getResume p =>
    if s.place p = .getAsleep then
      (s.pipe.item.resume p).map fun x => (s.setItem x.2).setPlace p (if x.1 then .getReady else .getAsleep)
    else none
  | .getAccess p => if s.place p = .getReady then some (s.getAccess p) else none
  | .getLeave p =>
    if s.place p = .getLeaving then some ((s.setSpace s.pipe.space.up.2).setPlace p .outside) else none
  | .close writeEnd =>
    if (if writeEnd then s.pipe.writable else s.pipe.readable) then some (s.close writeEnd) else none

/-- One step; whatever is done with a pipe that has been freed uses it after that. -/
def step (s : PipeSys Proc) (a : PipeAct Proc) : Option (PipeSys Proc) :=
  (s.act a).map fun t => if 0 < s.freed then { t with touched := true } else t

def unread (s : PipeSys Proc) : Nat := s.stored.length - s.taken.length

def Open (s : PipeSys Proc) : Prop := s.pipe.readable = true ∧ s.pipe.writable = true

/-- A reader finds a byte or a closed read end, a writer finds the read end open or its own closed; and an end
is closed while the other one is open. -/
def Careful (s : PipeSys Proc) : PipeAct Proc → Prop
  | .putAccess _ => s.pipe.readable = true ∨ s.pipe.writable = false
  | .getAccess _ => s.pipe.readable = false ∨ 0 < s.unread
  | .close writeEnd => (if writeEnd then s.pipe.readable else s.pipe.writable) = true
  | _ => True

variable [Fintype Proc]

def count (s : PipeSys Proc) (x : PipePlace) : Nat := tally (· = x) s.place

/-- Every token of the two semaphores stands for a free cell or a byte, but for one that a close adds. -/
structure Tokens (s : PipeSys Proc) : Prop where
  total : s.pipe.space.tokens + s.pipe.item.tokens + s.count .putReady + s.count .putLeaving + s.count .getReady +
    s.count .getLeaving = pipeBufSize + (if s.pipe.readable then 0 else 1) + (if s.pipe.writable then 0 else 1)
  slots : s.pipe.readable = true →
    s.pipe.space.tokens + s.count .putReady + s.unread + s.count .getLeaving ≤ pipeBufSize
  items : s.Open → s.pipe.item.tokens + s.count .getReady + s.count .putLeaving = s.unread

structure Sleepers (s : PipeSys Proc) : Prop where
  space : s.pipe.space.Wf
  item : s.pipe.item.Wf
  putAsleep : s.pipe.space.Waits s.place .putAsleep
  getAsleep : s.pipe.item.Waits s.place .getAsleep

structure Content (s : PipeSys Proc) : Prop where
  log : RingLog s.pipe.buffer pipeBufSize s.stored s.taken
  readIndex : s.pipe.readIndex = s.taken.length % pipeBufSize
  writeIndex : s.pipe.writeIndex = s.stored.length % pipeBufSize

structure Inv (s : PipeSys Proc) : Prop where
  tokens : s.Tokens
  sleepers : s.Sleepers
  content : s.Content
  ends : s.pipe.readable = true ∨ s.pipe.writable = true
  freed : s.freed = 0
  touched : s.touched = false

section

variable {s t : PipeSys Proc} {p : Proc} {ch : Byte} {x y : PipePlace} {r : Bool} {u : Sem Proc}

omit [DecidableEq Proc] in
theorem inv_init (mem : Nat → Byte) : (init mem : PipeSys Proc).Inv := by
  have hat : ∀ x, x ≠ .outside → (init mem : PipeSys Proc).count x = 0 :=
    fun x hx => tally_eq_zero fun _ h => hx h.symm
  have hspace : (init mem : PipeSys Proc).pipe.space.tokens = pipeBufSize := Sem.tokens_init _
  have hitem : (init mem : PipeSys Proc).pipe.item.tokens = 0 := Sem.tokens_init _
  have hunread : (init mem : PipeSys Proc).unread = 0 := rfl
  refine ⟨⟨?_, fun _ => ?_, fun _ => ?_⟩, ⟨Sem.wf_init _, Sem.wf_init _, fun _ => ?_, fun _ => ?_⟩,
    ⟨RingLog.empty _ _, rfl, rfl⟩, Or.inl rfl, rfl, rfl⟩
  · rw [hspace, hitem, hat _ (by decide), hat _ (by decide), hat _ (by decide), hat _ (by decide)]
    rfl
  · rw [hspace, hunread, hat _ (by decide), hat _ (by decide)]
    exact Nat.le_refl _
  · rw [hitem, hunread, hat _ (by decide), hat _ (by decide)]
  · exact iff_of_true rfl fun h => by cases h
  · exact iff_of_true rfl fun h => by cases h

theorem count_move (hp : s.place p = x) (ht : t.place = update s.place p y) (z : PipePlace) :
    t.count z + (if x = z then 1 else 0) = s.count z + if y = z then 1 else 0 := by
  unfold count
  rw [ht, ← hp]
  exact tally_update s.place p y

structure Moved (s t : PipeSys Proc) (p : Proc) (x y : PipePlace) : Prop where
  was : s.place p = x
  place : t.place = update s.place p y
  readable : t.pipe.readable = s.pipe.readable
  writable : t.pipe.writable = s.pipe.writable
  freed : t.freed = s.freed
  touched : t.touched = s.touched

def cells : PipePlace → Nat
  | .putReady => 1
  | .getLeaving => 1
  | _ => 0

def bytes : PipePlace → Nat
  | .getReady => 1
  | .putLeaving => 1
  | _ => 0

theorem Inv.moved (h : s.Inv) (hm : Moved s t p x y) (hsleep : t.Sleepers) (hcontent : t.Content)
    (htotal : t.pipe.space.tokens + t.pipe.item.tokens + cells y + bytes y =
      s.pipe.space.tokens + s.pipe.item.tokens + cells x + bytes x) (hcells : s.pipe.readable = true →
      t.pipe.space.tokens + cells y + t.unread ≤ s.pipe.space.tokens + cells x + s.unread)
    (hbytes : s.Open → t.pipe.item.tokens + bytes y + s.unread = s.pipe.item.tokens + bytes x + t.unread) : t.Inv := by
  have c1 := count_move hm.was hm.place .putReady
  have c2 := count_move hm.was hm.place .putLeaving
  have c3 := count_move hm.was hm.place .getReady
  have c4 := count_move hm.was hm.place .getLeaving
  have hcell : ∀ z, cells z = (if z = .putReady then 1 else 0) + if z = .getLeaving then 1 else 0 := by
    intro z
    cases z <;> rfl
  have hbyte : ∀ z, bytes z = (if z = .getReady then 1 else 0) + if z = .putLeaving then 1 else 0 := by
    intro z
    cases z <;> rfl
  rw [hcell, hcell, hbyte, hbyte] at htotal
  rw [hcell, hcell] at hcells
  rw [hbyte, hbyte] at hbytes
  obtain ⟨hsum, hslots, hitems⟩ := h.tokens
  refine ⟨⟨?_, fun hr => ?_, fun ho => ?_⟩, hsleep, hcontent, ?_, hm.freed.trans h.freed, hm.touched.trans h.touched⟩
  · rw [hm.readable, hm.writable]
    omega
  · rw [hm.readable] at hr
    have hle := hslots hr
    have hle' := hcells hr
    omega
  · unfold Open at ho
    rw [hm.readable, hm.writable] at ho
    have heq := hitems ho
    have heq' := hbytes ho
    omega
  · rw [hm.readable, hm.writable]
    exact h.ends

omit [DecidableEq Proc] in
theorem Inv.small (h : s.Inv) : s.pipe.space.tokens + s.pipe.item.tokens ≤ 514 := by
  have htotal := h.tokens.total
  have hsize : pipeBufSize = 512 := rfl
  split_ifs at htotal <;> omega

theorem Inv.tokens_up (h : s.Inv) : s.pipe.space.up.2.tokens = s.pipe.space.tokens + 1 ∧
    s.pipe.item.up.2.tokens = s.pipe.item.tokens + 1 := by
  have hsmall := h.small
  constructor
  · refine (Sem.tokens_up h.sleepers.space).2 fun _ => ?_
    rw [Sem.tokens] at hsmall
    omega
  · refine (Sem.tokens_up h.sleepers.item).2 fun _ => ?_
    rw [Sem.tokens, Sem.tokens] at hsmall
    omega

omit [DecidableEq Proc] in
theorem Inv.awake (h : s.Inv) (hp : s.place p = .outside) :
    s.pipe.space.waiter p = none ∧ s.pipe.item.waiter p = none := by
  rw [h.sleepers.putAsleep p, h.sleepers.getAsleep p, hp]
  decide

/-- A writer got a cell of the buffer, or sleeps until there is one. -/
theorem Inv.takeSpace {ch : Proc → Byte} (h : s.Inv) (hp : s.place p = x)
    (hx : cells x = 0 ∧ bytes x = 0 ∧ x ≠ .getAsleep) (hwf : u.Wf) (ht : u.tokens + (if r then 1 else 0) = s.pipe.space.tokens)
    (hput : u.Waits (update s.place p (if r then .putReady else .putAsleep)) .putAsleep) :
    Inv { (s.setSpace u).setPlace p (if r then .putReady else .putAsleep) with ch := ch } := by
  obtain ⟨hx0, hx1, hx⟩ := hx
  have hcells : cells (if r then .putReady else .putAsleep) = if r then 1 else 0 := by cases r <;> rfl
  have hbytes : bytes (if r then .putReady else .putAsleep) = 0 := by cases r <;> rfl
  have hne : (if r then .putReady else .putAsleep) ≠ PipePlace.getAsleep := by cases r <;> decide
  refine h.moved ⟨hp, rfl, rfl, rfl, rfl, rfl⟩ ⟨hwf, h.sleepers.item, hput, h.sleepers.getAsleep.move (by rwa [hp]) hne⟩
    ⟨h.content.log, h.content.readIndex, h.content.writeIndex⟩ ?_ (fun _ => ?_) fun _ => ?_
  · change u.tokens + s.pipe.item.tokens + _ + _ = s.pipe.space.tokens + s.pipe.item.tokens + _ + _
    omega
  · change u.tokens + _ + s.unread ≤ s.pipe.space.tokens + _ + s.unread
    omega
  · change s.pipe.item.tokens + _ + s.unread = s.pipe.item.tokens + _ + s.unread
    omega

theorem Inv.put (h : s.Inv) (hp : s.place p = .outside) (ch : Byte) :
    Inv { (s.setSpace (s.pipe.space.down p).2).setPlace p (if (s.pipe.space.down p).1 then .putReady else .putAsleep) with
      ch := update s.ch p ch } := by
  have hawake := (h.awake hp).1
  exact h.takeSpace hp (by decide) (h.sleepers.space.down hawake) (Sem.tokens_down hawake)
    (h.sleepers.putAsleep.down (by rw [hp]; decide) (by decide))

theorem Inv.putResume (h : s.Inv) (hp : s.place p = .putAsleep) (hr : s.pipe.space.resume p = some (r, u)) :
    Inv ((s.setSpace u).setPlace p (if r then .putReady else .putAsleep)) :=
  h.takeSpace hp (by decide) (h.sleepers.space.resume hr) (Sem.tokens_resume hr)
    (h.sleepers.putAsleep.resume hp (by decide) hr)

theorem Inv.putLeave (h : s.Inv) (hp : s.place p = .putLeaving) :
    Inv ((s.setItem s.pipe.item.up.2).setPlace p .outside) := by
  have ht := h.tokens_up.2
  refine h.moved ⟨hp, rfl, rfl, rfl, rfl, rfl⟩ ⟨h.sleepers.space, h.sleepers.item.up,
    h.sleepers.putAsleep.move (by rw [hp]; decide) (by decide),
    (h.sleepers.getAsleep.up h.sleepers.item).move (by rw [hp]; decide) (by decide)⟩
    ⟨h.content.log, h.content.readIndex, h.content.writeIndex⟩ ?_ (fun _ => Nat.le_refl _) fun _ => ?_
  · change s.pipe.space.tokens + s.pipe.item.up.2.tokens + 0 + 0 = s.pipe.space.tokens + s.pipe.item.tokens + 0 + 1
    omega
  · change s.pipe.item.up.2.tokens + 0 + s.unread = s.pipe.item.tokens + 1 + s.unread
    omega

theorem Inv.takeItem (h : s.Inv) (hp : s.place p = x) (hx : cells x = 0 ∧ bytes x = 0 ∧ x ≠ .putAsleep) (hwf : u.Wf)
    (ht : u.tokens + (if r then 1 else 0) = s.pipe.item.tokens)
    (hget : u.Waits (update s.place p (if r then .getReady else .getAsleep)) .getAsleep) :
    Inv ((s.setItem u).setPlace p (if r then .getReady else .getAsleep)) := by
  obtain ⟨hx0, hx1, hx⟩ := hx
  have hcells : cells (if r then .getReady else .getAsleep) = 0 := by cases r <;> rfl
  have hbytes : bytes (if r then .getReady else .getAsleep) = if r then 1 else 0 := by cases r <;> rfl
  have hne : (if r then .getReady else .getAsleep) ≠ PipePlace.putAsleep := by cases r <;> decide
  refine h.moved ⟨hp, rfl, rfl, rfl, rfl, rfl⟩ ⟨h.sleepers.space, hwf, h.sleepers.putAsleep.move (by rwa [hp]) hne, hget⟩
    ⟨h.content.log, h.content.readIndex, h.content.writeIndex⟩ ?_ (fun _ => ?_) fun _ => ?_
  · change s.pipe.space.tokens + u.tokens + _ + _ = s.pipe.space.tokens + s.pipe.item.tokens + _ + _
    omega
  · change s.pipe.space.tokens + _ + s.unread ≤ s.pipe.space.tokens + _ + s.unread
    omega
  · change u.tokens + _ + s.unread = s.pipe.item.tokens + _ + s.unread
    omega

theorem Inv.get (h : s.Inv) (hp : s.place p = .outside) :
    Inv ((s.setItem (s.pipe.item.down p).2).setPlace p (if (s.pipe.item.down p).1 then .getReady else .getAsleep)) := by
  have hawake := (h.awake hp).2
  exact h.takeItem hp (by decide) (h.sleepers.item.down hawake) (Sem.tokens_down hawake)
    (h.sleepers.getAsleep.down (by rw [hp]; decide) (by decide))

theorem Inv.getResume (h : s.Inv) (hp : s.place p = .getAsleep) (hr : s.pipe.item.resume p = some (r, u)) :
    Inv ((s.setItem u).setPlace p (if r then .getReady else .getAsleep)) :=
  h.takeItem hp (by decide) (h.sleepers.item.resume hr) (Sem.tokens_resume hr)
    (h.sleepers.getAsleep.resume hp (by decide) hr)

theorem Inv.getLeave (h : s.Inv) (hp : s.place p = .getLeaving) :
    Inv ((s.setSpace s.pipe.space.up.2).setPlace p .outside) := by
  have ht := h.tokens_up.1
  refine h.moved ⟨hp, rfl, rfl, rfl, rfl, rfl⟩ ⟨h.sleepers.space.up, h.sleepers.item,
    (h.sleepers.putAsleep.up h.sleepers.space).move (by rw [hp]; decide) (by decide),
    h.sleepers.getAsleep.move (by rw [hp]; decide) (by decide)⟩
    ⟨h.content.log, h.content.readIndex, h.content.writeIndex⟩ ?_ (fun _ => ?_) fun _ => rfl
  · change s.pipe.space.up.2.tokens + s.pipe.item.tokens + 0 + 0 = s.pipe.space.tokens + s.pipe.item.tokens + 1 + 0
    omega
  · change s.pipe.space.up.2.tokens + 0 + s.unread ≤ s.pipe.space.tokens + 1 + s.unread
    omega

section

omit [Fintype Proc]

theorem putAccess_eq (s : PipeSys Proc) (p : Proc) : s.putAccess p =
    if s.pipe.writable then
      { (s.setPipe { s.pipe with
          buffer := update s.pipe.buffer s.pipe.writeIndex (s.ch p)
          writeIndex := (s.pipe.writeIndex + 1) % pipeBufSize }).setPlace p .putLeaving with
        stored := s.stored ++ [s.ch p] }
    else s.setPlace p .putLeaving := by
  unfold putAccess Pipe.putChar
  split <;> rfl

theorem getAccess_eq (s : PipeSys Proc) (p : Proc) : s.getAccess p =
    if s.pipe.readable then
      { (s.setPipe { s.pipe with readIndex := (s.pipe.readIndex + 1) % pipeBufSize }).setPlace p .getLeaving with
        taken := s.taken ++ [s.pipe.buffer s.pipe.readIndex] }
    else s.setPlace p .getLeaving := by
  unfold getAccess Pipe.getChar
  split
  · rfl
  · dsimp only
    rw [toList_none, append_nil]
    rfl

theorem Sleepers.access (h : s.Sleepers) (hp : s.place p = x) (hspace : t.pipe.space = s.pipe.space)
    (hitem : t.pipe.item = s.pipe.item) (hplace : t.place = update s.place p y)
    (hx : x ≠ .putAsleep ∧ x ≠ .getAsleep) (hy : y ≠ .putAsleep ∧ y ≠ .getAsleep) : t.Sleepers := by
  rw [← hp] at hx
  refine ⟨?_, ?_, ?_, ?_⟩
  · rw [hspace]
    exact h.space
  · rw [hitem]
    exact h.item
  · rw [hspace, hplace]
    exact h.putAsleep.move hx.1 hy.1
  · rw [hitem, hplace]
    exact h.getAsleep.move hx.2 hy.2

end

theorem Inv.putAccess (h : s.Inv) (hp : s.place p = .putReady) (hc : s.Careful (.putAccess p)) : (s.putAccess p).Inv := by
  rw [putAccess_eq]
  have hle := h.content.log.length_le
  split
  · next hw =>
    have hr : s.pipe.readable = true := hc.resolve_right fun hf => by rw [hw] at hf; cases hf
    have hpos : 0 < s.count .putReady := tally_pos hp
    have hroom : s.stored.length < s.taken.length + pipeBufSize := by
      have hslot := h.tokens.slots hr
      rw [unread] at hslot
      omega
    have hunread : (s.stored ++ [s.ch p]).length - s.taken.length = s.unread + 1 := by
      rw [length_append, length_singleton, unread]
      omega
    refine h.moved ⟨hp, rfl, rfl, rfl, rfl, rfl⟩ (h.sleepers.access hp rfl rfl rfl (by decide) (by decide))
      ⟨?_, h.content.readIndex, ?_⟩ ?_ (fun _ => ?_) fun _ => ?_
    · change RingLog (update s.pipe.buffer s.pipe.writeIndex (s.ch p)) pipeBufSize (s.stored ++ [s.ch p]) s.taken
      rw [h.content.writeIndex]
      exact h.content.log.write hroom _
    · change (s.pipe.writeIndex + 1) % pipeBufSize = (s.stored ++ [s.ch p]).length % pipeBufSize
      rw [h.content.writeIndex, length_append, length_singleton, Nat.mod_add_mod]
    · rfl
    · change s.pipe.space.tokens + 0 + ((s.stored ++ [s.ch p]).length - s.taken.length) ≤
        s.pipe.space.tokens + 1 + s.unread
      omega
    · change s.pipe.item.tokens + 1 + s.unread =
        s.pipe.item.tokens + 0 + ((s.stored ++ [s.ch p]).length - s.taken.length)
      omega
  · next hw =>
    refine h.moved ⟨hp, rfl, rfl, rfl, rfl, rfl⟩ (h.sleepers.access hp rfl rfl rfl (by decide) (by decide))
      ⟨h.content.log, h.content.readIndex, h.content.writeIndex⟩ rfl (fun _ => ?_) fun ho => absurd ho.2 hw
    change s.pipe.space.tokens + 0 + s.unread ≤ s.pipe.space.tokens + 1 + s.unread
    omega

theorem Inv.getAccess (h : s.Inv) (hp : s.place p = .getReady) (hc : s.Careful (.getAccess p)) : (s.getAccess p).Inv := by
  rw [getAccess_eq]
  split
  · next hr =>
    have hpos : 0 < s.unread := hc.resolve_left fun hf => by rw [hr] at hf; cases hf
    have hlt : s.taken.length < s.stored.length := by
      rw [unread] at hpos
      omega
    have hunread : s.stored.length - (s.taken ++ [s.pipe.buffer s.pipe.readIndex]).length + 1 = s.unread := by
      rw [length_append, length_singleton, unread]
      omega
    refine h.moved ⟨hp, rfl, rfl, rfl, rfl, rfl⟩ (h.sleepers.access hp rfl rfl rfl (by decide) (by decide))
      ⟨?_, ?_, h.content.writeIndex⟩ ?_ (fun _ => ?_) fun _ => ?_
    · change RingLog s.pipe.buffer pipeBufSize s.stored (s.taken ++ [s.pipe.buffer s.pipe.readIndex])
      rw [h.content.readIndex]
      exact h.content.log.read hlt
    · change (s.pipe.readIndex + 1) % pipeBufSize = (s.taken ++ [s.pipe.buffer s.pipe.readIndex]).length % pipeBufSize
      rw [length_append, length_singleton, h.content.readIndex, Nat.mod_add_mod]
    · rfl
    · change s.pipe.space.tokens + 1 + (s.stored.length - (s.taken ++ [s.pipe.buffer s.pipe.readIndex]).length) ≤
        s.pipe.space.tokens + 0 + s.unread
      omega
    · change s.pipe.item.tokens + 0 + s.unread =
        s.pipe.item.tokens + 1 + (s.stored.length - (s.taken ++ [s.pipe.buffer s.pipe.readIndex]).length)
      omega
  · next hr =>
    exact h.moved ⟨hp, rfl, rfl, rfl, rfl, rfl⟩ (h.sleepers.access hp rfl rfl rfl (by decide) (by decide))
      ⟨h.content.log, h.content.readIndex, h.content.writeIndex⟩ rfl (fun hr' => absurd hr' hr) fun ho => absurd ho.1 hr

theorem Inv.close (h : s.Inv) (ho : s.Open) (writeEnd : Bool) : (s.close writeEnd).Inv := by
  obtain ⟨hr, hw⟩ := ho
  have htotal := h.tokens.total
  rw [hr, hw] at htotal
  cases writeEnd with
  | true =>
    have heq : s.close true = s.setPipe { s.pipe with writable := false, item := s.pipe.item.up.2 } :=
      if_neg fun hf => by
        rw [show (s.pipe.close true).readable = true from hr] at hf
        cases hf.1
    rw [heq]
    refine ⟨⟨?_, fun _ => h.tokens.slots hr, fun ho => by cases ho.2⟩, ⟨h.sleepers.space, h.sleepers.item.up,
      h.sleepers.putAsleep, h.sleepers.getAsleep.up h.sleepers.item⟩,
      ⟨h.content.log, h.content.readIndex, h.content.writeIndex⟩, Or.inl hr, h.freed, h.touched⟩
    have ht := h.tokens_up.2
    change s.pipe.space.tokens + s.pipe.item.up.2.tokens + s.count .putReady + s.count .putLeaving +
      s.count .getReady + s.count .getLeaving = pipeBufSize + (if s.pipe.readable then 0 else 1) + 1
    rw [hr, if_pos rfl]
    rw [if_pos rfl] at htotal
    omega
  | false =>
    have heq : s.close false = s.setPipe { s.pipe with readable := false, space := s.pipe.space.up.2 } :=
      if_neg fun hf => by
        rw [show (s.pipe.close false).writable = true from hw] at hf
        cases hf.2
    rw [heq]
    refine ⟨⟨?_, fun hr' => (by cases hr'), fun ho => (by cases ho.1)⟩, ⟨h.sleepers.space.up, h.sleepers.item,
      h.sleepers.putAsleep.up h.sleepers.space, h.sleepers.getAsleep⟩,
      ⟨h.content.log, h.content.readIndex, h.content.writeIndex⟩, Or.inr hw, h.freed, h.touched⟩
    have ht := h.tokens_up.1
    change s.pipe.space.up.2.tokens + s.pipe.item.tokens + s.count .putReady + s.count .putLeaving +
      s.count .getReady + s.count .getLeaving = pipeBufSize + 1 + (if s.pipe.writable then 0 else 1)
    rw [hw, if_pos rfl]
    rw [if_pos rfl] at htotal
    omega

variable {a : PipeAct Proc}

omit [Fintype Proc] in
theorem step_eq_act (h : s.freed = 0) : s.step a = s.act a := by
  unfold step
  simp only [h, Nat.lt_irrefl, if_false]
  exact map_id'

theorem Inv.step (h : s.Inv) (hc : s.Careful a) (hs : s.step a = some t) : t.Inv := by
  rw [step_eq_act h.freed] at hs
  cases a
  all_goals
    replace hs := ite_none_right_eq_some.mp hs
    obtain ⟨hp, hs⟩ := hs
  case put p ch =>
    cases hs
    exact h.put hp ch
  case putResume p =>
    obtain ⟨x, hx, rfl⟩ := map_eq_some_iff.mp hs
    exact h.putResume hp hx
  case putAccess p =>
    cases hs
    exact h.putAccess hp hc
  case putLeave p =>
    cases hs
    exact h.putLeave hp
  case get p =>
    cases hs
    exact h.get hp
  case getResume p =>
    obtain ⟨x, hx, rfl⟩ := map_eq_some_iff.mp hs
    exact h.getResume hp hx
  case getAccess p =>
    cases hs
    exact h.getAccess hp hc
  case getLeave p =>
    cases hs
    exact h.getLeave hp
  case close writeEnd =>
    cases hs
    refine h.close ?_ writeEnd
    cases writeEnd with
    | true => exact ⟨hc, hp⟩
    | false => exact ⟨hp, hc⟩

omit [Fintype Proc] in
theorem close_pipe (s : PipeSys Proc) (writeEnd : Bool) : (s.close writeEnd).pipe = s.pipe.close writeEnd := by
  unfold PipeSys.close
  dsimp only
  split <;> rfl

omit [Fintype Proc] in
theorem act_ends (h : s.act a = some t) : (t.pipe.readable = s.pipe.readable ∧ t.pipe.writable = s.pipe.writable ∧
    ∀ w, a ≠ .close w) ∨ ∃ w, a = .close w ∧ ¬t.Open := by
  cases a
  all_goals replace h := (ite_none_right_eq_some.mp h).2
  case put | putLeave | get | getLeave =>
    cases h
    exact Or.inl ⟨rfl, rfl, fun w hw => by cases hw⟩
  case putResume | getResume =>
    obtain ⟨x, -, rfl⟩ := map_eq_some_iff.mp h
    exact Or.inl ⟨rfl, rfl, fun w hw => by cases hw⟩
  case putAccess =>
    cases h
    rw [putAccess_eq]
    split <;> exact Or.inl ⟨rfl, rfl, fun w hw => by cases hw⟩
  case getAccess =>
    cases h
    rw [getAccess_eq]
    split <;> exact Or.inl ⟨rfl, rfl, fun w hw => by cases hw⟩
  case close writeEnd =>
    cases h
    refine Or.inr ⟨writeEnd, rfl, fun ho => ?_⟩
    unfold Open at ho
    rw [close_pipe] at ho
    cases writeEnd with
    | true => cases ho.2
    | false => cases ho.1

theorem Inv.careful (h : s.Inv) (ho : s.Open) (ha : ∀ w, a ≠ .close w) (hs : s.act a = some t) : s.Careful a := by
  cases a with
  | put | putResume | putLeave | get | getResume | getLeave => trivial
  | putAccess => exact Or.inl ho.1
  | getAccess p =>
    obtain ⟨hp, -⟩ := ite_none_right_eq_some.mp hs
    have hpos : 0 < s.count .getReady := tally_pos hp
    have hitems := h.tokens.items ho
    exact Or.inr (by omega)
  | close w => exact absurd rfl (ha w)

theorem run_open {as : List (PipeAct Proc)} {mem : Nat → Byte} (h : run step (init mem) as = some s) (ho : s.Open) :
    s.Inv := by
  refine run_invariant (I := fun s => s.Open → s.Inv) ?_ (fun _ => inv_init mem) (along_true _ as) h ho
  intro s a t hi _ hs ho
  obtain ⟨t', ht', rfl⟩ := map_eq_some_iff.mp hs
  have hpipe : (if 0 < s.freed then { t' with touched := true } else t').pipe = t'.pipe := by split <;> rfl
  unfold Open at ho
  rw [hpipe] at ho
  rcases act_ends ht' with ⟨hr, hw, ha⟩ | ⟨w, -, hclosed⟩
  · have hopen : s.Open := ⟨hr ▸ ho.1, hw ▸ ho.2⟩
    exact (hi hopen).step ((hi hopen).careful hopen ha ht') hs
  · exact absurd ho hclosed

/-- While both ends are open, a pipe returns the bytes in the order stored, holds at most `PIPE_BUF_SIZE`, and
between the calls its semaphores count the unread bytes and the free cells. -/
theorem pipe_fifo {as : List (PipeAct Proc)} {mem : Nat → Byte} (h : run step (init mem) as = some s) (ho : s.Open) :
    s.taken <+: s.stored ∧ s.taken.length ≤ s.stored.length ∧ s.unread ≤ pipeBufSize ∧
      ((∀ p, s.place p = .outside) → s.pipe.item.count.toNat = s.unread ∧
        s.pipe.space.count.toNat = pipeBufSize - s.unread) := by
  have hinv := run_open h ho
  have hlog := hinv.content.log
  have hroom := hlog.room
  refine ⟨hlog.pref, hlog.length_le, by rw [unread]; omega, fun hidle => ?_⟩
  have hcount : ∀ x, x ≠ .outside → s.count x = 0 :=
    fun x hx => tally_eq_zero fun p hp => hx (hp.symm.trans (hidle p))
  have hspace : s.pipe.space.marked = 0 := tally_eq_zero fun p hp => by
    rw [(hinv.awake (hidle p)).1] at hp
    cases hp
  have hitem : s.pipe.item.marked = 0 := tally_eq_zero fun p hp => by
    rw [(hinv.awake (hidle p)).2] at hp
    cases hp
  have htotal := hinv.tokens.total
  have hitems := hinv.tokens.items ho
  rw [ho.1, ho.2, if_pos rfl, hcount _ (by decide), hcount _ (by decide), hcount _ (by decide),
    hcount _ (by decide), Sem.tokens, Sem.tokens, hspace, hitem] at htotal
  rw [hcount _ (by decide), hcount _ (by decide), Sem.tokens, hitem] at hitems
  omega

/-- A reader waits for the first of two bytes, and takes both when they are there. -/
def twoBytes : List (PipeAct Bool) :=
  [.get true, .put false 7, .putAccess false, .putLeave false, .put false 9, .putAccess false, .putLeave false,
    .getResume true, .getAccess true, .getLeave true, .get true, .getAccess true, .getLeave true]

theorem pipe_fifo_two : ∃ s : PipeSys Bool, run step (init fun _ => 0) twoBytes = some s ∧ s.taken = [7, 9] ∧
    s.taken <+: s.stored ∧ s.unread ≤ pipeBufSize ∧ s.pipe.item.count.toNat = 0 := by
  obtain ⟨s, hs⟩ : ∃ s : PipeSys Bool, run step (init fun _ => 0) twoBytes = some s := ⟨_, rfl⟩
  have ho : s.Open := by
    cases hs
    exact ⟨rfl, rfl⟩
  have hidle : ∀ p, s.place p = .outside := by
    cases hs
    decide
  have hunread : s.unread = 0 := by
    cases hs
    rfl
  obtain ⟨hpre, -, hle, hcounts⟩ := pipe_fifo hs ho
  refine ⟨s, hs, ?_, hpre, hle, (hcounts hidle).1.trans hunread⟩
  cases hs
  rfl

/-- Every byte returned was stored and is returned once, no reader got a byte at the end of the file, no writer
stored one that nobody can read, and the object is freed once, when both ends are closed, and not used after that. -/
structure Safe (s : PipeSys Proc) (a : PipeAct Proc) (t : PipeSys Proc) : Prop where
  returned : t.taken.Subperm t.stored
  endOfFile : ∀ p, a = .getAccess p → s.pipe.writable = false → s.unread = 0 → t.taken = s.taken
  noReader : ∀ p, a = .putAccess p → s.pipe.readable = false → t.stored = s.stored
  freed : t.freed = if t.pipe.readable = false ∧ t.pipe.writable = false then 1 else 0
  touched : t.touched = false

omit [DecidableEq Proc] in
theorem Inv.freed_eq (h : s.Inv) : s.freed = if s.pipe.readable = false ∧ s.pipe.writable = false then 1 else 0 := by
  rw [if_neg, h.freed]
  rintro ⟨hr, hw⟩
  rcases h.ends with he | he
  · rw [hr] at he
    cases he
  · rw [hw] at he
    cases he

theorem Inv.safe (h : s.Inv) (hc : s.Careful a) (hs : s.step a = some t) : Safe s a t := by
  have ht := h.step hc hs
  rw [step_eq_act h.freed] at hs
  refine ⟨ht.content.log.pref.sublist.subperm, ?_, ?_, ht.freed_eq, ht.touched⟩
  · rintro p rfl - hzero
    obtain ⟨-, hs⟩ := ite_none_right_eq_some.mp hs
    cases hs
    rcases hc with hr | hpos
    · rw [getAccess_eq, hr, if_neg Bool.false_ne_true]
      rfl
    · omega
  · rintro p rfl hr
    obtain ⟨-, hs⟩ := ite_none_right_eq_some.mp hs
    cases hs
    rcases hc with hr' | hw
    · rw [hr] at hr'
      cases hr'
    · rw [putAccess_eq, hw, if_neg Bool.false_ne_true]
      rfl

theorem Safe.careful (h : Safe s a t) (hi : s.Inv) (hs : s.step a = some t) : s.Careful a := by
  rw [step_eq_act hi.freed] at hs
  cases a with
  | put | putResume | putLeave | get | getResume | getLeave => trivial
  | putAccess p =>
    obtain ⟨-, hs⟩ := ite_none_right_eq_some.mp hs
    cases hs
    by_contra hc
    obtain ⟨hr, hw⟩ := not_or.mp hc
    have hsame := h.noReader p rfl (Bool.eq_false_of_not_eq_true hr)
    rw [putAccess_eq, if_pos (Bool.eq_true_of_not_eq_false hw)] at hsame
    exact absurd (append_right_eq_self.mp hsame) (cons_ne_nil _ _)
  | getAccess p =>
    obtain ⟨-, hs⟩ := ite_none_right_eq_some.mp hs
    cases hs
    by_contra hc
    obtain ⟨hr, hzero⟩ := not_or.mp hc
    have hlen := h.returned.length_le
    rw [getAccess_eq, if_pos (Bool.eq_true_of_not_eq_false hr)] at hlen
    change (s.taken ++ [_]).length ≤ s.stored.length at hlen
    rw [length_append, length_singleton] at hlen
    rw [unread] at hzero
    omega
  | close w =>
    obtain ⟨-, hs⟩ := ite_none_right_eq_some.mp hs
    cases hs
    by_contra hc
    have hended : (s.pipe.close w).readable = false ∧ (s.pipe.close w).writable = false := by
      cases w with
      | true => exact ⟨Bool.eq_false_of_not_eq_true hc, rfl⟩
      | false => exact ⟨rfl, Bool.eq_false_of_not_eq_true hc⟩
    have htouched := h.touched
    rw [PipeSys.close, if_pos hended] at htouched
    cases htouched

/-- In every state reached while each access meets what it needs, no byte has been made up or returned twice;
and from there a step is safe if and only if it meets what it needs. -/
theorem pipe_safe_iff {as : List (PipeAct Proc)} {mem : Nat → Byte} (h : run step (init mem) as = some s)
    (hc : Along step Careful (init mem) as) : s.taken.Subperm s.stored ∧
      (s.freed = if s.pipe.readable = false ∧ s.pipe.writable = false then 1 else 0) ∧ s.touched = false ∧
      ∀ a t, s.step a = some t → (Safe s a t ↔ s.Careful a) := by
  have hinv : s.Inv := run_invariant (fun _ _ _ h => h.step) (inv_init mem) hc h
  refine ⟨hinv.content.log.pref.sublist.subperm, hinv.freed_eq, hinv.touched, fun a t hs => ?_⟩
  exact ⟨fun hsafe => hsafe.careful hinv hs, fun hcare => hinv.safe hcare hs⟩

def lastByte : List (PipeAct Bool) :=
  [.put false 7, .putAccess false, .putLeave false, .close true, .get true, .getAccess true, .getLeave true]

theorem pipe_safe_iff_one : ∃ s : PipeSys Bool, run step (init fun _ => 0) lastByte = some s ∧ s.taken = [7] ∧
    s.touched = false ∧ ∃ t, s.step (.get true) = some t ∧ Safe s (.get true) t := by
  have hc : Along step Careful (init fun _ => 0) lastByte :=
    along_cons trivial rfl (along_cons (Or.inl rfl) rfl (along_cons trivial rfl (along_cons rfl rfl
      (along_cons trivial rfl (along_cons (Or.inr (by decide)) rfl (along_cons trivial rfl trivial))))))
  obtain ⟨s, hs⟩ : ∃ s : PipeSys Bool, run step (init fun _ => 0) lastByte = some s := ⟨_, rfl⟩
  obtain ⟨-, -, htouched, hiff⟩ := pipe_safe_iff hs hc
  obtain ⟨t, ht⟩ : ∃ t, s.step (.get true) = some t := by
    cases hs
    exact ⟨_, rfl⟩
  refine ⟨s, hs, ?_, htouched, t, ht, (hiff _ t ht).mpr trivial⟩
  cases hs
  rfl

/-- At the end of the file a reader gets whatever the buffer holds; a writer stores a byte that nobody can read;
the second close uses the object it has freed. -/
theorem pipe_unsafe : (∃ s : PipeSys Bool, run step (init fun _ => 9) [.close true, .get true, .getAccess true] = some s ∧
      s.stored = [] ∧ s.taken = [9]) ∧
    (∃ s : PipeSys Bool, run step (init fun _ => 9) [.close false, .put true 7, .putAccess true] = some s ∧
      s.pipe.readable = false ∧ s.stored = [7]) ∧
    ∃ s : PipeSys Bool, run step (init fun _ => 9) [.close true, .close false] = some s ∧ s.freed = 1 ∧
      s.touched = true :=
  ⟨⟨_, rfl, rfl, rfl⟩, ⟨_, rfl, rfl, rfl⟩, _, rfl, rfl, rfl⟩

end

end PipeSys

end BabyOS
