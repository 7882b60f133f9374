import BabyOS.ProcSys

open Function List Option

namespace BabyOS

namespace Sched

variable {Proc : Type} [DecidableEq Proc] {cpus : Nat}

structure Calm (s s' : Sched Proc cpus) (T : Proc → Prop) : Prop where
  idle : s'.idle = s.idle
  state : ∀ x, ¬T x → s'.state x = s.state x
  queue : ∀ x, ¬T x → x ∈ s'.runQueue → x ∈ s.runQueue
  waking : ∀ x, ¬T x → x ∈ s'.waking → x ∈ s.waking
  current : ∀ x, ¬T x → (∀ c, s.current c ≠ x) → ∀ c, s'.current c ≠ x
  hasCpu : ∀ x, ¬T x → s.hasCpu x = false → s'.hasCpu x = false

section

variable {s s' : Sched Proc cpus} {c : Fin cpus} {p : Proc}

omit [DecidableEq Proc] in
theorem Calm.refl (s : Sched Proc cpus) : Calm s s fun _ => False :=
  ⟨rfl, fun _ _ => rfl, fun _ _ h => h, fun _ _ h => h, fun _ _ h => h, fun _ _ h => h⟩

theorem calm_switchTo {next : Proc} {queue : List Proc} (hq : ∀ x ∈ queue, x ∈ s.runQueue) :
    Calm s (s.switchTo c next queue) fun x => x = next ∨ (x = s.current c ∧ s.state x = .running) := by
  refine ⟨rfl, fun _ _ => rfl, fun x hx hm => ?_, fun _ _ hm => hm, fun x hx hc d => ?_, fun x hx hf => ?_⟩
  · rw [not_or] at hx
    simp only [switchTo] at hm
    split_ifs at hm with hprev
    · rcases mem_append.mp hm with hm | hm
      · exact hq x hm
      · rw [mem_singleton] at hm
        subst x
        exact absurd ⟨rfl, hprev.2.1⟩ hx.2
    · exact hq x hm
  · simp only [switchTo, update_apply]
    split_ifs with hd
    · exact fun he => hx (Or.inl he.symm)
    · exact hc d
  · rw [not_or] at hx
    simp only [switchTo, update_of_ne hx.1]
    exact hf

theorem calm_schedule (h : s.step (.schedule c) = some s') : s'.state = s.state ∧ Calm s s' fun x =>
    x ∈ s.runQueue ∨ x = s.idle c ∨ (x = s.current c ∧ s.state x = .running) := by
  have hmono : ∀ {T T' : Proc → Prop}, (∀ x, T x → T' x) → Calm s s' T → Calm s s' T' := by
    intro T T' hT hc
    exact ⟨hc.idle, fun x hx => hc.state x (mt (hT x) hx), fun x hx => hc.queue x (mt (hT x) hx),
      fun x hx => hc.waking x (mt (hT x) hx), fun x hx => hc.current x (mt (hT x) hx),
      fun x hx => hc.hasCpu x (mt (hT x) hx)⟩
  simp only [step, schedule] at h
  split at h
  next next hp =>
    split_ifs at h
    cases h
    refine ⟨rfl, hmono ?_ (calm_switchTo fun x => mem_of_mem_erase)⟩
    rintro x (rfl | hx)
    · exact Or.inl (pick_spec hp).1
    · exact Or.inr (Or.inr hx)
  next =>
    split_ifs at h
    · cases h
      exact ⟨rfl, rfl, fun _ _ => rfl, fun _ _ h => h, fun _ _ h => h, fun _ _ h => h, fun _ _ h => h⟩
    · cases h
      refine ⟨rfl, hmono ?_ (calm_switchTo fun x hx => hx)⟩
      rintro x (rfl | hx)
      · exact Or.inr (Or.inl rfl)
      · exact Or.inr (Or.inr hx)

theorem calm_setState (st : ProcState) (h : s.step (.setState c st) = some s') :
    Calm s s' (· = s.current c) := by
  cases h
  exact ⟨rfl, fun x hx => update_of_ne hx _ _, fun _ _ h => h, fun _ _ h => h, fun _ _ h => h, fun _ _ h => h⟩

theorem calm_wakeUpState (h : s.step (.wakeUpState p) = some s') : Calm s s' (· = p) := by
  cases h
  exact ⟨rfl, fun x hx => update_of_ne hx _ _, fun _ _ h => h,
    fun x hx h => (mem_cons.mp h).resolve_left hx, fun _ _ h => h, fun _ _ h => h⟩

theorem calm_wakeUpQueue (h : s.step (.wakeUpQueue p) = some s') :
    p ∈ s.waking ∧ s'.state = s.state ∧ Calm s s' (· = p) := by
  obtain ⟨hp, h⟩ := ite_none_right_eq_some.mp h
  cases h
  rw [addProcessToRq_eq]
  exact ⟨hp, rfl, rfl, fun _ _ => rfl, fun x hx h => (mem_addProcessToRq.mp h).resolve_left hx,
    fun x _ h => mem_of_mem_erase h, fun _ _ h => h, fun _ _ h => h⟩

theorem calm_scheduleTail (h : s.step (.scheduleTail p) = some s') : Calm s s' fun _ => False := by
  obtain ⟨hp, h⟩ := ite_none_right_eq_some.mp h
  cases h
  refine ⟨rfl, fun _ _ => rfl, fun _ _ h => h, fun _ _ h => h, fun _ _ h => h, fun x _ h => ?_⟩
  simp only [update_apply, h, ite_self]

theorem calm_fork {pid : Word} (h : run step s [.forkState p pid, .forkQueue p] = some s') :
    Calm s s' (· = p) ∧ s'.current = s.current ∧ s.NonIdle p ∧ s'.state p = .running := by
  obtain ⟨t, ht, h⟩ := run_cons h
  obtain ⟨t', ht', h⟩ := run_cons h
  obtain ⟨hp, ht⟩ := ite_none_left_eq_some.mp ht
  cases ht
  obtain ⟨-, ht'⟩ := ite_none_right_eq_some.mp ht'
  cases ht'
  cases h
  rw [addProcessToRq_eq]
  refine ⟨⟨rfl, fun x hx => update_of_ne hx _ _, fun x hx h => ?_, fun _ _ h => h, fun _ _ h => h,
    fun x hx h => ?_⟩, rfl, fun c he => hp (Or.inr ⟨c, Or.inr he.symm⟩), update_self _ _ _⟩
  · exact (mem_addProcessToRq.mp h).resolve_left hx
  · dsimp only
    rwa [update_of_ne hx]

end

end Sched

namespace ProcPlace

variable {Proc Q : Type}

/-- The process that a `fork` or a `release_process` under way works on. -/
def subject : ProcPlace Proc Q → Option Proc
  | .forkList q | .forkChild q | .reap q | .unlist q | .free q => some q
  | _ => none

def leaving : ProcPlace Proc Q → Bool
  | .notify | .wakeUp _ | .wakeUpQueue _ _ | .exitSchedule | .exited => true
  | _ => false

def waitsOn (p : Proc) : ProcPlace Proc Q → WaitQueue Proc Q → Prop
  | .waitSleep _, q | .scan _ _ _, q | .waitSchedule _, q | .reap _, q | .unlist _, q | .free _, q
  | .waitRunning, q | .waitRemove, q => q = .child p
  | .sleepState q', q | .sleepSchedule q', q | .sleepRemove q', q => q = .other q'
  | _, _ => False

def timed : ProcPlace Proc Q → Bool
  | .timerState | .timerSchedule | .timerRemove => true
  | _ => false

/-- Going from the place `a` to `b` a process leaves neither the zombies nor a queue nor its timer. -/
def Before (p : Proc) (a b : ProcPlace Proc Q) : Prop :=
  (a.leaving = true → b.leaving = true) ∧ (∀ q, a.waitsOn p q → b.waitsOn p q) ∧
    (a.timed = true → b.timed = true)

theorem waitsOn_leaving {y : ProcPlace Proc Q} {p : Proc} {w : WaitQueue Proc Q} (hy : y.waitsOn p w) :
    y.leaving = false := by
  cases y <;> first | rfl | cases hy

theorem timed_leaving {y : ProcPlace Proc Q} (hy : y.timed = true) : y.leaving = false := by
  cases y <;> first | rfl | cases hy

end ProcPlace

namespace ProcSys

variable {Proc Q : Type} [DecidableEq Proc] [DecidableEq Q] {cpus : Nat}

structure Gone (s : ProcSys Proc Q cpus) (x : Proc) : Prop where
  leaving : (s.place x).leaving = true
  state : s.sched.state x = .zombie
  queue : x ∉ s.sched.runQueue
  waking : x ∉ s.sched.waking
  nonIdle : s.sched.NonIdle x

/-- What the process `p` relies on at a place. -/
def Relies (s : ProcSys Proc Q cpus) (p : Proc) : ProcPlace Proc Q → Prop
  | .forkList q => s.tree.live q = true ∧ s.sched.NonIdle q ∧ q ∉ s.tree.procList
  | .forkChild q => s.tree.live q = true ∧ s.sched.NonIdle q
  | .scan _ rest _ => ∀ x ∈ rest, s.sched.NonIdle x
  | .reap x => s.tree.live x = true ∧ s.Gone x
  | .unlist x => s.tree.live x = true ∧ s.Gone x ∧ s.sched.hasCpu x = false
  | .free x => s.tree.live x = true ∧ s.Gone x ∧ s.sched.hasCpu x = false ∧ x ∉ s.tree.procList
  | .adopt _ _ => s.sched.NonIdle p
  | .notify | .wakeUp _ | .wakeUpQueue _ _ | .exitSchedule => s.Gone p
  | .exited => s.Gone p ∧ ∀ c, s.sched.current c ≠ p
  | _ => True

structure Inv (s : ProcSys Proc Q cpus) : Prop where
  sched : s.sched.Inv
  relies : ∀ p, s.Relies p (s.place p)
  unique : ∀ p p' x, (s.place p).subject = some x → (s.place p').subject = some x → p = p'
  zombie : ∀ p, s.tree.live p = true → s.sched.state p = .zombie → (s.place p).leaving = true
  queued : ∀ q, (s.procs q).Nodup ∧ ∀ p ∈ s.procs q, s.tree.live p = true ∧ (s.place p).waitsOn p q
  timed : s.timers.Nodup ∧ ∀ p ∈ s.timers, s.tree.live p = true ∧ (s.place p).timed = true
  freed : ∀ p, s.tree.live p = false → p ∉ s.sched.runQueue ∧ p ∉ s.sched.waking ∧ p ∉ s.tree.procList ∧
    ∀ c, s.sched.current c ≠ p
  idle : ∀ c, s.tree.live (s.sched.idle c) = true
  children : ∀ p, ∀ x ∈ s.tree.children p, s.sched.NonIdle x
  listed : s.tree.procList.Nodup

/-- A process in `P` releases `x`, which is gone and has no processor. -/
def Releases (s s' : ProcSys Proc Q cpus) (P : Proc → Prop) (x : Proc) : Prop :=
  (∃ p, P p ∧ (s.place p).subject = some x) ∧ s.Gone x ∧ s.sched.hasCpu x = false ∧ x ∉ s'.tree.procList

/-- A step in which the processes in `P` go from place to place, and which touches the processes in `T`
in the scheduler. -/
structure Moved (s s' : ProcSys Proc Q cpus) (P T : Proc → Prop) : Prop where
  sched : s'.sched.Inv
  calm : s.sched.Calm s'.sched T
  touched : ∀ x, T x → s.tree.live x = true ∧ (¬P x → (s.place x).leaving = false ∧ s'.sched.state x ≠ .zombie)
  live : ∀ x, s'.tree.live x = true → s.tree.live x = true
  kept : ∀ x, s.tree.live x = true → s'.tree.live x = true ∨ Releases s s' P x
  single : ∀ x y, P x → P y → x = y
  current : ∀ x, P x → ∃ c, s.sched.current c = x
  place : ∀ x, ¬P x → s'.place x = s.place x
  relies : ∀ x, P x → s'.Relies x (s'.place x)
  gone : ∀ x, P x → s.Gone x → s'.Gone x
  zombie : ∀ x, P x → s'.sched.state x = .zombie → (s'.place x).leaving = true
  subject : ∀ x y, P x → (s'.place x).subject = some y →
    (s.place x).subject = some y ∨ ∀ z, (s.place z).subject ≠ some y
  queued : ∀ q, (s'.procs q).Nodup ∧
    ∀ x ∈ s'.procs q, (¬P x ∧ x ∈ s.procs q) ∨ (P x ∧ (s'.place x).waitsOn x q)
  timed : s'.timers.Nodup ∧ ∀ x ∈ s'.timers, (¬P x ∧ x ∈ s.timers) ∨ (P x ∧ (s'.place x).timed = true)
  listed : s'.tree.procList.Nodup ∧
    ∀ y ∈ s'.tree.procList, y ∈ s.tree.procList ∨ ∃ x, P x ∧ (s.place x).subject = some y
  children : ∀ x, ∀ y ∈ s'.tree.children x, y ∈ s.tree.children x ∨ s.sched.NonIdle y

section

variable {s s' : ProcSys Proc Q cpus} {p q x : Proc} {c : Fin cpus}

section

omit [DecidableEq Q]

theorem Inv.live_current (h : Inv s) (c : Fin cpus) : s.tree.live (s.sched.current c) = true := by
  by_contra hf
  exact (h.freed _ (Bool.eq_false_iff.mpr hf)).2.2.2 c rfl

theorem Inv.gone_of_leaving (h : Inv s) (hx : (s.place x).leaving = true) : s.Gone x := by
  have hr := h.relies x
  cases hpl : s.place x <;> rw [hpl] at hx hr
  case notify | wakeUp | wakeUpQueue | exitSchedule => exact hr
  case exited => exact hr.1
  all_goals cases hx

theorem Inv.live_subject (h : Inv s) (hx : (s.place p).subject = some x) : s.tree.live x = true := by
  have hr := h.relies p
  cases hpl : s.place p <;> rw [hpl] at hx hr
  case forkList | forkChild | reap | unlist | free =>
    cases hx
    exact hr.1
  all_goals cases hx

variable {P T : Proc → Prop}

theorem Moved.nonIdle (m : Moved s s' P T) (x : Proc) : s'.sched.NonIdle x ↔ s.sched.NonIdle x := by
  rw [Sched.NonIdle, Sched.NonIdle, m.calm.idle]

theorem Moved.untouched (m : Moved s s' P T) (hp : ¬P x) (hx : s.Gone x) : ¬T x := by
  intro ht
  have := ((m.touched x ht).2 hp).1
  rw [hx.leaving] at this
  cases this

omit [DecidableEq Proc] in
theorem Gone.calm (hx : s.Gone x) (hc : s.sched.Calm s'.sched T) (ht : ¬T x)
    (hl : (s'.place x).leaving = true) : s'.Gone x := by
  refine ⟨hl, ?_, fun hm => hx.queue (hc.queue x ht hm), fun hm => hx.waking (hc.waking x ht hm), ?_⟩
  · rw [hc.state x ht]
    exact hx.state
  · rw [Sched.NonIdle, hc.idle]
    exact hx.nonIdle

theorem Moved.keeps_gone (m : Moved s s' P T) (hx : s.Gone x) : s'.Gone x := by
  by_cases hp : P x
  · exact m.gone x hp hx
  · refine hx.calm m.calm (m.untouched hp hx) ?_
    rw [m.place x hp]
    exact hx.leaving

theorem Moved.keeps_off (h : Inv s) (m : Moved s s' P T) (hx : s.Gone x) (hc : s.sched.hasCpu x = false) :
    s'.sched.hasCpu x = false := by
  have hp : ¬P x := by
    intro hp
    obtain ⟨c, hcur⟩ := m.current x hp
    exact (h.sched.not_current hx.nonIdle hc).1 c hcur
  exact m.calm.hasCpu x (m.untouched hp hx) hc

omit [DecidableEq Proc] in
theorem Relies.mono {y : ProcPlace Proc Q} (hr : s.Relies p y) (hidle : s'.sched.idle = s.sched.idle)
    (hlive : ∀ z, y.subject = some z → s.tree.live z = true → s'.tree.live z = true)
    (hlist : ∀ z, y.subject = some z → z ∉ s.tree.procList → z ∉ s'.tree.procList)
    (hgone : ∀ z, z = p ∨ y.subject = some z → s.Gone z → s'.Gone z)
    (hcpu : ∀ z, y.subject = some z → s.Gone z → s.sched.hasCpu z = false → s'.sched.hasCpu z = false)
    (hcur : s.Gone p → (∀ c, s.sched.current c ≠ p) → ∀ c, s'.sched.current c ≠ p) : s'.Relies p y := by
  have hn : ∀ z, s.sched.NonIdle z → s'.sched.NonIdle z := by
    intro z hz
    rwa [Sched.NonIdle, hidle]
  cases y
  case forkList q => exact ⟨hlive q rfl hr.1, hn q hr.2.1, hlist q rfl hr.2.2⟩
  case forkChild q => exact ⟨hlive q rfl hr.1, hn q hr.2⟩
  case scan pid rest flag => exact fun z hz => hn z (hr z hz)
  case reap x => exact ⟨hlive x rfl hr.1, hgone x (Or.inr rfl) hr.2⟩
  case unlist x =>
    obtain ⟨h1, h2, h3⟩ := hr
    exact ⟨hlive x rfl h1, hgone x (Or.inr rfl) h2, hcpu x rfl h2 h3⟩
  case free x =>
    obtain ⟨h1, h2, h3, h4⟩ := hr
    exact ⟨hlive x rfl h1, hgone x (Or.inr rfl) h2, hcpu x rfl h2 h3, hlist x rfl h4⟩
  case adopt => exact hn p hr
  case notify | wakeUp | wakeUpQueue | exitSchedule => exact hgone p (Or.inl rfl) hr
  case exited => exact ⟨hgone p (Or.inl rfl) hr.1, hcur hr.1 hr.2⟩
  all_goals trivial

section

variable (h : Inv s) (m : Moved s s' P T)
include h m

theorem Moved.keeps_relies (hp : ¬P p) : s'.Relies p (s.place p) := by
  refine Relies.mono (h.relies p) m.calm.idle (fun z hz hl => ?_) (fun z hz hl hm => ?_)
    (fun z _ => m.keeps_gone) (fun z _ => m.keeps_off h) fun hg => m.calm.current p (m.untouched hp hg)
  · refine (m.kept z hl).resolve_right ?_
    rintro ⟨⟨p', hp', hz'⟩, -⟩
    exact hp (h.unique p p' z hz hz' ▸ hp')
  · obtain ⟨p', hp', hz'⟩ := (m.listed.2 z hm).resolve_left hl
    exact hp (h.unique p p' z hz hz' ▸ hp')

theorem Moved.keeps_live (hl : s.tree.live x = true)
    (hx : (s.place x).leaving = false ∨ ∃ c, s.sched.current c = x) : s'.tree.live x = true := by
  refine (m.kept x hl).resolve_right ?_
  rintro ⟨-, hg, hc, -⟩
  rcases hx with hx | ⟨c, hx⟩
  · rw [hg.leaving] at hx
    cases hx
  · exact (h.sched.not_current hg.nonIdle hc).1 c hx

theorem Inv.moved : Inv s' := by
  have hsub : ∀ x y, (s'.place x).subject = some y →
      (s.place x).subject = some y ∨ (P x ∧ ∀ z, (s.place z).subject ≠ some y) := by
    intro x y hx
    by_cases hp : P x
    · exact (m.subject x y hp hx).imp_right fun hz => ⟨hp, hz⟩
    · rw [m.place x hp] at hx
      exact Or.inl hx
  have hactor : ∀ x, P x → s'.tree.live x = true := by
    intro x hp
    obtain ⟨c, rfl⟩ := m.current x hp
    exact m.keeps_live h (h.live_current c) (Or.inr ⟨c, rfl⟩)
  refine ⟨m.sched, fun p => ?_, fun p p' x hx hx' => ?_, fun p hl hz => ?_, fun q => ⟨(m.queued q).1, fun p hp => ?_⟩,
    ⟨m.timed.1, fun p hp => ?_⟩, fun p hl => ?_, fun c => ?_, fun p x hx => ?_, m.listed.1⟩
  · by_cases hp : P p
    · exact m.relies p hp
    · rw [m.place p hp]
      exact m.keeps_relies h hp
  · rcases hsub p x hx with hx | ⟨hp, hx⟩
    · rcases hsub p' x hx' with hx' | ⟨hp', hx'⟩
      · exact h.unique p p' x hx hx'
      · exact absurd hx (hx' p)
    · rcases hsub p' x hx' with hx' | ⟨hp', hx'⟩
      · exact absurd hx' (hx p')
      · exact m.single p p' hp hp'
  · by_cases hp : P p
    · exact m.zombie p hp hz
    · rw [m.place p hp]
      by_cases ht : T p
      · exact absurd hz ((m.touched p ht).2 hp).2
      · rw [m.calm.state p ht] at hz
        exact h.zombie p (m.live p hl) hz
  · rcases (m.queued q).2 p hp with ⟨hnp, hm⟩ | ⟨hpp, hw⟩
    · obtain ⟨h1, h2⟩ := (h.queued q).2 p hm
      rw [m.place p hnp]
      exact ⟨m.keeps_live h h1 (Or.inl (ProcPlace.waitsOn_leaving h2)), h2⟩
    · exact ⟨hactor p hpp, hw⟩
  · rcases m.timed.2 p hp with ⟨hnp, hm⟩ | ⟨hpp, hw⟩
    · obtain ⟨h1, h2⟩ := h.timed.2 p hm
      rw [m.place p hnp]
      exact ⟨m.keeps_live h h1 (Or.inl (ProcPlace.timed_leaving h2)), h2⟩
    · exact ⟨hactor p hpp, hw⟩
  · by_cases hl' : s.tree.live p = true
    · rcases m.kept p hl' with hk | ⟨-, hg, hc, hlist⟩
      · rw [hk] at hl
        cases hl
      · have hg' := m.keeps_gone hg
        exact ⟨hg'.queue, hg'.waking, hlist, (m.sched.not_current hg'.nonIdle (m.keeps_off h hg hc)).1⟩
    · have ht : ¬T p := fun ht => hl' (m.touched p ht).1
      obtain ⟨h1, h2, h3, h4⟩ := h.freed p (Bool.eq_false_iff.mpr hl')
      refine ⟨fun hm => h1 (m.calm.queue p ht hm), fun hm => h2 (m.calm.waking p ht hm), fun hm => ?_,
        m.calm.current p ht h4⟩
      rcases m.listed.2 p hm with hm | ⟨x, -, hx⟩
      · exact h3 hm
      · exact hl' (h.live_subject hx)
  · rw [m.calm.idle]
    refine (m.kept _ (h.idle c)).resolve_right ?_
    rintro ⟨-, hg, -⟩
    exact hg.nonIdle c rfl
  · exact (m.nonIdle x).mpr ((m.children p x hx).elim (h.children p x) id)

end

variable {x : ProcPlace Proc Q}

section

variable (h : Inv s) (hp : s.sched.current c = p)
include h hp

theorem Inv.goes (hplace : s'.place = update s.place p x) (hsched : s'.sched.Inv) (hcalm : s.sched.Calm s'.sched T)
    (htouched : ∀ y, T y → s.tree.live y = true ∧ (s.place y).leaving = false ∧
      (s'.sched.state y = .zombie → y = p ∧ x.leaving = true)) (hqueues : s'.procs = s.procs ∧ s'.timers = s.timers)
    (hlive : ∀ y, s'.tree.live y = true → s.tree.live y = true)
    (hkept : ∀ y, s.tree.live y = true → s'.tree.live y = true ∨ Releases s s' (· = p) y)
    (hbefore : (s.place p).Before p x) (hrelies : s'.Relies p x)
    (hsubject : ∀ y, x.subject = some y → (s.place p).subject = some y ∨ ∀ z, (s.place z).subject ≠ some y)
    (hlisted : s'.tree.procList.Nodup ∧
      ∀ y ∈ s'.tree.procList, y ∈ s.tree.procList ∨ (s.place p).subject = some y)
    (hchildren : ∀ z, ∀ y ∈ s'.tree.children z, y ∈ s.tree.children z ∨ s.sched.NonIdle y) : Inv s' := by
  have hself : s'.place p = x := by rw [hplace, update_self]
  have hgone : s.Gone p → ¬T p := by
    intro hg ht
    have := (htouched p ht).2.1
    rw [hg.leaving] at this
    cases this
  have hmem : ∀ {q y}, y ∈ s.procs q → (s.place y).waitsOn y q := fun hy => ((h.queued _).2 _ hy).2
  refine h.moved (P := (· = p)) (T := T) ⟨hsched, hcalm, ?_, hlive, hkept, ?_, ?_, ?_, ?_, ?_, ?_,
    ?_, ?_, ?_, ?_, hchildren⟩
  · intro y hy
    obtain ⟨h1, h2, h3⟩ := htouched y hy
    exact ⟨h1, fun hne => ⟨h2, fun hz => hne (h3 hz).1⟩⟩
  · rintro y z rfl rfl
    rfl
  · rintro y rfl
    exact ⟨c, hp⟩
  · intro y hy
    rw [hplace, update_of_ne hy]
  · rintro y rfl
    rwa [hself]
  · rintro y rfl hg
    refine hg.calm hcalm (hgone hg) ?_
    rw [hself]
    exact hbefore.1 hg.leaving
  · rintro y rfl hz
    rw [hself]
    by_cases ht : T y
    · exact ((htouched y ht).2.2 hz).2
    · rw [hcalm.state y ht] at hz
      exact hbefore.1 (h.zombie y (hp ▸ h.live_current c) hz)
  · rintro y z rfl hy
    rw [hself] at hy
    exact hsubject z hy
  · intro q
    rw [hqueues.1]
    refine ⟨(h.queued q).1, fun y hy => ?_⟩
    by_cases hyp : y = p
    · subst y
      rw [hself]
      exact Or.inr ⟨rfl, hbefore.2.1 q (hmem hy)⟩
    · exact Or.inl ⟨hyp, hy⟩
  · rw [hqueues.2]
    refine ⟨h.timed.1, fun y hy => ?_⟩
    by_cases hyp : y = p
    · subst y
      rw [hself]
      exact Or.inr ⟨rfl, hbefore.2.2 (h.timed.2 p hy).2⟩
    · exact Or.inl ⟨hyp, hy⟩
  · refine ⟨hlisted.1, fun y hy => ?_⟩
    exact (hlisted.2 y hy).imp_right fun hs => ⟨p, rfl, hs⟩

theorem Inv.walk {t : ProcTree Proc} (hlive : t.live = s.tree.live) (hbefore : (s.place p).Before p x)
    (hrelies : ((s.setTree t).setPlace p x).Relies p x)
    (hsubject : ∀ y, x.subject = some y → (s.place p).subject = some y ∨ ∀ z, (s.place z).subject ≠ some y)
    (hlisted : t.procList.Nodup ∧ ∀ y ∈ t.procList, y ∈ s.tree.procList ∨ (s.place p).subject = some y)
    (hchildren : ∀ z, ∀ y ∈ t.children z, y ∈ s.tree.children z ∨ s.sched.NonIdle y) :
    Inv ((s.setTree t).setPlace p x) :=
  h.goes hp rfl h.sched (Sched.Calm.refl s.sched) (fun _ h => h.elim) ⟨rfl, rfl⟩ (fun _ hy => hlive ▸ hy)
    (fun _ hy => Or.inl (hlive ▸ hy)) hbefore hrelies hsubject hlisted hchildren

theorem Inv.walk_place (hbefore : (s.place p).Before p x) (hrelies : (s.setPlace p x).Relies p x)
    (hsubject : ∀ y, x.subject = some y → (s.place p).subject = some y ∨ ∀ z, (s.place z).subject ≠ some y) :
    Inv (s.setPlace p x) :=
  h.walk (t := s.tree) hp rfl hbefore hrelies hsubject ⟨h.listed, fun _ hy => Or.inl hy⟩
    fun _ _ hy => Or.inl hy

end

theorem Inv.stays (h : Inv s) (hplace : s'.place = s.place) (hsched : s'.sched.Inv)
    (hcalm : s.sched.Calm s'.sched T) (htouched : ∀ y, T y → s.tree.live y = true ∧
      (s.place y).leaving = false ∧ s'.sched.state y ≠ .zombie)
    (hqueues : s'.procs = s.procs ∧ s'.timers = s.timers) (htree : s'.tree = s.tree) : Inv s' := by
  refine h.moved (P := fun _ => False) (T := T) ⟨hsched, hcalm, ?_, fun _ hy => htree ▸ hy,
    fun _ hy => Or.inl (htree ▸ hy), fun _ _ h => h.elim, fun _ h => h.elim, fun y _ => by rw [hplace],
    fun _ h => h.elim, fun _ h => h.elim, fun _ h => h.elim, fun _ _ h => h.elim, ?_, ?_, ?_, ?_⟩
  · intro y hy
    exact ⟨(htouched y hy).1, fun _ => (htouched y hy).2⟩
  · intro q
    rw [hqueues.1]
    exact ⟨(h.queued q).1, fun y hy => Or.inl ⟨not_false, hy⟩⟩
  · rw [hqueues.2]
    exact ⟨h.timed.1, fun y hy => Or.inl ⟨not_false, hy⟩⟩
  · rw [htree]
    exact ⟨h.listed, fun y hy => Or.inl hy⟩
  · rw [htree]
    exact fun _ _ hy => Or.inl hy

end

section

omit [DecidableEq Q]

variable {y : ProcPlace Proc Q}

theorem through_eq {a : SchedAct Proc cpus} (hs : s.through c a y = some s') :
    ∃ sched, s.sched.step a = some sched ∧ s' = (s.setSched sched).setPlace (s.sched.current c) y := by
  obtain ⟨sched, hsched, rfl⟩ := map_eq_some_iff.mp hs
  exact ⟨sched, hsched, rfl⟩

theorem Inv.alive (h : Inv s) (hx : x ∈ s.sched.runQueue ∨ x ∈ s.sched.waking) :
    s.tree.live x = true ∧ (s.place x).leaving = false ∧ s.sched.state x ≠ .zombie := by
  have hgone : ¬s.Gone x := fun hg => hx.elim hg.queue hg.waking
  have hlive : s.tree.live x = true := by
    by_contra hf
    obtain ⟨h1, h2, -⟩ := h.freed x (Bool.eq_false_iff.mpr hf)
    exact hx.elim h1 h2
  have hleave : (s.place x).leaving = false := by
    by_contra hl
    exact hgone (h.gone_of_leaving (Bool.eq_true_of_not_eq_false hl))
  refine ⟨hlive, hleave, fun hz => ?_⟩
  rw [h.zombie x hlive hz] at hleave
  cases hleave

theorem Inv.schedule_touched (h : Inv s)
    (hx : x ∈ s.sched.runQueue ∨ x = s.sched.idle c ∨ (x = s.sched.current c ∧ s.sched.state x = .running)) :
    s.tree.live x = true ∧ (s.place x).leaving = false ∧ s.sched.state x ≠ .zombie := by
  rcases hx with hx | rfl | ⟨rfl, hx⟩
  · exact h.alive (Or.inl hx)
  · have hleave : (s.place (s.sched.idle c)).leaving = false := by
      by_contra hl
      exact (h.gone_of_leaving (Bool.eq_true_of_not_eq_false hl)).nonIdle c rfl
    refine ⟨h.idle c, hleave, fun hz => ?_⟩
    rw [h.zombie _ (h.idle c) hz] at hleave
    cases hleave
  · refine ⟨h.live_current c, ?_, by rw [hx]; exact ProcState.noConfusion⟩
    by_contra hl
    have := (h.gone_of_leaving (Bool.eq_true_of_not_eq_false hl)).state
    rw [hx] at this
    cases this

theorem Inv.through_schedule (h : Inv s) (hs : s.through c (.schedule c) y = some s')
    (hbefore : (s.place (s.sched.current c)).Before (s.sched.current c) y)
    (hrelies : s'.Relies (s.sched.current c) y) (hsubject : y.subject = none) : Inv s' := by
  obtain ⟨sched, hsched, rfl⟩ := through_eq hs
  obtain ⟨hstate, hcalm⟩ := Sched.calm_schedule hsched
  refine h.goes rfl rfl (h.sched.step hsched) hcalm ?_ ⟨rfl, rfl⟩ (fun _ hy => hy) (fun _ hy => Or.inl hy) hbefore
    hrelies (by simp [hsubject]) ⟨h.listed, fun _ hy => Or.inl hy⟩ fun _ _ hy => Or.inl hy
  intro x hx
  obtain ⟨h1, h2, h3⟩ := h.schedule_touched hx
  refine ⟨h1, h2, fun hz => absurd ?_ h3⟩
  rw [← hstate]
  exact hz

theorem Inv.through_setState (h : Inv s) {st : ProcState}
    (hs : s.through c (.setState c st) y = some s') (hleave : (s.place (s.sched.current c)).leaving = false)
    (hzombie : st = .zombie → y.leaving = true) (hbefore : (s.place (s.sched.current c)).Before (s.sched.current c) y)
    (hrelies : s'.Relies (s.sched.current c) y) (hsubject : y.subject = none) : Inv s' := by
  obtain ⟨sched, hsched, rfl⟩ := through_eq hs
  refine h.goes rfl rfl (h.sched.step hsched) (Sched.calm_setState st hsched) ?_ ⟨rfl, rfl⟩
    (fun _ hy => hy) (fun _ hy => Or.inl hy) hbefore hrelies (by simp [hsubject])
    ⟨h.listed, fun _ hy => Or.inl hy⟩ fun _ _ hy => Or.inl hy
  rintro x rfl
  refine ⟨h.live_current c, hleave, fun hz => ⟨rfl, hzombie ?_⟩⟩
  cases hsched
  simpa [setPlace, setSched] using hz

theorem Inv.wake_touched (h : Inv s) {w : Proc} {sched : Sched Proc cpus}
    (hw : (∃ q, w ∈ s.procs q) ∨ w ∈ s.timers) (hsched : s.sched.step (.wakeUpState w) = some sched) :
    s.tree.live w = true ∧ (s.place w).leaving = false ∧ sched.state w ≠ .zombie := by
  have hstate : sched.state w ≠ .zombie := by
    cases hsched
    simp
  rcases hw with ⟨q, hw⟩ | hw
  · obtain ⟨h1, h2⟩ := (h.queued q).2 w hw
    exact ⟨h1, ProcPlace.waitsOn_leaving h2, hstate⟩
  · obtain ⟨h1, h2⟩ := h.timed.2 w hw
    exact ⟨h1, ProcPlace.timed_leaving h2, hstate⟩

theorem Inv.requeue (h : Inv s) (hp : s.sched.current c = p)
    (hplace : s'.place = update s.place p y) (hsched : s'.sched = s.sched) (htree : s'.tree = s.tree)
    (hleave : (s.place p).leaving = false) (hrelies : s'.Relies p y) (hsubject : y.subject = none)
    (hqueued : ∀ q, (s'.procs q).Nodup ∧ ∀ x ∈ s'.procs q, (x ≠ p ∧ x ∈ s.procs q) ∨ (x = p ∧ y.waitsOn p q))
    (htimed : s'.timers.Nodup ∧ ∀ x ∈ s'.timers, (x ≠ p ∧ x ∈ s.timers) ∨ (x = p ∧ y.timed = true)) : Inv s' := by
  have hself : s'.place p = y := by rw [hplace, update_self]
  have hlive : s.tree.live p = true := hp ▸ h.live_current c
  refine h.moved (P := (· = p)) (T := fun _ => False) ⟨hsched ▸ h.sched, ?_, fun _ h => h.elim, fun _ hx => htree ▸ hx,
    fun _ hx => Or.inl (htree ▸ hx), ?_, ?_, ?_, ?_, ?_, ?_, ?_, ?_, ?_, ?_, ?_⟩
  · rw [hsched]
    exact Sched.Calm.refl s.sched
  · rintro x z rfl rfl
    rfl
  · rintro x rfl
    exact ⟨c, hp⟩
  · intro x hx
    rw [hplace, update_of_ne hx]
  · rintro x rfl
    rwa [hself]
  · rintro x rfl hg
    rw [hg.leaving] at hleave
    cases hleave
  · rintro x rfl hz
    rw [hsched] at hz
    rw [h.zombie x hlive hz] at hleave
    cases hleave
  · rintro x z rfl hz
    rw [hself, hsubject] at hz
    cases hz
  · intro q
    refine ⟨(hqueued q).1, fun x hx => ?_⟩
    rcases (hqueued q).2 x hx with hx | ⟨rfl, hx⟩
    · exact Or.inl hx
    · rw [hself]
      exact Or.inr ⟨rfl, hx⟩
  · refine ⟨htimed.1, fun x hx => ?_⟩
    rcases htimed.2 x hx with hx | ⟨rfl, hx⟩
    · exact Or.inl hx
    · rw [hself]
      exact Or.inr ⟨rfl, hx⟩
  · rw [htree]
    exact ⟨h.listed, fun _ hx => Or.inl hx⟩
  · rw [htree]
    exact fun _ _ hx => Or.inl hx

end

omit [DecidableEq Q] in
theorem Inv.ne_of_timed {x : Proc} (h : Inv s) (htime : (s.place p).timed = false) (hx : x ∈ s.timers) : x ≠ p := by
  rintro rfl
  rw [(h.timed.2 _ hx).2] at htime
  cases htime

theorem Inv.add (h : Inv s) {y : ProcPlace Proc Q} {q : WaitQueue Proc Q}
    (hs : s.add (s.sched.current c) q y = some s')
    (hfree : ∀ q, ¬(s.place (s.sched.current c)).waitsOn (s.sched.current c) q)
    (htime : (s.place (s.sched.current c)).timed = false)
    (hleave : (s.place (s.sched.current c)).leaving = false) (hwaits : y.waitsOn (s.sched.current c) q)
    (hrelies : s'.Relies (s.sched.current c) y) (hsubject : y.subject = none) : Inv s' := by
  obtain ⟨-, he⟩ := ite_none_right_eq_some.mp hs
  cases he
  have hnot : ∀ q, s.sched.current c ∉ s.procs q := fun q hm => hfree q ((h.queued q).2 _ hm).2
  refine h.requeue (c := c) rfl rfl rfl rfl hleave hrelies hsubject (fun q' => ?_) ⟨h.timed.1, fun x hx => ?_⟩
  · simp only [setPlace, setProcs, update_apply]
    split_ifs with hq
    · subst q'
      refine ⟨(h.queued q).1.append (nodup_singleton _) (disjoint_singleton.mpr (hnot q)), fun x hx => ?_⟩
      by_cases hxp : x = s.sched.current c
      · exact Or.inr ⟨hxp, hwaits⟩
      · rw [mem_append, mem_singleton] at hx
        exact Or.inl ⟨hxp, hx.resolve_right hxp⟩
    · exact ⟨(h.queued q').1, fun x hx => Or.inl ⟨fun he => hnot q' (he ▸ hx), hx⟩⟩
  · exact Or.inl ⟨h.ne_of_timed htime hx, hx⟩

theorem Inv.remove (h : Inv s) {q : WaitQueue Proc Q} (hs : s.remove (s.sched.current c) q = some s')
    (hone : ∀ q', (s.place (s.sched.current c)).waitsOn (s.sched.current c) q' → q' = q)
    (htime : (s.place (s.sched.current c)).timed = false)
    (hleave : (s.place (s.sched.current c)).leaving = false) : Inv s' := by
  obtain ⟨-, he⟩ := ite_none_right_eq_some.mp hs
  cases he
  refine h.requeue (c := c) rfl rfl rfl rfl hleave trivial rfl (fun q' => ?_) ⟨h.timed.1, fun x hx => ?_⟩
  · simp only [setPlace, setProcs, update_apply]
    split_ifs with hq
    · subst q'
      refine ⟨(h.queued q).1.erase _, fun x hx => ?_⟩
      rw [(h.queued q).1.mem_erase_iff] at hx
      exact Or.inl hx
    · exact ⟨(h.queued q').1, fun x hx => Or.inl ⟨fun he => hq (hone q' (he ▸ ((h.queued q').2 x hx).2)), hx⟩⟩
  · exact Or.inl ⟨h.ne_of_timed htime hx, hx⟩

omit [DecidableEq Q] in
theorem Inv.retime (h : Inv s) {y : ProcPlace Proc Q} {timers : List Proc} (hp : s.sched.current c = p)
    (hfree : ∀ q, ¬(s.place p).waitsOn p q) (hleave : (s.place p).leaving = false)
    (hrelies : Relies { s.setPlace p y with timers := timers } p y) (hsubject : y.subject = none)
    (htimed : timers.Nodup ∧ ∀ x ∈ timers, (x ≠ p ∧ x ∈ s.timers) ∨ (x = p ∧ y.timed = true)) :
    Inv { s.setPlace p y with timers := timers } := by
  refine h.requeue hp rfl rfl rfl hleave hrelies hsubject (fun q => ⟨(h.queued q).1, fun x hx => ?_⟩) htimed
  refine Or.inl ⟨?_, hx⟩
  rintro rfl
  exact hfree q ((h.queued q).2 x hx).2

theorem Inv.born (h : Inv s) {pid : Word} {sched : Sched Proc cpus} (next : Word) (hq : s.tree.live q = false)
    (hsched : run Sched.step s.sched [.forkState q pid, .forkQueue q] = some sched) :
    Inv { s with
      sched := sched
      tree := s.tree.place p q
      nextPid := next
      place := update s.place q .user
      procs := update s.procs (.child q) []
      waker := update s.waker (.child q) none } := by
  obtain ⟨hcalm, hcur, -, hrun⟩ := Sched.calm_fork hsched
  have hinv : sched.Inv := by
    refine run_invariant (fun _ _ _ hi _ hs => Sched.Inv.step hi hs) h.sched (along_true _ _) hsched
  have hne : ∀ {x}, s.tree.live x = true → x ≠ q := by
    rintro x hx rfl
    rw [hx] at hq
    cases hq
  have hlive : ∀ {x}, s.tree.live x = true → update s.tree.live q true x = true := by
    intro x hx
    rw [update_of_ne (hne hx)]
    exact hx
  have hplace : ∀ {x}, x ≠ q → update s.place q .user x = s.place x :=
    fun hx => update_of_ne hx _ _
  have hsub : ∀ {x y}, (update s.place q .user x).subject = some y → (s.place x).subject = some y := by
    intro x y hx
    by_cases hxq : x = q
    · rw [hxq, update_self] at hx
      cases hx
    · rwa [hplace hxq] at hx
  refine ⟨hinv, fun x => ?_, fun x x' y hx hx' => h.unique x x' y (hsub hx) (hsub hx'), fun x hl hz => ?_,
    fun w => ?_, ⟨h.timed.1, fun x hx => ?_⟩, fun x hl => ?_, fun c => ?_, fun x y hy => ?_, h.listed⟩
  · by_cases hxq : x = q
    · dsimp only
      rw [hxq, update_self]
      trivial
    · dsimp only
      rw [hplace hxq]
      have hother : ∀ z, z = x ∨ (s.place x).subject = some z → z ≠ q := by
        rintro z (rfl | hz)
        · exact hxq
        · exact hne (h.live_subject hz)
      refine Relies.mono (h.relies x) hcalm.idle (fun z _ => hlive) (fun _ _ hl => hl) (fun z hz hg => ?_)
        (fun z hz _ hc => hcalm.hasCpu z (hother z (Or.inr hz)) hc) fun _ hc c => by rw [hcur]; exact hc c
      refine hg.calm hcalm (hother z hz) ?_
      dsimp only
      rw [hplace (hother z hz)]
      exact hg.leaving
  · by_cases hxq : x = q
    · dsimp only at hz
      rw [hxq, hrun] at hz
      cases hz
    · dsimp only at hz ⊢
      rw [hplace hxq]
      rw [hcalm.state x hxq] at hz
      exact h.zombie x ((update_of_ne hxq _ _).symm.trans hl) hz
  · dsimp only
    rw [update_apply]
    split_ifs with hw
    · exact ⟨nodup_nil, fun x hx => absurd hx not_mem_nil⟩
    · refine ⟨(h.queued w).1, fun x hx => ?_⟩
      obtain ⟨h1, h2⟩ := (h.queued w).2 x hx
      rw [hplace (hne h1)]
      exact ⟨hlive h1, h2⟩
  · obtain ⟨h1, h2⟩ := h.timed.2 x hx
    dsimp only
    rw [hplace (hne h1)]
    exact ⟨hlive h1, h2⟩
  · have hxq : x ≠ q := by
      rintro rfl
      simp [ProcTree.place] at hl
    obtain ⟨h1, h2, h3, h4⟩ := h.freed x ((update_of_ne hxq _ _).symm.trans hl)
    exact ⟨fun hm => h1 (hcalm.queue x hxq hm), fun hm => h2 (hcalm.waking x hxq hm), h3, hcalm.current x hxq h4⟩
  · dsimp only
    rw [hcalm.idle]
    exact hlive (h.idle c)
  · have hy' : y ∈ s.tree.children x := by
      simp only [ProcTree.place, update_apply] at hy
      split_ifs at hy
      · cases hy
      · exact hy
    intro c
    rw [hcalm.idle]
    exact h.children x y hy' c

end

end ProcSys

end BabyOS
