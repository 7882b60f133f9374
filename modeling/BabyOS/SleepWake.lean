import BabyOS.Sched

open Function List Option

namespace BabyOS

/-- What a process waits for: a line from the keyboard, in `console_t::read`, or its timer, in `sleep`. -/
inductive SleepKind
  | console
  | timer
  deriving DecidableEq

/-- A process on its way to sleep and back has found no line, can be found by what it waits for, has set its
state, has called `schedule`, and has left the wait queue again. -/
inductive SleepPhase
  | awake
  | compared
  | published (k : SleepKind)
  | slept (k : SleepKind)
  | off (k : SleepKind)
  | back
  deriving DecidableEq

/-- The scheduler with processes that read lines and sleep: where each stands, the wait queue of the console, the
indices of its input buffer, the keyboard interrupts that are still to wake a reader, and the ticks left of the
timers in the list. -/
structure SleepSys (Proc : Type) (cpus : Nat) where
  sched : Sched Proc cpus
  phase : Proc → SleepPhase
  waitQueue : List Proc
  readIndex : Word
  writeIndex : Word
  wakes : Nat
  timer : Proc → Option Nat

inductive SleepAct (Proc : Type) (cpus : Nat)
  | compare (p : Proc)
  | add (p : Proc)
  | addTimer (p : Proc) (ticks : Nat)
  | setSleep (p : Proc) (c : Fin cpus)
  | schedule (p : Proc) (c : Fin cpus)
  | resume (p : Proc)
  | take (p : Proc)
  | line (chars : Word)
  | wake
  | tick (p : Proc)
  | other (a : SchedAct Proc cpus)

namespace SleepSys

variable {Proc : Type} [DecidableEq Proc] {cpus : Nat}

def OnCpu (s : SleepSys Proc cpus) (p : Proc) : Prop := ∃ c, s.sched.current c = p

instance decidableOnCpu (s : SleepSys Proc cpus) (p : Proc) : Decidable (s.OnCpu p) :=
  inferInstanceAs (Decidable (∃ c, s.sched.current c = p))

def setSched (s : SleepSys Proc cpus) (t : Sched Proc cpus) : SleepSys Proc cpus := { s with sched := t }

def setPhase (s : SleepSys Proc cpus) (p : Proc) (ph : SleepPhase) : SleepSys Proc cpus :=
  { s with phase := update s.phase p ph }

/-- What the rest of the system does leaves the readers alone: inside the kernel they keep their processor until they
call `schedule`. -/
def Foreign (readers : Proc → Bool) (s : SleepSys Proc cpus) : SchedAct Proc cpus → Prop
  | .schedule c => readers (s.sched.current c) = true → s.phase (s.sched.current c) = .awake
  | .wakeUpState q => readers q = false
  | .setState c _ => readers (s.sched.current c) = false
  | .forkState q _ => readers q = false
  | _ => True

instance decidableForeign (readers : Proc → Bool) (s : SleepSys Proc cpus) :
    (a : SchedAct Proc cpus) → Decidable (Foreign readers s a)
  | .schedule c => inferInstanceAs (Decidable (readers (s.sched.current c) = true → s.phase (s.sched.current c) = .awake))
  | .wakeUpState q => inferInstanceAs (Decidable (readers q = false))
  | .setState c _ => inferInstanceAs (Decidable (readers (s.sched.current c) = false))
  | .forkState q _ => inferInstanceAs (Decidable (readers q = false))
  | .scheduleTail _ => isTrue trivial
  | .wakeUpQueue _ => isTrue trivial
  | .forkQueue _ => isTrue trivial

/-- The comparison of the loop of `read`, with the character that is taken where there is one. -/
def compare (s : SleepSys Proc cpus) (p : Proc) : SleepSys Proc cpus :=
  if s.readIndex = s.writeIndex then s.setPhase p .compared else { s with readIndex := s.readIndex + 1 }

/-- What is left of `sleep_on` and of `sleep` after `schedule`. -/
def resume (s : SleepSys Proc cpus) (p : Proc) : SleepKind → SleepSys Proc cpus
  | .console => { s.setPhase p .back with waitQueue := s.waitQueue.erase p }
  | .timer => { s.setPhase p .awake with timer := update s.timer p none }

/-- `wait_queue_t::wake_up`, as far as the first step of `wake_up_process`: the process stays in the queue. -/
def wakeUp (s : SleepSys Proc cpus) : Option (SleepSys Proc cpus) :=
  match s.waitQueue with
  | [] => some s
  | q :: _ => (s.sched.step (.wakeUpState q)).map s.setSched

def updateTimer (s : SleepSys Proc cpus) (p : Proc) : Option (SleepSys Proc cpus) :=
  match s.timer p with
  | none | some 0 => some s
  | some (n + 1) =>
    let s := { s with timer := update s.timer p (some n) }
    if n = 0 then (s.sched.step (.wakeUpState p)).map s.setSched else some s

/-- One step of a reader, of an interrupt or of the rest of the system. -/
def step (readers : Proc → Bool) (s : SleepSys Proc cpus) : SleepAct Proc cpus → Option (SleepSys Proc cpus)
  | .compare p => if readers p ∧ s.phase p = .awake ∧ s.OnCpu p then some (s.compare p) else none
  | .add p =>
    if s.phase p = .compared ∧ s.OnCpu p then
      some { s.setPhase p (.published .console) with waitQueue := s.waitQueue ++ [p] }
    else none
  | .addTimer p ticks =>
    if readers p ∧ s.phase p = .awake ∧ s.OnCpu p ∧ 1 ≤ ticks then
      some { s.setPhase p (.published .timer) with timer := update s.timer p (some ticks) }
    else none
  | .setSleep p c =>
    match s.phase p with
    | .published k =>
      if s.sched.current c = p then
        (s.sched.step (.setState c .sleep)).map (s.setPhase p (.slept k)).setSched
      else none
    | _ => none
  | .schedule p c =>
    match s.phase p with
    | .slept k =>
      if s.sched.current c = p then (s.sched.step (.schedule c)).map (s.setPhase p (.off k)).setSched else none
    | _ => none
  | .resume p =>
    match s.phase p with
    | .off k => if s.OnCpu p then some (s.resume p k) else none
    | _ => none
  | .take p => if s.phase p = .back then some { s.setPhase p .awake with readIndex := s.readIndex + 1 } else none
  | .line chars =>
    if chars = 0 then none else some { s with writeIndex := s.writeIndex + chars, wakes := s.wakes + 1 }
  | .wake => if s.wakes = 0 then none else { s with wakes := s.wakes - 1 }.wakeUp
  | .tick p => s.updateTimer p
  | .other a => if Foreign readers s a then (s.sched.step a).map s.setSched else none

/-- The process sleeps, no interrupt is about to wake it, and what it waits for has happened. -/
def Lost (p : Proc) (s : SleepSys Proc cpus) : Prop :=
  s.sched.state p = .sleep ∧ ¬s.OnCpu p ∧
    (s.phase p = .off .console ∧ s.readIndex ≠ s.writeIndex ∧ s.wakes = 0 ∨
      s.phase p = .off .timer ∧ s.timer p = some 0)

/-- Nothing wakes a reader between its look for a line, or the start of its timer, and the moment its state says that
it sleeps; a wake-up finds one reader in the queue at most, and a reader that comes back finds its line. -/
def Careful (s : SleepSys Proc cpus) : SleepAct Proc cpus → Prop
  | .wake => (∀ p, s.phase p ≠ .compared ∧ s.phase p ≠ .published .console) ∧ s.waitQueue.length ≤ 1
  | .tick p => s.phase p = .published .timer → s.timer p ≠ some 1
  | .take _ => s.readIndex ≠ s.writeIndex
  | _ => True

structure Start (readers : Proc → Bool) (s : SleepSys Proc cpus) : Prop where
  sched : s.sched.Inv
  nonIdle : ∀ p, readers p → s.sched.NonIdle p
  running : ∀ p, readers p → s.sched.state p = .running
  phase : ∀ p, s.phase p = .awake
  waitQueue : s.waitQueue = []

/-- What the process waits for has not happened, or its interrupt is still to come. -/
def Pending (s : SleepSys Proc cpus) (p : Proc) : SleepKind → Prop
  | .console => s.readIndex = s.writeIndex ∨ s.wakes ≠ 0
  | .timer => ∃ n, s.timer p = some (n + 1)

def Stage (p : Proc) (s : SleepSys Proc cpus) : SleepPhase → Prop
  | .awake | .back => s.sched.state p = .running
  | .compared => s.sched.state p = .running ∧ s.Pending p .console
  | .published k => s.sched.state p = .running ∧ s.Pending p k
  | .slept k => s.sched.state p = .running ∨ s.Pending p k
  | .off k => s.sched.state p = .running ∨ s.Pending p k ∧ ¬s.OnCpu p

/-- The process is in the queue of the console. -/
def Queued : SleepPhase → Prop
  | .published .console | .slept .console | .off .console => True
  | _ => False

structure Inv (readers : Proc → Bool) (s : SleepSys Proc cpus) : Prop where
  sched : s.sched.Inv
  nonIdle : ∀ p, readers p → s.sched.NonIdle p
  nodup : s.waitQueue.Nodup
  queue : ∀ p, p ∈ s.waitQueue ↔ Queued (s.phase p)
  others : ∀ p, readers p = false → s.phase p = .awake
  stage : ∀ p, readers p → Stage p s (s.phase p)

section

variable {readers : Proc → Bool} {p q : Proc} {s s' t : SleepSys Proc cpus} {u : Sched Proc cpus} {ph : SleepPhase}

/-- What happens elsewhere leaves a process at its stage. -/
theorem Stage.frame (h : Stage q s ph) (hrun : s.sched.state q = .running → s'.sched.state q = .running)
    (hp : ∀ k, s.Pending q k → s'.Pending q k)
    (hcpu : s'.OnCpu q → s.OnCpu q ∨ s.sched.state q = .running) : Stage q s' ph := by
  cases ph with
  | awake | back => exact hrun h
  | compared => exact ⟨hrun h.1, hp _ h.2⟩
  | published k => exact ⟨hrun h.1, hp k h.2⟩
  | slept k => exact h.imp hrun (hp k)
  | off k =>
    rcases h with hr | ⟨hk, hoff⟩
    · exact Or.inl (hrun hr)
    · by_cases hon : s'.OnCpu q
      · exact Or.inl (hrun ((hcpu hon).resolve_left hoff))
      · exact Or.inr ⟨hp k hk, hon⟩

/-- A step of one process that leaves the scheduler, and all that the others wait for, as they are. -/
theorem Inv.move (h : Inv readers s) (hr : readers p) (hsched : s'.sched = s.sched)
    (hphase : ∀ q, q ≠ p → s'.phase q = s.phase q) (hnodup : s'.waitQueue.Nodup)
    (hqueue : ∀ q, q ∈ s'.waitQueue ↔ if q = p then Queued (s'.phase p) else q ∈ s.waitQueue)
    (hpend : ∀ q k, q ≠ p → s.Pending q k → s'.Pending q k) (hstage : Stage p s' (s'.phase p)) : Inv readers s' := by
  refine ⟨hsched ▸ h.sched, fun q hq => hsched ▸ h.nonIdle q hq, hnodup, fun q => ?_, fun q hq => ?_, fun q hq => ?_⟩
  · rw [hqueue]
    split_ifs with hqp
    · rw [hqp]
    · rw [hphase q hqp, h.queue]
  · have hqp : q ≠ p := by
      rintro rfl
      rw [hq] at hr
      cases hr
    rw [hphase q hqp, h.others q hq]
  · by_cases hqp : q = p
    · rw [hqp]
      exact hstage
    · rw [hphase q hqp]
      refine (h.stage q hq).frame (fun h1 => hsched ▸ h1) (fun k => hpend q k hqp) fun hon => Or.inl ?_
      unfold OnCpu at hon ⊢
      rwa [hsched] at hon

/-- The scheduler alone steps: the states of the readers stay or become running, and who gets a processor runs. -/
theorem Inv.setSched (h : Inv readers s) (hinv : u.Inv) (hn : ∀ p, readers p → u.NonIdle p)
    (hstate : ∀ p, readers p → s.sched.state p = .running → u.state p = .running)
    (hcpu : ∀ p, readers p → (s.setSched u).OnCpu p → s.OnCpu p ∨ s.sched.state p = .running) :
    Inv readers (s.setSched u) :=
  ⟨hinv, hn, h.nodup, h.queue, h.others, fun q hq =>
    (h.stage q hq).frame (hstate q hq) (fun k hk => by cases k <;> exact hk) (hcpu q hq)⟩

theorem onCpu_of_schedule {c : Fin cpus} (hn : s.sched.NonIdle q) (hs : s.sched.step (.schedule c) = some u)
    (hon : (s.setSched u).OnCpu q) : s.OnCpu q ∨ s.sched.state q = .running := by
  obtain ⟨d, hd⟩ := hon
  change u.current d = q at hd
  rcases Sched.schedule_current hs d with h | h | h
  · exact Or.inl ⟨d, h.symm.trans hd⟩
  · exact absurd (hd.symm.trans h) (hn c)
  · exact Or.inr (by rwa [hd] at h)

theorem foreign_frame {a : SchedAct Proc cpus} (hq : readers q) (hn : s.sched.NonIdle q) (hf : Foreign readers s a)
    (hs : s.sched.step a = some u) : u.state q = s.sched.state q ∧ u.NonIdle q ∧
      ((s.setSched u).OnCpu q → s.OnCpu q ∨ s.sched.state q = .running) := by
  have hne : ∀ r, readers r = false → q ≠ r := by
    rintro r hr rfl
    rw [hr] at hq
    cases hq
  cases a with
  | schedule c =>
    obtain ⟨hst, hidle⟩ := Sched.schedule_state hs
    exact ⟨congrFun hst q, fun d => by rw [hidle]; exact hn d, onCpu_of_schedule hn hs⟩
  | scheduleTail r =>
    simp only [Sched.step] at hs
    split_ifs at hs
    cases hs
    exact ⟨rfl, hn, Or.inl⟩
  | wakeUpState r | setState c st =>
    cases hs
    exact ⟨update_of_ne (hne _ hf) _ _, hn, Or.inl⟩
  | wakeUpQueue r | forkQueue r =>
    simp only [Sched.step, Sched.addProcessToRq] at hs
    split_ifs at hs
    all_goals
      cases hs
      exact ⟨rfl, hn, Or.inl⟩
  | forkState r pid =>
    simp only [Sched.step] at hs
    split_ifs at hs
    cases hs
    exact ⟨update_of_ne (hne _ hf) _ _, hn, Or.inl⟩

theorem Start.inv (h : Start readers s) : Inv readers s := by
  refine ⟨h.sched, h.nonIdle, by rw [h.waitQueue]; exact nodup_nil, fun p => ?_, fun p _ => h.phase p, fun p hp => ?_⟩
  · rw [h.waitQueue, h.phase]
    exact iff_of_false not_mem_nil id
  · rw [h.phase]
    exact h.running p hp

section

variable (h : Inv readers s)
include h

theorem Inv.reader (hp : s.phase p ≠ .awake) : readers p := by
  by_contra hr
  exact hp (h.others p (Bool.eq_false_iff.mpr hr))

/-- A step to a phase in which the process is in the queue just if it was there before. -/
theorem Inv.setPhase (hr : readers p) (hsched : s'.sched = s.sched) (hphase : s'.phase = update s.phase p ph)
    (hq : s'.waitQueue = s.waitQueue) (hsame : Queued ph ↔ Queued (s.phase p))
    (hpend : ∀ q k, q ≠ p → s.Pending q k → s'.Pending q k) (hstage : Stage p s' ph) : Inv readers s' := by
  refine h.move hr hsched (fun q hqp => ?_) (hq ▸ h.nodup) (fun q => ?_) hpend ?_
  · rw [hphase, update_of_ne hqp]
  · rw [hq, hphase, update_self]
    split_ifs with hqp
    · rw [hqp, h.queue, hsame]
    · rfl
  · rw [hphase, update_self]
    exact hstage

theorem Inv.compare (hs : s.step readers (.compare p) = some s') : Inv readers s' := by
  simp only [step] at hs
  split_ifs at hs with hc
  cases hs
  obtain ⟨hr, hph, -⟩ := hc
  have hstage := h.stage p hr
  rw [hph] at hstage
  unfold SleepSys.compare
  split_ifs with heq
  · exact h.setPhase hr rfl rfl rfl (by rw [hph]; exact Iff.rfl) (fun q k _ hk => by cases k <;> exact hk)
      ⟨hstage, Or.inl heq⟩
  · refine h.move hr rfl (fun _ _ => rfl) h.nodup (fun q => ?_) (fun q k _ hk => ?_) (by rw [hph]; exact hstage)
    · split_ifs with hqp
      · rw [hqp]
        exact h.queue p
      · rfl
    · cases k with
      | console => exact Or.inr (hk.resolve_left heq)
      | timer => exact hk

theorem Inv.add (hs : s.step readers (.add p) = some s') : Inv readers s' := by
  simp only [step] at hs
  split_ifs at hs with hc
  cases hs
  have hr : readers p := h.reader (by rw [hc.1]; exact SleepPhase.noConfusion)
  have hstage := h.stage p hr
  rw [hc.1] at hstage
  have hnot : p ∉ s.waitQueue := by
    rw [h.queue, hc.1]
    exact id
  refine h.move hr rfl (fun q hqp => update_of_ne hqp _ _) ?_ (fun q => ?_) (fun q k _ hk => by cases k <;> exact hk) ?_
  · exact h.nodup.append (nodup_singleton p) (disjoint_singleton.mpr hnot)
  · show q ∈ s.waitQueue ++ [p] ↔ if q = p then Queued (update s.phase p _ p) else q ∈ s.waitQueue
    rw [update_self, mem_append, mem_singleton]
    split_ifs with hqp
    · exact iff_of_true (Or.inr hqp) trivial
    · exact or_iff_left hqp
  · show Stage p _ (update s.phase p _ p)
    rw [update_self]
    exact hstage

theorem Inv.addTimer {ticks : Nat} (hs : s.step readers (.addTimer p ticks) = some s') : Inv readers s' := by
  simp only [step] at hs
  split_ifs at hs with hc
  cases hs
  obtain ⟨hr, hph, -, hticks⟩ := hc
  have hstage := h.stage p hr
  rw [hph] at hstage
  refine h.setPhase hr rfl rfl rfl (by rw [hph]; exact Iff.rfl) (fun q k hqp hk => ?_) ⟨hstage, ticks - 1, ?_⟩
  · cases k with
    | console => exact hk
    | timer => exact hk.imp fun n hn => (update_of_ne hqp _ _).trans hn
  · show update s.timer p _ p = _
    rw [update_self]
    exact congrArg some (by omega)

theorem Inv.setSleep {c : Fin cpus} (hs : s.step readers (.setSleep p c) = some s') : Inv readers s' := by
  simp only [step] at hs
  split at hs
  next k hk =>
    split_ifs at hs with hc
    obtain ⟨u, hu, rfl⟩ := map_eq_some_iff.mp hs
    have hr : readers p := h.reader (by rw [hk]; exact SleepPhase.noConfusion)
    have hstage := h.stage p hr
    rw [hk] at hstage
    have hinv := h.sched.step hu
    cases hu
    have hmid : Inv readers (s.setPhase p (.slept k)) :=
      h.setPhase hr rfl rfl rfl (by rw [hk]; cases k <;> exact Iff.rfl) (fun q k _ hk => by cases k <;> exact hk)
        (Or.inl hstage.1)
    refine ⟨hinv, h.nonIdle, hmid.nodup, hmid.queue, hmid.others, fun q hq => ?_⟩
    by_cases hqp : q = p
    · rw [hqp]
      show Stage p _ (update s.phase p _ p)
      rw [update_self]
      exact Or.inr (by cases k <;> exact hstage.2)
    · refine (hmid.stage q hq).frame (fun hrun => ?_) (fun k hk => by cases k <;> exact hk) Or.inl
      exact (update_of_ne (hc ▸ hqp) _ _).trans hrun
  next => cases hs

theorem Inv.schedule {c : Fin cpus} (hs : s.step readers (.schedule p c) = some s') : Inv readers s' := by
  simp only [step] at hs
  split at hs
  next k hk =>
    split_ifs at hs with hc
    obtain ⟨u, hu, rfl⟩ := map_eq_some_iff.mp hs
    have hr : readers p := h.reader (by rw [hk]; exact SleepPhase.noConfusion)
    have hstage := h.stage p hr
    rw [hk] at hstage
    obtain ⟨hst, hidle⟩ := Sched.schedule_state hu
    have hoff : ∀ d, u.current d ≠ p := by
      intro d
      rw [← hc]
      exact h.sched.schedule_leaves hu (by rw [hc]; exact h.nonIdle p hr) d
    refine ⟨h.sched.step hu, fun q hq d => ?_, h.nodup, fun q => ?_, fun q hq => ?_, fun q hq => ?_⟩
    · show q ≠ u.idle d
      rw [hidle]
      exact h.nonIdle q hq d
    · show q ∈ s.waitQueue ↔ Queued (update s.phase p (.off k) q)
      by_cases hqp : q = p
      · rw [hqp, update_self, h.queue, hk]
        cases k <;> exact Iff.rfl
      · rw [update_of_ne hqp]
        exact h.queue q
    · have hqp : q ≠ p := by
        rintro rfl
        rw [hr] at hq
        cases hq
      exact (update_of_ne hqp _ _).trans (h.others q hq)
    · show Stage q _ (update s.phase p (.off k) q)
      by_cases hqp : q = p
      · rw [hqp, update_self]
        refine hstage.imp (fun hrun => (congrFun hst p).trans hrun) fun hp => ⟨by cases k <;> exact hp, ?_⟩
        rintro ⟨d, hd⟩
        exact hoff d hd
      · rw [update_of_ne hqp]
        exact (h.stage q hq).frame (fun hrun => (congrFun hst q).trans hrun) (fun k hk => by cases k <;> exact hk)
          (onCpu_of_schedule (h.nonIdle q hq) hu)
  next => cases hs

theorem Inv.resume (hs : s.step readers (.resume p) = some s') : Inv readers s' := by
  simp only [step] at hs
  split at hs
  next k hk =>
    split_ifs at hs with hon
    cases hs
    have hr : readers p := h.reader (by rw [hk]; exact SleepPhase.noConfusion)
    have hstage := h.stage p hr
    rw [hk] at hstage
    have hrun : s.sched.state p = .running := hstage.resolve_right fun hp => hp.2 hon
    cases k with
    | console =>
      refine h.move hr rfl (fun q hqp => update_of_ne hqp _ _) (h.nodup.erase p) (fun q => ?_)
        (fun q k _ hk => by cases k <;> exact hk) ?_
      · show q ∈ s.waitQueue.erase p ↔ if q = p then Queued (update s.phase p .back p) else q ∈ s.waitQueue
        rw [update_self, h.nodup.mem_erase_iff]
        split_ifs with hqp
        · exact iff_of_false (fun hm => hm.1 hqp) id
        · exact and_iff_right hqp
      · show Stage p _ (update s.phase p .back p)
        rw [update_self]
        exact hrun
    | timer =>
      refine h.setPhase hr rfl rfl rfl (by rw [hk]; exact Iff.rfl) (fun q k hqp hp => ?_) hrun
      cases k with
      | console => exact hp
      | timer => exact hp.imp fun n hn => (update_of_ne hqp _ _).trans hn
  next => cases hs

theorem Inv.take (hc : s.Careful (.take p)) (hs : s.step readers (.take p) = some s') : Inv readers s' := by
  simp only [step] at hs
  split_ifs at hs with hk
  cases hs
  have hr : readers p := h.reader (by rw [hk]; exact SleepPhase.noConfusion)
  have hstage := h.stage p hr
  rw [hk] at hstage
  refine h.setPhase hr rfl rfl rfl (by rw [hk]; exact Iff.rfl) (fun q k _ hp => ?_) hstage
  cases k with
  | console => exact Or.inr (hp.resolve_left hc)
  | timer => exact hp

theorem Inv.line {chars : Word} (hs : s.step readers (.line chars) = some s') : Inv readers s' := by
  simp only [step] at hs
  split_ifs at hs
  cases hs
  refine ⟨h.sched, h.nonIdle, h.nodup, h.queue, h.others, fun q hq => (h.stage q hq).frame id (fun k hk => ?_) Or.inl⟩
  cases k with
  | console => exact Or.inr (Nat.succ_ne_zero _)
  | timer => exact hk

theorem Inv.wake (hc : s.Careful .wake) (hs : s.step readers .wake = some s') : Inv readers s' := by
  simp only [step] at hs
  split_ifs at hs
  unfold wakeUp at hs
  -- the interrupt is over: who waits for a line is in the queue, and is woken or not there
  have hstage : ∀ q u, readers q → (∀ r, s.sched.state r = .running → u.state r = .running) → u.current = s.sched.current →
      (q ∈ s.waitQueue → u.state q = .running) →
      Stage q { s with wakes := s.wakes - 1, sched := u } (s.phase q) := by
    intro q u hq hrun hcur hwoken
    have hst := h.stage q hq
    have hqueue := h.queue q
    have hcareful := hc.1 q
    generalize s.phase q = ph at hst hqueue hcareful
    have hon : OnCpu { s with wakes := s.wakes - 1, sched := u } q ↔ s.OnCpu q := by
      unfold OnCpu
      rw [← hcur]
    cases ph with
    | awake | back => exact hrun q hst
    | compared => exact absurd rfl hcareful.1
    | published k =>
      cases k with
      | console => exact absurd rfl hcareful.2
      | timer => exact ⟨hrun q hst.1, hst.2⟩
    | slept k =>
      cases k with
      | console => exact Or.inl (hwoken (hqueue.mpr trivial))
      | timer => exact hst.imp_left (hrun q)
    | off k =>
      cases k with
      | console => exact Or.inl (hwoken (hqueue.mpr trivial))
      | timer => exact hst.imp (hrun q) fun hp => ⟨hp.1, fun h1 => hp.2 (hon.mp h1)⟩
  split at hs
  next hnil =>
    cases hs
    exact ⟨h.sched, h.nonIdle, h.nodup, h.queue, h.others, fun q hq => hstage q s.sched hq (fun _ => id) rfl fun hm => by
      change s.waitQueue = [] at hnil
      rw [hnil] at hm
      cases hm⟩
  next r rest hq =>
    change s.waitQueue = r :: rest at hq
    obtain ⟨u, hu, rfl⟩ := map_eq_some_iff.mp hs
    have hinv := h.sched.step hu
    cases hu
    have hrest : rest = [] := by
      have hlen := hc.2
      rw [hq, length_cons] at hlen
      exact length_eq_zero_iff.mp (by omega)
    refine ⟨hinv, h.nonIdle, h.nodup, h.queue, h.others, fun q hqr => hstage q _ hqr (fun x hx => ?_) rfl fun hm => ?_⟩
    · show update s.sched.state r .running x = .running
      by_cases hxr : x = r
      · rw [hxr, update_self]
      · rw [update_of_ne hxr, hx]
    · rw [hq, hrest, mem_singleton] at hm
      rw [hm]
      exact update_self _ _ _

theorem Inv.tick (hc : s.Careful (.tick p)) (hs : s.step readers (.tick p) = some s') : Inv readers s' := by
  simp only [step, updateTimer] at hs
  split at hs
  next =>
    cases hs
    exact h
  next =>
    cases hs
    exact h
  next n hn =>
    have hpend : ∀ q k, (q = p → k = .timer → n ≠ 0) → s.Pending q k →
        Pending { s with timer := update s.timer p (some n) } q k := by
      intro q k hne hk
      cases k with
      | console => exact hk
      | timer =>
        by_cases hqp : q = p
        · have hpos := hne hqp rfl
          refine ⟨n - 1, ?_⟩
          rw [hqp]
          exact (update_self _ _ _).trans (congrArg some (by omega))
        · exact hk.imp fun m hm => (update_of_ne hqp _ _).trans hm
    split_ifs at hs with h0
    · obtain ⟨u, hu, rfl⟩ := map_eq_some_iff.mp hs
      have hinv := h.sched.step hu
      cases hu
      refine ⟨hinv, h.nonIdle, h.nodup, h.queue, h.others, fun q hq => ?_⟩
      have hst := h.stage q hq
      by_cases hqp : q = p
      · subst hqp
        have hrun : update s.sched.state q .running q = .running := update_self _ _ _
        show Stage q _ (s.phase q)
        have hpub : s.phase q = .published .timer → s.timer q ≠ some 1 := hc
        generalize s.phase q = ph at hst hpub
        cases ph with
        | awake | back => exact hrun
        | compared => exact ⟨hrun, hst.2⟩
        | published k =>
          cases k with
          | console => exact ⟨hrun, hst.2⟩
          | timer => exact absurd (by rw [hn, h0]) (hpub rfl)
        | slept k | off k => exact Or.inl hrun
      · refine hst.frame (fun hrun => (update_of_ne hqp _ _).trans hrun) (fun k hk => ?_) Or.inl
        exact hpend q k (fun he => absurd he hqp) hk
    · cases hs
      exact ⟨h.sched, h.nonIdle, h.nodup, h.queue, h.others, fun q hq =>
        (h.stage q hq).frame id (fun k => hpend q k fun _ _ => h0) Or.inl⟩

theorem Inv.other {a : SchedAct Proc cpus} (hs : s.step readers (.other a) = some s') : Inv readers s' := by
  simp only [step] at hs
  split_ifs at hs with hf
  obtain ⟨u, hu, rfl⟩ := map_eq_some_iff.mp hs
  have hframe := fun q hq => foreign_frame hq (h.nonIdle q hq) hf hu
  exact h.setSched (h.sched.step hu) (fun q hq => (hframe q hq).2.1) (fun q hq hrun => (hframe q hq).1.trans hrun)
    fun q hq => (hframe q hq).2.2

theorem Inv.step {a : SleepAct Proc cpus} (hc : s.Careful a) (hs : s.step readers a = some s') : Inv readers s' := by
  cases a with
  | compare p => exact h.compare hs
  | add p => exact h.add hs
  | addTimer p ticks => exact h.addTimer hs
  | setSleep p c => exact h.setSleep hs
  | schedule p c => exact h.schedule hs
  | resume p => exact h.resume hs
  | take p => exact h.take hc hs
  | line chars => exact h.line hs
  | wake => exact h.wake hc hs
  | tick p => exact h.tick hc hs
  | other a => exact h.other hs

theorem Inv.not_lost (p : Proc) : ¬s.Lost p := by
  rintro ⟨hst, -, hdone⟩
  have hpend : ∀ k, s.phase p = .off k → s.Pending p k := by
    intro k hk
    have hstage := h.stage p (h.reader (by rw [hk]; exact SleepPhase.noConfusion))
    rw [hk] at hstage
    rcases hstage with hr | hp
    · rw [hst] at hr
      cases hr
    · exact hp.1
  rcases hdone with ⟨hk, hne, hwakes⟩ | ⟨hk, hfired⟩
  · rcases hpend _ hk with heq | hw
    · exact hne heq
    · exact hw hwakes
  · obtain ⟨n, hn⟩ := hpend _ hk
    rw [hfired] at hn
    cases hn

end

/-- In a run in which nothing wakes a reader before its state says that it sleeps, a wake-up has one reader to choose
from and nobody takes another's line, no process sleeps on after what it waits for. -/
theorem no_lost_wakeups {as : List (SleepAct Proc cpus)} (h : Start readers s)
    (ha : Along (SleepSys.step readers) Careful s as) (hr : run (SleepSys.step readers) s as = some t) (p : Proc) :
    ¬t.Lost p :=
  (run_invariant (fun _ _ _ h => h.step) h.inv ha hr).not_lost p

end

/-- Two readers on one processor: the first has it, the second is in the run queue. -/
def twoReaders : SleepSys (Fin 3) 1 where
  sched :=
    { state := fun _ => .running
      pid := fun p => .ofNat 32 p.val
      hasCpu := fun p => p.val = 1
      runQueue := [⟨2, by decide⟩]
      current := fun _ => ⟨1, by decide⟩
      idle := fun _ => ⟨0, by decide⟩
      tails := []
      waking := []
      forking := [] }
  phase := fun _ => .awake
  waitQueue := []
  readIndex := 0
  writeIndex := 0
  wakes := 0
  timer := fun _ => none

def bothRead (p : Fin 3) : Bool := p.val ≠ 0

theorem twoReaders_start : Start bothRead twoReaders := by
  have hfound : ∀ p : Fin 3, twoReaders.sched.pid p ≠ 0 → twoReaders.sched.current 0 = p ∨ p ∈ twoReaders.sched.runQueue := by
    decide
  have hidle : ∀ p c, bothRead p → p ≠ twoReaders.sched.idle c := by decide
  refine ⟨⟨fun _ _ => rfl, fun c d _ _ => Subsingleton.elim c d, fun p hp => ?_, fun _ _ => Nat.zero_le 1,
    nodup_singleton _, fun p _ hp => ?_⟩, fun p hp c => hidle p c hp, fun _ _ => rfl, fun _ => rfl, rfl⟩
  · cases hp
  · exact (hfound p hp).imp (fun h => ⟨0, h⟩) Or.inl

/-- The first reader is woken by a line, which it reads; the second is woken by its timer. -/
theorem no_lost_wakeups_two : ∃ t, run (step bothRead) twoReaders [.compare 1, .add 1, .setSleep 1 0, .line 1,
    .schedule 1 0, .other (.scheduleTail 1), .wake, .other (.wakeUpQueue 1), .addTimer 2 1, .setSleep 2 0, .schedule 2 0,
    .resume 1, .take 1, .tick 2] = some t ∧ ∀ p, ¬t.Lost p := by
  have ha : Along (step bothRead) Careful twoReaders [.compare 1, .add 1, .setSleep 1 0, .line 1, .schedule 1 0,
      .other (.scheduleTail 1), .wake, .other (.wakeUpQueue 1), .addTimer 2 1, .setSleep 2 0, .schedule 2 0, .resume 1,
      .take 1, .tick 2] :=
    along_cons trivial rfl (along_cons trivial rfl (along_cons trivial rfl (along_cons trivial rfl
      (along_cons trivial rfl (along_cons trivial rfl (along_cons ⟨by decide, by decide⟩ rfl (along_cons trivial rfl
      (along_cons trivial rfl (along_cons trivial rfl (along_cons trivial rfl (along_cons trivial rfl
      (along_cons (show (0 : Word) ≠ 1 by decide) rfl (along_cons SleepPhase.noConfusion rfl trivial)))))))))))))
  exact ⟨_, rfl, no_lost_wakeups twoReaders_start ha rfl⟩

/-- A line completed between the comparison and the wait queue, one between the wait queue and the state, two lines for
two readers in the queue, and a timer that fires before the state is set. -/
theorem wakeups_lost :
    (∃ t, run (step bothRead) twoReaders [.compare 1, .line 5, .wake, .add 1, .setSleep 1 0, .schedule 1 0] = some t ∧
      t.Lost 1) ∧
    (∃ t, run (step bothRead) twoReaders [.compare 1, .add 1, .line 5, .wake, .setSleep 1 0, .schedule 1 0] = some t ∧
      t.Lost 1) ∧
    (∃ t, run (step bothRead) twoReaders [.compare 1, .add 1, .setSleep 1 0, .schedule 1 0, .other (.scheduleTail 1),
      .compare 2, .add 2, .setSleep 2 0, .schedule 2 0, .line 5, .wake, .line 5, .wake] = some t ∧ t.Lost 2) ∧
    ∃ t, run (step bothRead) twoReaders [.addTimer 1 1, .tick 1, .setSleep 1 0, .schedule 1 0] = some t ∧ t.Lost 1 :=
  ⟨⟨_, rfl, rfl, by decide, Or.inl ⟨rfl, by decide, rfl⟩⟩, ⟨_, rfl, rfl, by decide, Or.inl ⟨rfl, by decide, rfl⟩⟩,
    ⟨_, rfl, rfl, by decide, Or.inl ⟨rfl, by decide, rfl⟩⟩, _, rfl, rfl, by decide, Or.inr ⟨rfl, rfl⟩⟩

end SleepSys

end BabyOS
