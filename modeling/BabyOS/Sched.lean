import BabyOS.MmPages
import BabyOS.Runs

open Function List Option

namespace BabyOS

inductive ProcState
  | running
  | sleep
  | zombie
  deriving DecidableEq

/-- The scheduler of a machine: what `schedule` uses of each process, the run queue, the process on each
processor and its idle process. The last three lists are the calls under way: switches whose `schedule_tail` is
to come, and the processes between the two steps of `wake_up_process` and of `fork`. -/
structure Sched (Proc : Type) (cpus : Nat) where
  state : Proc → ProcState
  pid : Proc → Word
  hasCpu : Proc → Bool
  runQueue : List Proc
  current : Fin cpus → Proc
  idle : Fin cpus → Proc
  tails : List Proc
  waking : List Proc
  forking : List Proc

inductive SchedAct (Proc : Type) (cpus : Nat)
  | schedule (c : Fin cpus)
  | scheduleTail (p : Proc)
  | wakeUpState (p : Proc)
  | wakeUpQueue (p : Proc)
  | setState (c : Fin cpus) (st : ProcState)
  | forkState (p : Proc) (pid : Word)
  | forkQueue (p : Proc)

namespace Sched

variable {Proc : Type} [DecidableEq Proc] {cpus : Nat}

def pick (s : Sched Proc cpus) : Option Proc :=
  s.runQueue.find? fun p => s.state p = .running ∧ s.hasCpu p = false

/-- The end of the critical section of `schedule`, and the switch. -/
def switchTo (s : Sched Proc cpus) (c : Fin cpus) (next : Proc) (queue : List Proc) : Sched Proc cpus :=
  let prev := s.current c
  { s with
    runQueue := if s.pid prev ≠ 0 ∧ s.state prev = .running ∧ prev ∉ queue then queue ++ [prev] else queue
    hasCpu := update s.hasCpu next true
    current := update s.current c next
    tails := prev :: s.tails }

def schedule (s : Sched Proc cpus) (c : Fin cpus) : Option (Sched Proc cpus) :=
  match s.pick with
  | some p => if p = s.current c then none else some (s.switchTo c p (s.runQueue.erase p))
  | none => if s.idle c = s.current c then some s else some (s.switchTo c (s.idle c) s.runQueue)

def addProcessToRq (s : Sched Proc cpus) (p : Proc) : Sched Proc cpus :=
  if p ∈ s.runQueue then s else { s with runQueue := p :: s.runQueue }

/-- One step. A panic has no next state, a call is gone on with only after it was begun, and `fork` takes no
memory of a process that has a processor. -/
def step (s : Sched Proc cpus) : SchedAct Proc cpus → Option (Sched Proc cpus)
  | .schedule c => s.schedule c
  | .scheduleTail p =>
    if p ∈ s.tails then
      some { s with hasCpu := update s.hasCpu p false, tails := s.tails.erase p }
    else none
  | .wakeUpState p =>
    some { s with state := update s.state p .running, waking := p :: s.waking }
  | .wakeUpQueue p =>
    if p ∈ s.waking then some { s.addProcessToRq p with waking := s.waking.erase p } else none
  | .setState c st => some { s with state := update s.state (s.current c) st }
  | .forkState p pid =>
    if p ∈ s.tails ∨ ∃ c, s.current c = p ∨ s.idle c = p then none
    else
      some { s with
        state := update s.state p .running
        pid := update s.pid p pid
        hasCpu := update s.hasCpu p false
        forking := p :: s.forking }
  | .forkQueue p =>
    if p ∈ s.forking then some { s.addProcessToRq p with forking := s.forking.erase p } else none

structure Start (s : Sched Proc cpus) : Prop where
  current : s.current = s.idle
  idlePid : ∀ c, s.pid (s.idle c) = 0
  running : ∀ p, s.state p = .running → ∃ c, s.idle c = p
  runQueue : s.runQueue = []
  tails : s.tails = []

def NonIdle (s : Sched Proc cpus) (p : Proc) : Prop := ∀ c, p ≠ s.idle c

def Found (s : Sched Proc cpus) (p : Proc) : Prop :=
  (∃ c, s.current c = p) ∨ p ∈ s.runQueue ∨ p ∈ s.waking ∨ p ∈ s.forking

/-- A process keeps its processor flag from the moment it is picked until its switch is over, and
that is why nobody else picks it. -/
structure Inv (s : Sched Proc cpus) : Prop where
  onCpu : ∀ c, s.NonIdle (s.current c) → s.hasCpu (s.current c) = true
  once : ∀ c d, s.NonIdle (s.current c) → s.current c = s.current d → c = d
  tailCpu : ∀ p ∈ s.tails, s.NonIdle p → s.hasCpu p = true ∧ ∀ c, s.current c ≠ p
  tailOnce : ∀ p, s.NonIdle p → s.tails.count p ≤ 1
  nodup : s.runQueue.Nodup
  found : ∀ p, s.state p = .running → s.pid p ≠ 0 → s.Found p

section

variable {s s' : Sched Proc cpus} {p : Proc} {c : Fin cpus}

theorem Start.inv (h : Start s) : Inv s := by
  have hidle : ∀ c, ¬s.NonIdle (s.current c) := fun c hn => hn c (by rw [h.current])
  refine ⟨fun c hn => absurd hn (hidle c), fun c d hn => absurd hn (hidle c), by simp [h.tails],
    by simp [h.tails], by simp [h.runQueue], fun p hp _ => ?_⟩
  obtain ⟨c, hc⟩ := h.running p hp
  exact Or.inl ⟨c, by rw [h.current, hc]⟩

omit [DecidableEq Proc] in
theorem pick_spec (h : s.pick = some p) : p ∈ s.runQueue ∧ s.state p = .running ∧ s.hasCpu p = false := by
  have hp := List.find?_some h
  simp only [decide_eq_true_eq] at hp
  exact ⟨mem_of_find?_eq_some h, hp⟩

theorem Inv.not_current (h : Inv s) (hp : s.NonIdle p) (hc : s.hasCpu p = false) :
    (∀ d, s.current d ≠ p) ∧ p ∉ s.tails := by
  refine ⟨fun d hd => ?_, fun hm => ?_⟩
  · subst hd
    simp [h.onCpu d hp] at hc
  · simp [(h.tailCpu p hm hp).1] at hc

theorem Inv.switchTo (h : Inv s) {next : Proc} {queue : List Proc} (hne : next ≠ s.current c)
    (hnext : s.NonIdle next → s.hasCpu next = false) (hq : queue.Nodup)
    (hmem : ∀ p, p ∈ s.runQueue → p ≠ next → p ∈ queue) : Inv (s.switchTo c next queue) := by
  have hcur : ∀ d, (s.switchTo c next queue).current d = if d = c then next else s.current d :=
    fun d => update_apply _ _ _ _
  have hcpu : ∀ p, s.hasCpu p = true → (s.switchTo c next queue).hasCpu p = true := by
    intro p hp
    show update s.hasCpu next true p = true
    rw [update_apply, hp, ite_self]
  have hqueue : ∀ p, p ∈ queue → p ∈ (s.switchTo c next queue).runQueue := by
    intro p hp
    simp only [Sched.switchTo]
    split_ifs
    · exact mem_append_left _ hp
    · exact hp
  have hother : ∀ {d}, s.NonIdle next → s.current d ≠ next :=
    fun {d} hn => (h.not_current hn (hnext hn)).1 d
  refine ⟨fun d hn => ?_, fun d e hn he => ?_, fun p hp hn => ?_, fun p hn => ?_, ?_, fun p hp hpid => ?_⟩
  · rw [hcur] at hn ⊢
    split_ifs at hn ⊢ with hd
    · exact update_self _ _ _
    · exact hcpu _ (h.onCpu d hn)
  · rw [hcur] at hn he
    rw [hcur] at he
    split_ifs at hn he with hd hec hec
    · rw [hd, hec]
    · exact absurd he.symm (hother hn)
    · exact absurd he (hother (he ▸ hn))
    · exact h.once d e hn he
  · have hcase : p = s.current c ∨ p ∈ s.tails := by simpa [Sched.switchTo] using hp
    rcases hcase with rfl | hp
    · refine ⟨hcpu _ (h.onCpu c hn), fun d hd => ?_⟩
      rw [hcur] at hd
      split_ifs at hd with hdc
      · exact hne hd
      · exact hdc (h.once c d hn hd.symm).symm
    · obtain ⟨h1, h2⟩ := h.tailCpu p hp hn
      refine ⟨hcpu p h1, fun d hd => ?_⟩
      rw [hcur] at hd
      split_ifs at hd
      · subst hd
        exact (h.not_current hn (hnext hn)).2 hp
      · exact h2 d hd
  · show (s.current c :: s.tails).count p ≤ 1
    rw [count_cons]
    split_ifs with hpc
    · have heq : s.current c = p := by simpa using hpc
      subst heq
      have hzero : s.tails.count (s.current c) = 0 :=
        count_eq_zero.mpr fun hm => (h.tailCpu _ hm hn).2 c rfl
      omega
    · exact h.tailOnce p hn
  · simp only [Sched.switchTo]
    split_ifs with hprev
    · exact hq.append (nodup_singleton _) (disjoint_singleton.mpr hprev.2.2)
    · exact hq
  · by_cases hpn : p = next
    · exact Or.inl ⟨c, by rw [hcur, if_pos rfl, hpn]⟩
    · rcases h.found p hp hpid with ⟨d, hd⟩ | hr | hw | hf
      · by_cases hdc : d = c
        · subst hdc
          refine Or.inr (Or.inl ?_)
          simp only [Sched.switchTo]
          split_ifs with hprev
          · exact mem_append_right _ (by simp [hd])
          · by_contra hno
            exact hprev ⟨hd ▸ hpid, hd ▸ hp, hd ▸ hno⟩
        · exact Or.inl ⟨d, by rw [hcur, if_neg hdc, hd]⟩
      · exact Or.inr (Or.inl (hqueue p (hmem p hr hpn)))
      · exact Or.inr (Or.inr (Or.inl hw))
      · exact Or.inr (Or.inr (Or.inr hf))

theorem schedule_spec (hs : s.schedule c = some s') : (s' = s ∧ s.pick = none ∧ s.idle c = s.current c) ∨
      (∃ p, s.pick = some p ∧ p ≠ s.current c ∧ s' = s.switchTo c p (s.runQueue.erase p)) ∨
      (s.pick = none ∧ s.idle c ≠ s.current c ∧ s' = s.switchTo c (s.idle c) s.runQueue) := by
  unfold schedule at hs
  cases hp : s.pick with
  | none =>
    simp only [hp] at hs
    split_ifs at hs with hi
    · exact Or.inl ⟨(some.inj hs).symm, rfl, hi⟩
    · exact Or.inr (Or.inr ⟨rfl, hi, (some.inj hs).symm⟩)
  | some p =>
    simp only [hp] at hs
    split_ifs at hs with hi
    exact Or.inr (Or.inl ⟨p, rfl, hi, (some.inj hs).symm⟩)

theorem schedule_state (hs : s.schedule c = some s') : s'.state = s.state ∧ s'.idle = s.idle := by
  rcases schedule_spec hs with ⟨rfl, -⟩ | ⟨p, -, -, rfl⟩ | ⟨-, -, rfl⟩
  all_goals exact ⟨rfl, rfl⟩

theorem schedule_current (hs : s.schedule c = some s') (d : Fin cpus) :
    s'.current d = s.current d ∨ s'.current d = s.idle c ∨ s.state (s'.current d) = .running := by
  have hcur : ∀ next queue, (s.switchTo c next queue).current d = if d = c then next else s.current d :=
    fun next queue => update_apply _ _ _ _
  rcases schedule_spec hs with ⟨rfl, -⟩ | ⟨p, hp, -, rfl⟩ | ⟨-, -, rfl⟩
  · exact Or.inl rfl
  · rw [hcur]
    split_ifs
    · exact Or.inr (Or.inr (pick_spec hp).2.1)
    · exact Or.inl rfl
  · rw [hcur]
    split_ifs
    · exact Or.inr (Or.inl rfl)
    · exact Or.inl rfl

theorem Inv.schedule_leaves (h : Inv s) (hs : s.step (.schedule c) = some s') (hn : s.NonIdle (s.current c))
    (d : Fin cpus) : s'.current d ≠ s.current c := by
  have hcur : ∀ next queue, next ≠ s.current c → (s.switchTo c next queue).current d ≠ s.current c := by
    intro next queue hne
    show update s.current c next d ≠ s.current c
    rw [update_apply]
    split_ifs with hd
    · exact hne
    · exact fun he => hd (h.once c d hn he.symm).symm
  rcases schedule_spec hs with ⟨-, -, hidle⟩ | ⟨p, -, hne, rfl⟩ | ⟨-, hne, rfl⟩
  · exact absurd hidle.symm (hn c)
  · exact hcur _ _ hne
  · exact hcur _ _ hne

theorem Inv.schedule (h : Inv s) (hs : s.schedule c = some s') : Inv s' := by
  rcases schedule_spec hs with ⟨rfl, -⟩ | ⟨p, hp, hne, rfl⟩ | ⟨-, hne, rfl⟩
  · exact h
  · obtain ⟨-, -, hcpu⟩ := pick_spec hp
    exact h.switchTo hne (fun _ => hcpu) (h.nodup.erase p)
      fun q hq hqp => (mem_erase_of_ne hqp).mpr hq
  · exact h.switchTo hne (fun hn => absurd rfl (hn c)) h.nodup fun q hq _ => hq

theorem Inv.scheduleTail (h : Inv s) (hp : p ∈ s.tails) :
    Inv { s with hasCpu := update s.hasCpu p false, tails := s.tails.erase p } := by
  refine ⟨fun c hn => ?_, h.once, fun q hq hn => ?_, fun q hn => ?_, h.nodup, h.found⟩
  · have hne : s.current c ≠ p := by
      rintro rfl
      exact (h.tailCpu _ hp hn).2 c rfl
    dsimp only
    rw [update_of_ne hne]
    exact h.onCpu c hn
  · have hne : q ≠ p := by
      rintro rfl
      have h1 := h.tailOnce q hn
      have h2 : 0 < (s.tails.erase q).count q := count_pos_iff.mpr hq
      rw [count_erase_self] at h2
      omega
    obtain ⟨h1, h2⟩ := h.tailCpu q (mem_of_mem_erase hq) hn
    dsimp only
    rw [update_of_ne hne]
    exact ⟨h1, h2⟩
  · exact (erase_sublist.count_le q).trans (h.tailOnce q hn)

theorem Inv.of_same (h : Inv s) (h1 : s'.current = s.current) (h2 : s'.idle = s.idle)
    (h3 : s'.hasCpu = s.hasCpu) (h4 : s'.tails = s.tails) (hq : s'.runQueue.Nodup)
    (hf : ∀ p, s'.state p = .running → s'.pid p ≠ 0 → s'.Found p) : Inv s' := by
  have hn : ∀ p, s'.NonIdle p ↔ s.NonIdle p := fun p => by rw [NonIdle, NonIdle, h2]
  refine ⟨fun c hc => ?_, fun c d hc he => ?_, fun p hp hc => ?_, fun p hc => ?_, hq, hf⟩
  · rw [hn, h1] at hc
    rw [h1, h3]
    exact h.onCpu c hc
  · rw [hn, h1] at hc
    rw [h1] at he
    exact h.once c d hc he
  · rw [h4] at hp
    rw [hn] at hc
    rw [h1, h3]
    exact h.tailCpu p hp hc
  · rw [hn] at hc
    rw [h4]
    exact h.tailOnce p hc

theorem mem_addProcessToRq {q : Proc} : q ∈ (s.addProcessToRq p).runQueue ↔ q = p ∨ q ∈ s.runQueue := by
  unfold addProcessToRq
  split_ifs with hp
  · exact ⟨Or.inr, fun hq => hq.elim (fun he => he ▸ hp) id⟩
  · exact mem_cons

theorem addProcessToRq_eq (s : Sched Proc cpus) (p : Proc) :
    s.addProcessToRq p = { s with runQueue := (s.addProcessToRq p).runQueue } := by
  unfold addProcessToRq
  split_ifs <;> rfl

theorem Inv.enqueue (h : Inv s) {waking forking : List Proc} (hw : ∀ q ∈ s.waking, q = p ∨ q ∈ waking)
    (hf : ∀ q ∈ s.forking, q = p ∨ q ∈ forking) :
    Inv { s.addProcessToRq p with waking := waking, forking := forking } := by
  rw [addProcessToRq_eq]
  have hnodup : (s.addProcessToRq p).runQueue.Nodup := by
    unfold addProcessToRq
    split_ifs with hp
    · exact h.nodup
    · exact nodup_cons.mpr ⟨hp, h.nodup⟩
  refine h.of_same rfl rfl rfl rfl hnodup fun q hq hpid => ?_
  have hin : ∀ x, x = p ∨ x ∈ s.runQueue → x ∈ (s.addProcessToRq p).runQueue :=
    fun x hx => mem_addProcessToRq.mpr hx
  rcases h.found q hq hpid with hc | hr | hq | hq
  · exact Or.inl hc
  · exact Or.inr (Or.inl (hin q (Or.inr hr)))
  · rcases hw q hq with rfl | hq
    · exact Or.inr (Or.inl (hin q (Or.inl rfl)))
    · exact Or.inr (Or.inr (Or.inl hq))
  · rcases hf q hq with rfl | hq
    · exact Or.inr (Or.inl (hin q (Or.inl rfl)))
    · exact Or.inr (Or.inr (Or.inr hq))

theorem Inv.wakeUpState (h : Inv s) (p : Proc) :
    Inv { s with state := update s.state p .running, waking := p :: s.waking } := by
  refine h.of_same rfl rfl rfl rfl h.nodup fun q hq hpid => ?_
  by_cases hqp : q = p
  · exact Or.inr (Or.inr (Or.inl (by simp [hqp])))
  · dsimp only at hq
    rw [update_of_ne hqp] at hq
    rcases h.found q hq hpid with hc | hr | hw | hf
    · exact Or.inl hc
    · exact Or.inr (Or.inl hr)
    · exact Or.inr (Or.inr (Or.inl (mem_cons_of_mem p hw)))
    · exact Or.inr (Or.inr (Or.inr hf))

theorem Inv.setState (h : Inv s) (c : Fin cpus) (st : ProcState) :
    Inv { s with state := update s.state (s.current c) st } := by
  refine h.of_same rfl rfl rfl rfl h.nodup fun q hq hpid => ?_
  by_cases hqc : q = s.current c
  · exact Or.inl ⟨c, hqc.symm⟩
  · dsimp only at hq
    rw [update_of_ne hqc] at hq
    exact h.found q hq hpid

theorem Inv.forkState (h : Inv s) (hfree : ¬(p ∈ s.tails ∨ ∃ c, s.current c = p ∨ s.idle c = p)) (pid : Word) :
    Inv { s with
      state := update s.state p .running
      pid := update s.pid p pid
      hasCpu := update s.hasCpu p false
      forking := p :: s.forking } := by
  simp only [not_or, not_exists] at hfree
  obtain ⟨htail, hcpu⟩ := hfree
  refine ⟨fun c hn => ?_, h.once, fun q hq hn => ?_, h.tailOnce, h.nodup, fun q hq hpid => ?_⟩
  · dsimp only
    rw [update_of_ne (hcpu c).1]
    exact h.onCpu c hn
  · have hne : q ≠ p := by
      rintro rfl
      exact htail hq
    dsimp only
    rw [update_of_ne hne]
    exact h.tailCpu q hq hn
  · by_cases hqp : q = p
    · exact Or.inr (Or.inr (Or.inr (by simp [hqp])))
    · dsimp only at hq hpid
      rw [update_of_ne hqp] at hq hpid
      rcases h.found q hq hpid with hc | hr | hw | hf
      · exact Or.inl hc
      · exact Or.inr (Or.inl hr)
      · exact Or.inr (Or.inr (Or.inl hw))
      · exact Or.inr (Or.inr (Or.inr (mem_cons_of_mem p hf)))

theorem mem_or_mem_erase {q : Proc} {xs : List Proc} (h : q ∈ xs) : q = p ∨ q ∈ xs.erase p := by
  by_cases hqp : q = p
  · exact Or.inl hqp
  · exact Or.inr ((mem_erase_of_ne hqp).mpr h)

theorem Inv.step (h : Inv s) {a : SchedAct Proc cpus} (hs : s.step a = some s') : Inv s' := by
  cases a with
  | schedule c => exact h.schedule hs
  | scheduleTail p =>
    simp only [Sched.step] at hs
    split_ifs at hs with hp
    cases hs
    exact h.scheduleTail hp
  | wakeUpState p =>
    cases hs
    exact h.wakeUpState p
  | wakeUpQueue p =>
    simp only [Sched.step] at hs
    split_ifs at hs with hp
    cases hs
    exact h.enqueue (fun q => mem_or_mem_erase) fun q hq => Or.inr (by rwa [addProcessToRq_eq])
  | setState c st =>
    cases hs
    exact h.setState c st
  | forkState p pid =>
    simp only [Sched.step] at hs
    split_ifs at hs with hp
    cases hs
    exact h.forkState hp pid
  | forkQueue p =>
    simp only [Sched.step] at hs
    split_ifs at hs with hp
    cases hs
    exact h.enqueue (fun q hq => Or.inr (by rwa [addProcessToRq_eq])) fun q => mem_or_mem_erase

/-- In every state that any interleaving reaches: no process but an idle one is on two processors, and
`schedule` switches to the idle process of its processor or to one without a processor; the run queue has no
process twice; every process ready to run is on a processor, in the run queue or inside an unfinished
`wake_up_process` or `fork`. -/
theorem sched_run_safe {s0 : Sched Proc cpus} {acts : List (SchedAct Proc cpus)} (h0 : Start s0)
    (hrun : run Sched.step s0 acts = some s) :
    (∀ c d, s.NonIdle (s.current c) → s.current c = s.current d → c = d) ∧
    (∀ c s', s.step (.schedule c) = some s' → s'.current c ≠ s.current c →
      s'.current c = s.idle c ∨ (s'.current c ∈ s.runQueue ∧ s.hasCpu (s'.current c) = false)) ∧
    s.runQueue.Nodup ∧
    ∀ p, s.state p = .running → s.pid p ≠ 0 →
      (∃ c, s.current c = p) ∨ p ∈ s.runQueue ∨ p ∈ s.waking ∨ p ∈ s.forking := by
  have h : Inv s := run_invariant (P := fun _ _ => True) (fun _ _ _ hi _ hs => hi.step hs) h0.inv
    (along_true _ _) hrun
  refine ⟨h.once, fun c s' hs hne => ?_, h.nodup, h.found⟩
  have hcur : ∀ next queue, (s.switchTo c next queue).current c = next :=
    fun next queue => update_self _ _ _
  rcases schedule_spec hs with ⟨rfl, -⟩ | ⟨p, hp, -, rfl⟩ | ⟨-, -, rfl⟩
  · exact absurd rfl hne
  · rw [hcur]
    obtain ⟨h1, -, h2⟩ := pick_spec hp
    exact Or.inr ⟨h1, h2⟩
  · exact Or.inl (hcur _ _)

end

def twoCpus : Sched (Fin 4) 2 where
  state p := if p.val < 2 then .running else .sleep
  pid _ := 0
  hasCpu _ := false
  runQueue := []
  current := Fin.castLE (by decide)
  idle := Fin.castLE (by decide)
  tails := []
  waking := []
  forking := []

theorem twoCpus_start : Start twoCpus :=
  ⟨rfl, fun _ => rfl, by decide, rfl, rfl⟩

/-- The child of a fork runs, sleeps and is woken before its processor has switched away from it. -/
def wokenEarly : List (SchedAct (Fin 4) 2) :=
  [.forkState 2 1, .forkQueue 2, .schedule 0, .scheduleTail 0, .setState 0 .sleep, .wakeUpState 2, .wakeUpQueue 2,
    .schedule 1, .schedule 0]

theorem sched_run_safe_woken :
    (run Sched.step twoCpus wokenEarly).map (fun s => (s.current 0, s.runQueue, s.hasCpu 2)) = some (0, [2], true) ∧
      ∀ s, run Sched.step twoCpus wokenEarly = some s → s.runQueue.Nodup ∧
        ∀ s', s.step (.schedule 1) = some s' → s'.current 1 ≠ s.current 1 →
          s'.current 1 = s.idle 1 ∨ (s'.current 1 ∈ s.runQueue ∧ s.hasCpu (s'.current 1) = false) := by
  refine ⟨by decide, fun s hs => ?_⟩
  obtain ⟨-, hpick, hnodup, -⟩ := sched_run_safe twoCpus_start hs
  exact ⟨hnodup, hpick 1⟩

end Sched

end BabyOS
