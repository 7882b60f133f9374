import BabyOS.Sched
import Mathlib.Data.Nat.Count

open Function List Option

namespace BabyOS

theorem idxOf_erase_find {α : Type} [DecidableEq α] {P : α → Bool} {l : List α} {p q : α} (hq : l.find? P = some q)
    (hp : p ∈ l) (hP : P p = true) (hne : q ≠ p) : (l.erase q).idxOf p + 1 = l.idxOf p := by
  induction l with
  | nil => cases hp
  | cons x xs ih =>
    cases hx : P x with
    | true =>
      rw [List.find?_cons_of_pos hx] at hq
      obtain rfl := some.inj hq
      rw [erase_cons_head, idxOf_cons_ne xs hne]
    | false =>
      rw [List.find?_cons_of_neg (by rw [hx]; exact Bool.false_ne_true)] at hq
      have hxp : x ≠ p := by
        rintro rfl
        exact Bool.false_ne_true (hx.symm.trans hP)
      have hxq : x ≠ q := by
        rintro rfl
        exact Bool.false_ne_true (hx.symm.trans (List.find?_some hq))
      have hmem : p ∈ xs := (mem_cons.mp hp).resolve_left hxp.symm
      rw [erase_cons_tail (by simpa using hxq), idxOf_cons_ne _ hxp, idxOf_cons_ne _ hxp,
        ← ih hq hmem]

def SchedAct.isSchedule {Proc : Type} {cpus : Nat} : SchedAct Proc cpus → Bool
  | .schedule _ => true
  | _ => false

namespace Sched

variable {Proc : Type} [DecidableEq Proc]

/-- On one processor `schedule_tail` comes before the next call of `schedule`. -/
def stepOne (s : Sched Proc 1) : SchedAct Proc 1 → Option (Sched Proc 1)
  | .schedule c => if s.tails = [] then s.step (.schedule c) else none
  | a => s.step a

def inserts (s : Sched Proc 1) : SchedAct Proc 1 → Bool
  | .wakeUpQueue q => q ∉ s.runQueue
  | .forkQueue q => q ∉ s.runQueue
  | _ => false

/-- A process has the flag only on its processor and until its switch is over. -/
def Flagged (s : Sched Proc 1) : Prop := ∀ p, s.hasCpu p = true → s.current 0 = p ∨ p ∈ s.tails

structure Waiting (s : Sched Proc 1) (p : Proc) : Prop where
  queued : p ∈ s.runQueue
  running : s.state p = .running
  off : s.current 0 ≠ p

section

variable {s t : Sched Proc 1} {p q : Proc} {a : SchedAct Proc 1}

theorem stepOne_step (h : s.stepOne a = some t) : s.step a = some t := by
  cases a with
  | schedule c =>
    simp only [stepOne] at h
    split_ifs at h
    exact h
  | _ => exact h

theorem Flagged.step (h : s.Flagged) (hs : s.step a = some t) : t.Flagged := by
  cases a with
  | schedule c =>
    obtain rfl : c = 0 := Subsingleton.elim c 0
    have hswitch : ∀ next queue, (s.switchTo 0 next queue).Flagged := by
      intro next queue x hx
      change update s.hasCpu next true x = true at hx
      change update s.current 0 next 0 = x ∨ x ∈ s.current 0 :: s.tails
      rw [update_self]
      by_cases hxn : x = next
      · exact Or.inl hxn.symm
      · rw [update_of_ne hxn] at hx
        exact Or.inr (mem_cons.mpr ((h x hx).imp_left Eq.symm))
    rcases schedule_spec hs with ⟨rfl, -⟩ | ⟨next, -, -, rfl⟩ | ⟨-, -, rfl⟩
    · exact h
    · exact hswitch _ _
    · exact hswitch _ _
  | scheduleTail q =>
    simp only [step] at hs
    split_ifs at hs
    cases hs
    intro x hx
    change update s.hasCpu q false x = true at hx
    have hxq : x ≠ q := by
      rintro rfl
      rw [update_self] at hx
      cases hx
    rw [update_of_ne hxq] at hx
    exact (h x hx).imp_right (mem_erase_of_ne hxq).mpr
  | wakeUpState q | setState c st =>
    cases hs
    exact h
  | wakeUpQueue q | forkQueue q =>
    simp only [step] at hs
    split_ifs at hs
    cases hs
    rw [addProcessToRq_eq]
    exact h
  | forkState q pid =>
    simp only [step] at hs
    split_ifs at hs
    cases hs
    intro x hx
    change update s.hasCpu q false x = true at hx
    by_cases hxq : x = q
    · rw [hxq, update_self] at hx
      cases hx
    · rw [update_of_ne hxq] at hx
      exact h x hx

theorem idxOf_addProcessToRq (h : p ∈ s.runQueue) (q : Proc) :
    (s.addProcessToRq q).runQueue.idxOf p ≤ s.runQueue.idxOf p + (if q ∉ s.runQueue then 1 else 0) := by
  unfold addProcessToRq
  by_cases hq : q ∈ s.runQueue
  · rw [if_pos hq]
    omega
  · have hne : q ≠ p := by
      rintro rfl
      exact hq h
    rw [if_neg hq, if_pos hq, idxOf_cons_ne _ hne]

theorem Waiting.schedule (h : s.Waiting p) (hflag : s.Flagged) (hs : s.stepOne (.schedule 0) = some t) :
    s.pick = some p ∨ t.Waiting p ∧ t.runQueue.idxOf p + 1 ≤ s.runQueue.idxOf p := by
  simp only [stepOne] at hs
  split_ifs at hs with htails
  have hcpu : s.hasCpu p = false := by
    by_contra hno
    rcases hflag p (by simpa using hno) with hc | hm
    · exact h.off hc
    · rw [htails] at hm
      cases hm
  have hready : decide (s.state p = .running ∧ s.hasCpu p = false) = true := decide_eq_true ⟨h.running, hcpu⟩
  rcases schedule_spec hs with ⟨-, hnone, -⟩ | ⟨next, hpick, -, rfl⟩ | ⟨hnone, -⟩
  · exact absurd hready (List.find?_eq_none.mp hnone p h.queued)
  · by_cases hnext : next = p
    · exact Or.inl (by rw [hpick, hnext])
    · have hmem : p ∈ s.runQueue.erase next := (mem_erase_of_ne (Ne.symm hnext)).mpr h.queued
      have hidx := idxOf_erase_find hpick h.queued hready hnext
      refine Or.inr ⟨⟨?_, h.running, ?_⟩, ?_⟩
      · simp only [switchTo]
        split_ifs
        · exact mem_append_left _ hmem
        · exact hmem
      · change update s.current 0 next 0 ≠ p
        rwa [update_self]
      · simp only [switchTo]
        split_ifs
        · rw [idxOf_append_of_mem hmem, hidx]
        · rw [hidx]
  · exact absurd hready (List.find?_eq_none.mp hnone p h.queued)

theorem Waiting.step (h : s.Waiting p) (hflag : s.Flagged) (hs : s.stepOne a = some t) :
    a.isSchedule = true ∧ s.pick = some p ∨
      t.Waiting p ∧ t.runQueue.idxOf p + (if a.isSchedule then 1 else 0) ≤
        s.runQueue.idxOf p + (if s.inserts a then 1 else 0) := by
  have henqueue : ∀ q, (s.addProcessToRq q).Waiting p := by
    intro q
    rw [addProcessToRq_eq]
    exact ⟨mem_addProcessToRq.mpr (Or.inr h.queued), h.running, h.off⟩
  cases a with
  | schedule c =>
    obtain rfl : c = 0 := Subsingleton.elim c 0
    exact (h.schedule hflag hs).imp (fun hp => ⟨rfl, hp⟩) id
  | scheduleTail q =>
    simp only [stepOne, Sched.step] at hs
    split_ifs at hs
    cases hs
    exact Or.inr ⟨⟨h.queued, h.running, h.off⟩, Nat.le_refl _⟩
  | wakeUpState q =>
    cases hs
    refine Or.inr ⟨⟨h.queued, ?_, h.off⟩, Nat.le_refl _⟩
    change update s.state q .running p = .running
    rw [update_apply, h.running, ite_self]
  | wakeUpQueue q | forkQueue q =>
    simp only [stepOne, Sched.step] at hs
    split_ifs at hs
    cases hs
    have hq := henqueue q
    exact Or.inr ⟨⟨hq.queued, hq.running, hq.off⟩, by
      simpa [inserts, SchedAct.isSchedule] using idxOf_addProcessToRq h.queued q⟩
  | setState c st =>
    cases hs
    refine Or.inr ⟨⟨h.queued, ?_, h.off⟩, Nat.le_refl _⟩
    change update s.state (s.current c) st p = .running
    rw [Subsingleton.elim c 0, update_of_ne (Ne.symm h.off), h.running]
  | forkState q pid =>
    simp only [stepOne, Sched.step] at hs
    split_ifs at hs
    cases hs
    refine Or.inr ⟨⟨h.queued, ?_, h.off⟩, Nat.le_refl _⟩
    change update s.state q .running p = .running
    rw [update_apply, h.running, ite_self]

end

section

variable {f : Nat → Sched Proc 1} {acts : Nat → SchedAct Proc 1} {p : Proc} {n : Nat}

def schedules (acts : Nat → SchedAct Proc 1) (n k : Nat) : Nat := Nat.count (fun i => (acts (n + i)).isSchedule) k

/-- The processes put at the front of the run queue in the first steps after a moment. -/
def insertions (f : Nat → Sched Proc 1) (acts : Nat → SchedAct Proc 1) (n k : Nat) : Nat :=
  Nat.count (fun i => (f (n + i)).inserts (acts (n + i))) k

/-- Some time after a moment there have been more calls of `schedule` than processes ahead of this one, with those
put in front since. -/
def Outpaced (f : Nat → Sched Proc 1) (acts : Nat → SchedAct Proc 1) (p : Proc) (n : Nat) : Prop :=
  ∃ k, (f n).runQueue.idxOf p + insertions f acts n k < schedules acts n k

theorem Flagged.endless (h : (f 0).Flagged) (hrun : Endless stepOne f acts) (n : Nat) : (f n).Flagged := by
  induction n with
  | zero => exact h
  | succ n ih => exact ih.step (stepOne_step (hrun n))

theorem Waiting.endless (hflag : (f 0).Flagged) (hrun : Endless stepOne f acts) (h : (f n).Waiting p) (k : Nat) :
    (∃ m, n ≤ m ∧ (acts m).isSchedule = true ∧ (f m).pick = some p) ∨ (f (n + k)).Waiting p ∧
        (f (n + k)).runQueue.idxOf p + schedules acts n k ≤ (f n).runQueue.idxOf p + insertions f acts n k := by
  induction k with
  | zero => exact Or.inr ⟨h, Nat.le_refl _⟩
  | succ k ih =>
    rcases ih with hchosen | ⟨hw, hle⟩
    · exact Or.inl hchosen
    · rcases hw.step (hflag.endless hrun (n + k)) (hrun (n + k)) with hpick | ⟨hw', hle'⟩
      · exact Or.inl ⟨n + k, Nat.le_add_right n k, hpick⟩
      · refine Or.inr ⟨hw', ?_⟩
        unfold schedules insertions at hle ⊢
        rw [Nat.count_succ, Nat.count_succ, ← Nat.add_assoc n k 1]
        omega

theorem outpaced_of_finite (hfair : ∀ n, ∃ m, n ≤ m ∧ (acts m).isSchedule = true) {stop : Nat}
    (hstop : ∀ m, stop ≤ m → (f m).inserts (acts m) = false) (p : Proc) (n : Nat) : Outpaced f acts p n := by
  have hmany : ∀ b, ∃ k, b < schedules acts n k := by
    intro b
    induction b with
    | zero =>
      obtain ⟨m, hm, hs⟩ := hfair n
      refine ⟨m - n + 1, ?_⟩
      unfold schedules
      rw [Nat.count_succ, if_pos (by rwa [Nat.add_sub_cancel' hm])]
      exact Nat.succ_pos _
    | succ b ih =>
      obtain ⟨k, hk⟩ := ih
      obtain ⟨m, hm, hs⟩ := hfair (n + k)
      refine ⟨m - n + 1, ?_⟩
      have hmono : schedules acts n k ≤ schedules acts n (m - n) := Nat.count_monotone _ (by omega)
      unfold schedules at hk hmono ⊢
      rw [Nat.count_succ, if_pos (by rwa [Nat.add_sub_cancel' (by omega)])]
      omega
  have hfew : ∀ k, insertions f acts n k ≤ stop := by
    intro k
    induction k with
    | zero => exact Nat.zero_le _
    | succ k ih =>
      unfold insertions at ih ⊢
      rw [Nat.count_succ]
      by_cases hk : stop ≤ n + k
      · rw [hstop _ hk]
        simpa using ih
      · have hle := Nat.count_le (p := fun i => (f (n + i)).inserts (acts (n + i)) = true) (n := k)
        split_ifs
        · omega
        · omega
  obtain ⟨k, hk⟩ := hmany ((f n).runQueue.idxOf p + stop)
  exact ⟨k, Nat.lt_of_le_of_lt (Nat.add_le_add_left (hfew k) _) hk⟩

/-- On one processor a waiting process is chosen, provided the calls of `schedule` outpace the processes put in
front of it. -/
theorem waiting_process_chosen (hflag : (f 0).Flagged) (hrun : Endless stepOne f acts) (hw : (f n).Waiting p)
    (hout : Outpaced f acts p n) :
    ∃ m, n ≤ m ∧ acts m = .schedule 0 ∧ (f m).pick = some p ∧ (f (m + 1)).current 0 = p := by
  obtain ⟨k, hk⟩ := hout
  rcases hw.endless hflag hrun k with ⟨m, hm, hs, hpick⟩ | ⟨-, hle⟩
  · have hact : acts m = .schedule 0 := by
      cases hact : acts m with
      | schedule c => rw [Subsingleton.elim c 0]
      | _ =>
        rw [hact] at hs
        cases hs
    refine ⟨m, hm, hact, hpick, ?_⟩
    have hstep := stepOne_step (hrun m)
    rw [hact] at hstep
    rcases schedule_spec hstep with ⟨-, hnone, -⟩ | ⟨next, hnext, -, heq⟩ | ⟨hnone, -⟩
    · rw [hnone] at hpick
      cases hpick
    · rw [heq]
      change update (f m).current 0 next 0 = p
      rw [update_self]
      exact some.inj (hnext.symm.trans hpick)
    · rw [hnone] at hpick
      cases hpick
  · omega

end

/-- One of two processes runs, the other sleeps, and process 3 waits in the run queue. -/
def pingPong (a b : Fin 4) : Sched (Fin 4) 1 where
  state p := if p = b then .sleep else .running
  pid p := BitVec.ofNat 32 p.val
  hasCpu p := p = a
  runQueue := [Fin.last 3]
  current _ := a
  idle _ := ⟨0, Nat.succ_pos 3⟩
  tails := []
  waking := []
  forking := []

def ping (a b : Fin 4) : List (SchedAct (Fin 4) 1) :=
  [.wakeUpState b, .wakeUpQueue b, .setState 0 .sleep, .schedule 0, .scheduleTail a]

theorem pingPong_flagged (a b : Fin 4) : (pingPong a b).Flagged := by
  intro p hp
  have hpa : p = a := of_decide_eq_true hp
  exact Or.inl hpa.symm

theorem pingPong_waiting : (pingPong 1 2).Waiting 3 := ⟨mem_singleton_self 3, rfl, by decide⟩

def Alike (s t : Sched (Fin 4) 1) : Prop :=
  (∀ p, s.state p = t.state p) ∧ (∀ p, s.hasCpu p = t.hasCpu p) ∧ s.current 0 = t.current 0 ∧ s.pid = t.pid ∧
    s.runQueue = t.runQueue ∧ s.idle = t.idle ∧ s.tails = t.tails ∧ s.waking = t.waking ∧ s.forking = t.forking

theorem Alike.eq {s t : Sched (Fin 4) 1} (h : Alike s t) : s = t := by
  obtain ⟨hst, hcpu, hcur, h1, h2, h3, h4, h5, h6⟩ := h
  have hcur' : s.current = t.current := by
    funext c
    rw [Subsingleton.elim c 0, hcur]
  cases s
  cases t
  cases funext hst
  cases funext hcpu
  cases hcur'
  cases h1
  cases h2
  cases h3
  cases h4
  cases h5
  cases h6
  rfl

theorem run_ping : run stepOne (pingPong 1 2) (ping 1 2 ++ ping 2 1) = some (pingPong 1 2) := by
  obtain ⟨t, ht, halike⟩ : ∃ t, run stepOne (pingPong 1 2) (ping 1 2 ++ ping 2 1) = some t ∧ t.Alike (pingPong 1 2) :=
    ⟨_, rfl, by decide, by decide, rfl, rfl, rfl, rfl, rfl, rfl, rfl⟩
  rw [ht, halike.eq]

def turns (a b : Fin 4) : List (SchedAct (Fin 4) 1) := [.schedule 0, .scheduleTail a, .schedule 0, .scheduleTail b]

theorem run_turns : run stepOne (pingPong 1 2) (turns 1 3) = some (pingPong 1 2) := by
  obtain ⟨t, ht, halike⟩ : ∃ t, run stepOne (pingPong 1 2) (turns 1 3) = some t ∧ t.Alike (pingPong 1 2) :=
    ⟨_, rfl, by decide, by decide, rfl, rfl, rfl, rfl, rfl, rfl, rfl⟩
  rw [ht, halike.eq]

theorem recurs {acts : Nat → SchedAct (Fin 4) 1} {as : List (SchedAct (Fin 4) 1)} {i : Nat} (hi : i < as.length)
    (hsched : as[i]?.map SchedAct.isSchedule = some true)
    (hacts : ∀ n, as[n % as.length]? = some (acts n)) (n : Nat) : ∃ m, n ≤ m ∧ (acts m).isSchedule = true := by
  refine ⟨as.length * n + i, ?_, ?_⟩
  · have hmul := Nat.le_mul_of_pos_left n (Nat.lt_of_le_of_lt (Nat.zero_le i) hi)
    omega
  · have hact := hacts (as.length * n + i)
    rw [Nat.mul_add_mod, Nat.mod_eq_of_lt hi] at hact
    rw [hact] at hsched
    exact some.inj hsched

theorem waiting_process_chosen_turns : ∃ f acts, Endless stepOne f acts ∧ f 0 = pingPong 1 2 ∧
    ∃ m, 0 ≤ m ∧ acts m = .schedule 0 ∧ (f m).pick = some (3 : Fin 4) ∧ (f (m + 1)).current 0 = 3 := by
  obtain ⟨f, acts, hrun, hcycle⟩ := exists_endless run_turns (by decide)
  have h0 : f 0 = pingPong 1 2 := (some.inj (hcycle 0).1).symm
  have hnone : ∀ a ∈ turns 1 3, ∀ s : Sched (Fin 4) 1, s.inserts a = false := by
    intro a ha s
    simp only [turns, mem_cons, not_mem_nil, or_false] at ha
    rcases ha with rfl | rfl | rfl | rfl
    · rfl
    · rfl
    · rfl
    · rfl
  have hturn : ∀ n, (turns 1 3)[n % (turns 1 3).length]? = some (acts n) := fun n => (hcycle n).2
  have hfair := recurs (show 0 < (turns 1 3).length by decide) rfl hturn
  have hstop : ∀ m, 0 ≤ m → (f m).inserts (acts m) = false :=
    fun m _ => hnone _ (mem_of_getElem? (hturn m)) _
  have hout : Outpaced f acts 3 0 := outpaced_of_finite hfair hstop 3 0
  refine ⟨f, acts, hrun, h0, waiting_process_chosen (by rw [h0]; exact pingPong_flagged 1 2) hrun ?_ hout⟩
  rw [h0]
  exact pingPong_waiting

/-- Two processes that wake each other keep process 3 waiting for ever. -/
theorem waiting_process_starves : ∃ f acts, Endless stepOne f acts ∧ (f 0).Flagged ∧
    (∀ n, ∃ m, n ≤ m ∧ (acts m).isSchedule = true) ∧ (f 0).Waiting (3 : Fin 4) ∧
    ∀ m, (f m).Waiting 3 ∧ (f m).current 0 ≠ 3 := by
  obtain ⟨f, acts, hrun, hcycle⟩ := exists_endless run_ping (by decide)
  have h0 : f 0 = pingPong 1 2 := (some.inj (hcycle 0).1).symm
  have hwait : ∀ k : Fin 10, (run stepOne (pingPong 1 2) ((ping 1 2 ++ ping 2 1).take k)).map
      (fun t => decide (3 ∈ t.runQueue ∧ t.state 3 = .running ∧ t.current 0 ≠ 3)) = some true := by decide
  have hall : ∀ m, (f m).Waiting 3 := by
    intro m
    have hm := hwait ⟨m % 10, Nat.mod_lt m (by decide)⟩
    rw [show ((⟨m % 10, Nat.mod_lt m (by decide)⟩ : Fin 10) : Nat) = m % (ping 1 2 ++ ping 2 1).length from rfl,
      (hcycle m).1] at hm
    obtain ⟨h1, h2, h3⟩ := of_decide_eq_true (some.inj hm)
    exact ⟨h1, h2, h3⟩
  have hping : ∀ n, (ping 1 2 ++ ping 2 1)[n % (ping 1 2 ++ ping 2 1).length]? = some (acts n) :=
    fun n => (hcycle n).2
  refine ⟨f, acts, hrun, by rw [h0]; exact pingPong_flagged 1 2, ?_, hall 0, fun m => ⟨hall m, (hall m).off⟩⟩
  exact recurs (show 3 < (ping 1 2 ++ ping 2 1).length by decide) rfl hping

end Sched

end BabyOS
