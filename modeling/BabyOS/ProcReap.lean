import BabyOS.ProcMoved

open Function List Option

namespace BabyOS

namespace ProcSys

variable {Proc Q : Type} [DecidableEq Proc] [DecidableEq Q] {cpus : Nat}

section

variable {s s' : ProcSys Proc Q cpus} {p q x : Proc} {c : Fin cpus}

/-- A process that becomes a zombie is not in the run queue and nobody is waking it, and `wait_children` chooses
only a process whose memory is not free and that no `fork` and no other `release_process` works on. -/
def Careful (s : ProcSys Proc Q cpus) : ProcAct Proc Q cpus → Prop
  | .go c =>
    match s.place (s.sched.current c) with
    | .adopt _ [] => s.sched.current c ∉ s.sched.runQueue ∧ s.sched.current c ∉ s.sched.waking
    | .scan pid (x :: _) _ => asked pid (s.sched.pid x) → s.sched.state x = .zombie →
        s.tree.live x = true ∧ ∀ p, (s.place p).subject ≠ some x
    | _ => True
  | _ => True

theorem Inv.fork (h : Inv s) (hp : s.place (s.sched.current c) = .user) (hq : s.tree.live q = false)
    (hs : s.fork (s.sched.current c) q = some s') : Inv s' := by
  obtain ⟨sched, hsched, rfl⟩ := map_eq_some_iff.mp hs
  obtain ⟨hcalm, hcur, hidle, -⟩ := Sched.calm_fork hsched
  have hpq : s.sched.current c ≠ q := by
    intro he
    rw [← he, h.live_current c] at hq
    cases hq
  have hborn := h.born (p := s.sched.current c)
    (s.tree.getNextPid s.sched.pid (s.tree.procList.length + 1) s.nextPid).2 hq hsched
  have hplace : update s.place q .user (s.sched.current c) = .user := by rw [update_of_ne hpq, hp]
  refine hborn.walk_place (c := c) (x := .forkList q) (congrFun hcur c) ?_ ⟨?_, ?_, ?_⟩ ?_
  · dsimp only
    rw [hplace]
    exact ⟨id, fun _ => id, id⟩
  · exact update_self _ _ _
  · intro d
    exact hcalm.idle ▸ hidle d
  · exact (h.freed q hq).2.2.1
  · rintro y hy
    cases hy
    refine Or.inr fun z hz => ?_
    dsimp only at hz
    by_cases hzq : z = q
    · rw [hzq, update_self] at hz
      cases hz
    · rw [update_of_ne hzq] at hz
      rw [h.live_subject hz] at hq
      cases hq

section

omit [DecidableEq Q]

variable {t : ProcTree Proc} {y : ProcPlace Proc Q}

theorem Inv.enter (h : Inv s) (hs : (s.setTree t).enter c y = some s')
    (ht : t = { s.tree with childReaper := t.childReaper }) (hy : y.subject = none)
    (hrelies : ((s.setTree t).setPlace (s.sched.current c) y).Relies (s.sched.current c) y) : Inv s' := by
  rw [ProcSys.enter] at hs
  split at hs
  next hp =>
    cases hs
    have hp' : s.place (s.sched.current c) = .user := hp
    refine h.walk rfl (by rw [ht]) ?_ hrelies (by simp [hy]) ?_ ?_
    · rw [hp']
      exact ⟨fun h => (by cases h), fun _ h => h.elim, fun h => (by cases h)⟩
    · rw [ht]
      exact ⟨h.listed, fun _ hx => Or.inl hx⟩
    · rw [ht]
      exact fun _ _ hx => Or.inl hx
  next => cases hs

theorem Gone.setPlace (hg : s.Gone x) (hp : (s.place p).leaving = false) : ((s.setTree t).setPlace p y).Gone x := by
  have hxp : x ≠ p := by
    rintro rfl
    rw [hg.leaving] at hp
    cases hp
  refine hg.calm (Sched.Calm.refl s.sched) not_false ?_
  simp only [ProcSys.setPlace, setTree, update_of_ne hxp]
  exact hg.leaving

theorem Gone.setPlace_self (hg : s.Gone p) (hy : y.leaving = true) : (s.setPlace p y).Gone p := by
  refine hg.calm (Sched.Calm.refl s.sched) not_false ?_
  simp only [ProcSys.setPlace, update_self]
  exact hy

end

theorem Inv.through_wake (h : Inv s) {a : SchedAct Proc cpus} {w : Proc} {y : ProcPlace Proc Q}
    {sched : Sched Proc cpus} (hg : s.Gone (s.sched.current c)) (hsched : s.sched.step a = some sched)
    (hcalm : s.sched.Calm sched (· = w))
    (hw : s.tree.live w = true ∧ (s.place w).leaving = false ∧ sched.state w ≠ .zombie)
    (hbefore : (s.place (s.sched.current c)).Before (s.sched.current c) y)
    (hrelies : ∀ t : ProcSys Proc Q cpus, t.Gone (s.sched.current c) → t.Relies (s.sched.current c) y)
    (hsubject : y.subject = none) (q : WaitQueue Proc Q) (o : Option Proc) :
    Inv (((s.setSched sched).setPlace (s.sched.current c) y).setWaker q o) := by
  have hne : s.sched.current c ≠ w := by
    rintro rfl
    rw [hg.leaving] at hw
    cases hw.2.1
  refine h.goes rfl rfl (h.sched.step hsched) hcalm ?_ ⟨rfl, rfl⟩ (fun _ hy => hy) (fun _ hy => Or.inl hy) hbefore
    (hrelies _ (hg.calm hcalm hne ?_)) (by simp [hsubject]) ⟨h.listed, fun _ hy => Or.inl hy⟩
    fun _ _ hy => Or.inl hy
  · rintro x rfl
    exact ⟨hw.1, hw.2.1, fun hz => absurd hz hw.2.2⟩
  · simp only [setWaker, setPlace, update_self]
    exact hbefore.1 hg.leaving

section

variable {y : ProcPlace Proc Q}

omit [DecidableEq Proc] [DecidableEq Q] in
theorem before_of_place {z : ProcPlace Proc Q} (hpl : s.place p = y) (hy : y.Before p z) : (s.place p).Before p z :=
  hpl ▸ hy

theorem Inv.go_forkList (h : Inv s) (hpl : s.place (s.sched.current c) = .forkList q)
    (hs : s.go c (s.sched.current c) (.forkList q) = some s') : Inv s' := by
  have hr := h.relies (s.sched.current c)
  rw [hpl] at hr
  cases hs
  refine h.walk rfl rfl (before_of_place hpl ⟨id, fun _ => id, id⟩) ⟨hr.1, hr.2.1⟩ ?_ ⟨?_, ?_⟩
    fun _ _ hy => Or.inl hy
  · exact fun y hy => Or.inl (by rw [hpl]; exact hy)
  · exact h.listed.append (nodup_singleton q) (disjoint_singleton.mpr hr.2.2)
  · intro y hy
    rcases mem_append.mp hy with hy | hy
    · exact Or.inl hy
    · rw [hpl, mem_singleton.mp hy]
      exact Or.inr rfl

theorem Inv.go_forkChild (h : Inv s) (hpl : s.place (s.sched.current c) = .forkChild q)
    (hs : s.go c (s.sched.current c) (.forkChild q) = some s') : Inv s' := by
  have hr := h.relies (s.sched.current c)
  rw [hpl] at hr
  cases hs
  refine h.walk rfl rfl (before_of_place hpl ⟨id, fun _ => id, id⟩) trivial (fun y hy => by cases hy)
    ⟨h.listed, fun _ hy => Or.inl hy⟩ fun z y hy => ?_
  simp only [ProcTree.addChild, update_apply] at hy
  split_ifs at hy with hz
  · rw [mem_append, mem_singleton] at hy
    rcases hy with hy | rfl
    · exact Or.inl (hz ▸ hy)
    · exact Or.inr hr.2
  · exact Or.inl hy

theorem Inv.go_scan (h : Inv s) {pid : Word} {rest : List Proc} {flag : Bool}
    (hpl : s.place (s.sched.current c) = .scan pid rest flag)
    (hc : Careful s (.go c))
    (hs : s.go c (s.sched.current c) (.scan pid rest flag) = some s') : Inv s' := by
  have hr := h.relies (s.sched.current c)
  have hleave := congrArg ProcPlace.leaving hpl
  rw [Careful, hpl] at hc
  rw [hpl] at hr
  cases rest with
  | nil =>
    cases hs
    cases flag
    all_goals
      exact h.walk_place rfl (before_of_place hpl ⟨id, fun _ => id, id⟩) trivial fun y hy => by cases hy
  | cons x rest =>
    have hrest : ∀ y ∈ rest, s.sched.NonIdle y := fun y hy => hr y (mem_cons_of_mem x hy)
    simp only [ProcSys.go] at hs
    split_ifs at hs with hask hz
    · cases hs
      obtain ⟨hl, hfree⟩ := hc hask hz
      refine h.walk_place rfl (before_of_place hpl ⟨id, fun _ => id, id⟩) ⟨hl, ?_⟩ ?_
      · exact (h.gone_of_leaving (h.zombie x hl hz)).setPlace (t := s.tree) hleave
      · rintro y hy
        cases hy
        exact Or.inr hfree
    all_goals
      cases hs
      exact h.walk_place rfl (before_of_place hpl ⟨id, fun _ => id, id⟩) hrest fun y hy => by cases hy

theorem Inv.go_reap (h : Inv s) (hpl : s.place (s.sched.current c) = .reap x)
    (hs : s.go c (s.sched.current c) (.reap x) = some s') : Inv s' := by
  have hr := h.relies (s.sched.current c)
  have hleave := congrArg ProcPlace.leaving hpl
  rw [hpl] at hr
  obtain ⟨hcpu, he⟩ := ite_none_right_eq_some.mp hs
  cases he
  refine h.walk_place rfl (before_of_place hpl ⟨id, fun _ => id, id⟩) ⟨hr.1, ?_, hcpu⟩ ?_
  · exact hr.2.setPlace (t := s.tree) hleave
  · exact fun y hy => Or.inl (by rw [hpl]; exact hy)

theorem Inv.go_unlist (h : Inv s) (hpl : s.place (s.sched.current c) = .unlist x)
    (hs : s.go c (s.sched.current c) (.unlist x) = some s') : Inv s' := by
  have hr := h.relies (s.sched.current c)
  have hleave := congrArg ProcPlace.leaving hpl
  rw [hpl] at hr
  cases hs
  obtain ⟨hl, hg, hcpu⟩ := hr
  refine h.walk rfl rfl (before_of_place hpl ⟨id, fun _ => id, id⟩) ⟨hl, ?_, hcpu, ?_⟩ ?_ ⟨?_, ?_⟩
    fun _ _ hy => Or.inl hy
  · exact hg.setPlace hleave
  · exact h.listed.not_mem_erase
  · exact fun y hy => Or.inl (by rw [hpl]; exact hy)
  · exact h.listed.erase x
  · exact fun y hy => Or.inl (mem_of_mem_erase hy)

theorem Inv.go_free (h : Inv s) (hpl : s.place (s.sched.current c) = .free x)
    (hs : s.go c (s.sched.current c) (.free x) = some s') : Inv s' := by
  have hr := h.relies (s.sched.current c)
  rw [hpl] at hr
  cases hs
  obtain ⟨hl, hg, hcpu, hlist⟩ := hr
  refine h.goes rfl rfl h.sched (Sched.Calm.refl s.sched) (fun _ h => h.elim) ⟨rfl, rfl⟩ (fun y hy => ?_)
    (fun y hy => ?_) (before_of_place hpl ⟨id, fun _ => id, id⟩) trivial (fun y hy => by cases hy)
    ⟨h.listed, fun _ hy => Or.inl hy⟩ fun _ _ hy => Or.inl hy
  · simp only [setPlace, setTree, ProcTree.free, update_apply] at hy
    split_ifs at hy
    exact hy
  · by_cases hyx : y = x
    · subst y
      exact Or.inr ⟨⟨_, rfl, by rw [hpl]; rfl⟩, hg, hcpu, hlist⟩
    · exact Or.inl ((update_of_ne hyx _ _).trans hy)

theorem Inv.go_adopt (h : Inv s) {reaper : Proc} {rest : List Proc}
    (hpl : s.place (s.sched.current c) = .adopt reaper rest)
    (hc : Careful s (.go c))
    (hs : s.go c (s.sched.current c) (.adopt reaper rest) = some s') : Inv s' := by
  have hr := h.relies (s.sched.current c)
  have hleave := congrArg ProcPlace.leaving hpl
  rw [Careful, hpl] at hc
  rw [hpl] at hr
  cases rest with
  | nil =>
    refine h.through_setState hs hleave (fun _ => rfl)
      (before_of_place hpl ⟨fun _ => rfl, fun _ => id, id⟩) ?_ rfl
    obtain ⟨sched, hsched, rfl⟩ := through_eq hs
    cases hsched
    exact ⟨by simp [setPlace, ProcPlace.leaving], by simp [setPlace, setSched], hc.1, hc.2, hr⟩
  | cons x rest =>
    cases hs
    exact h.walk rfl rfl (before_of_place hpl ⟨id, fun _ => id, id⟩) hr (fun y hy => by cases hy)
      ⟨h.listed, fun _ hy => Or.inl hy⟩ fun _ _ hy => Or.inl hy

theorem Inv.go_wakeUp (h : Inv s) (hpl : s.place (s.sched.current c) = .wakeUp q)
    (hs : s.go c (s.sched.current c) (.wakeUp q) = some s') : Inv s' := by
  have hr := h.relies (s.sched.current c)
  rw [hpl] at hr
  obtain ⟨-, hs⟩ := ite_none_right_eq_some.mp hs
  cases hq : s.procs (.child q) with
  | nil =>
    rw [hq] at hs
    cases hs
    exact h.walk_place rfl (before_of_place hpl ⟨id, fun _ => id, id⟩) (hr.setPlace_self rfl)
      fun y hy => by cases hy
  | cons w ws =>
    rw [hq] at hs
    obtain ⟨t, ht, rfl⟩ := map_eq_some_iff.mp hs
    obtain ⟨sched, hsched, rfl⟩ := through_eq ht
    have hw := h.wake_touched (Or.inl ⟨_, hq ▸ mem_cons_self ..⟩) hsched
    exact h.through_wake (y := .wakeUpQueue q w) hr hsched (Sched.calm_wakeUpState hsched) hw
      (before_of_place hpl ⟨id, fun _ => id, id⟩) (fun _ => id) rfl _ _

theorem Inv.go_wakeUpQueue (h : Inv s) {w : Proc}
    (hpl : s.place (s.sched.current c) = .wakeUpQueue q w)
    (hs : s.go c (s.sched.current c) (.wakeUpQueue q w) = some s') : Inv s' := by
  have hr := h.relies (s.sched.current c)
  rw [hpl] at hr
  obtain ⟨t, ht, rfl⟩ := map_eq_some_iff.mp hs
  obtain ⟨sched, hsched, rfl⟩ := through_eq ht
  obtain ⟨hw, hstate, hcalm⟩ := Sched.calm_wakeUpQueue hsched
  refine h.through_wake (y := .exitSchedule) hr hsched hcalm ?_ (before_of_place hpl ⟨id, fun _ => id, id⟩) (fun _ => id)
    rfl _ _
  rw [hstate]
  exact h.alive (Or.inr hw)

theorem Inv.go_exitSchedule (h : Inv s) (hpl : s.place (s.sched.current c) = .exitSchedule)
    (hs : s.go c (s.sched.current c) (.exitSchedule) = some s') : Inv s' := by
  have hr := h.relies (s.sched.current c)
  rw [hpl] at hr
  obtain ⟨sched, hsched, rfl⟩ := through_eq hs
  refine h.through_schedule hs (before_of_place hpl ⟨id, fun _ => id, id⟩) ⟨?_, ?_⟩ rfl
  · refine hr.calm (Sched.calm_schedule hsched).2 (fun ht => ?_) ?_
    · have := (h.schedule_touched ht).2.1
      rw [hr.leaving] at this
      cases this
    · simp only [setPlace, update_self]
      rfl
  · exact h.sched.schedule_leaves hsched hr.nonIdle

theorem Inv.go_timerAdd (h : Inv s) (hpl : s.place (s.sched.current c) = .timerAdd)
    (hs : s.go c (s.sched.current c) (.timerAdd) = some s') : Inv s' := by
  have hleave := congrArg ProcPlace.leaving hpl
  cases hs
  have hnot : s.sched.current c ∉ s.timers := by
    intro hm
    have := (h.timed.2 _ hm).2
    rw [hpl] at this
    cases this
  refine h.retime rfl (by simp [hpl, ProcPlace.waitsOn]) hleave trivial rfl
    ⟨h.timed.1.append (nodup_singleton _) (disjoint_singleton.mpr hnot), fun x hx => ?_⟩
  by_cases hxp : x = s.sched.current c
  · exact Or.inr ⟨hxp, rfl⟩
  · rw [mem_append, mem_singleton] at hx
    exact Or.inl ⟨hxp, hx.resolve_right hxp⟩

theorem Inv.go_timerRemove (h : Inv s) (hpl : s.place (s.sched.current c) = .timerRemove)
    (hs : s.go c (s.sched.current c) (.timerRemove) = some s') : Inv s' := by
  have hleave := congrArg ProcPlace.leaving hpl
  cases hs
  refine h.retime rfl (by simp [hpl, ProcPlace.waitsOn]) hleave trivial rfl
    ⟨h.timed.1.erase _, fun x hx => ?_⟩
  rw [h.timed.1.mem_erase_iff] at hx
  exact Or.inl hx

end

theorem Inv.go (h : Inv s) (hc : Careful s (.go c))
    (hs : s.go c (s.sched.current c) (s.place (s.sched.current c)) = some s') : Inv s' := by
  obtain ⟨y, hpl⟩ : ∃ y, s.place (s.sched.current c) = y := ⟨_, rfl⟩
  have hr := h.relies (s.sched.current c)
  have hleave := congrArg ProcPlace.leaving hpl
  have htime := congrArg ProcPlace.timed hpl
  rw [hpl] at hs hr
  cases y
  case user => cases hs
  case forkList => exact h.go_forkList hpl hs
  case forkChild => exact h.go_forkChild hpl hs
  case waitAdd | sleepAdd =>
    exact h.add hs (by simp [hpl, ProcPlace.waitsOn]) htime hleave rfl trivial rfl
  case waitSleep pid =>
    refine h.through_setState hs hleave (fun h => by cases h) (before_of_place hpl ⟨id, fun _ => id, id⟩) ?_ rfl
    obtain ⟨sched, hsched, rfl⟩ := through_eq hs
    cases hsched
    exact h.children _
  case scan => exact h.go_scan hpl hc hs
  case waitSchedule | sleepSchedule | timerSchedule =>
    exact h.through_schedule hs (before_of_place hpl ⟨id, fun _ => id, id⟩) trivial rfl
  case reap => exact h.go_reap hpl hs
  case unlist => exact h.go_unlist hpl hs
  case free => exact h.go_free hpl hs
  case waitRunning | sleepState | timerState =>
    exact h.through_setState hs hleave (fun h => by cases h) (before_of_place hpl ⟨id, fun _ => id, id⟩) trivial rfl
  case waitRemove | sleepRemove =>
    exact h.remove hs (by rw [hpl]; exact fun _ h => h) htime hleave
  case adopt => exact h.go_adopt hpl hc hs
  case notify =>
    obtain ⟨q, -, rfl⟩ := map_eq_some_iff.mp hs
    exact h.walk_place rfl (before_of_place hpl ⟨id, fun _ => id, id⟩) (hr.setPlace_self rfl)
      fun y hy => by cases hy
  case wakeUp => exact h.go_wakeUp hpl hs
  case wakeUpQueue => exact h.go_wakeUpQueue hpl hs
  case exitSchedule => exact h.go_exitSchedule hpl hs
  case exited => exact absurd rfl (hr.2 c)
  case timerAdd => exact h.go_timerAdd hpl hs
  case timerRemove => exact h.go_timerRemove hpl hs

omit [DecidableEq Q] in
theorem Inv.wake (h : Inv s) {a : SchedAct Proc cpus} {w : Proc} (hsched : s.sched.step a = some s'.sched)
    (hcalm : s.sched.Calm s'.sched (· = w))
    (hw : s.tree.live w = true ∧ (s.place w).leaving = false ∧ s'.sched.state w ≠ .zombie)
    (hplace : s'.place = s.place) (hqueues : s'.procs = s.procs ∧ s'.timers = s.timers) (htree : s'.tree = s.tree) :
    Inv s' := by
  refine h.stays hplace (h.sched.step hsched) hcalm ?_ hqueues htree
  rintro x rfl
  exact hw

theorem Inv.step (h : Inv s) {boot : Fin cpus} {a : ProcAct Proc Q cpus} (hc : Careful s a)
    (hs : step boot s a = some s') : Inv s' := by
  cases a with
  | fork c q =>
    rw [ProcSys.step] at hs
    split at hs
    next hp =>
      obtain ⟨hq, hs⟩ := ite_none_right_eq_some.mp hs
      exact h.fork hp hq hs
    next => cases hs
  | waitChildren c pid | sleepOn c q | sleep c => exact h.enter (t := s.tree) hs rfl rfl trivial
  | exit c =>
    obtain ⟨hidle, hs⟩ := ite_none_right_eq_some.mp hs
    obtain ⟨⟨t, r⟩, hr, hs⟩ := bind_eq_some_iff.mp hs
    have ht := ProcTree.getChildReaper_eq hr
    refine h.enter hs (by rw [ht]) rfl ?_
    exact fun d he => hidle d he.symm
  | go c => exact h.go hc hs
  | schedule c =>
    rw [ProcSys.step] at hs
    split at hs
    next hp =>
      exact h.through_schedule hs (by rw [hp]; exact ⟨id, fun _ => id, id⟩) trivial rfl
    next => cases hs
  | scheduleTail p =>
    obtain ⟨sched, hsched, rfl⟩ := map_eq_some_iff.mp hs
    exact h.stays rfl (h.sched.step hsched) (Sched.calm_scheduleTail hsched) (fun _ h => h.elim) ⟨rfl, rfl⟩ rfl
  | wakeUp q =>
    obtain ⟨-, hs⟩ := ite_none_right_eq_some.mp hs
    cases hq : s.procs (.other q) with
    | nil =>
      rw [hq] at hs
      cases hs
    | cons w ws =>
      rw [hq] at hs
      obtain ⟨sched, hsched, rfl⟩ := map_eq_some_iff.mp hs
      exact h.wake hsched (Sched.calm_wakeUpState hsched)
        (h.wake_touched (Or.inl ⟨_, hq ▸ mem_cons_self ..⟩) hsched) rfl ⟨rfl, rfl⟩ rfl
  | wakeUpQueue q =>
    obtain ⟨w, -, hs⟩ := bind_eq_some_iff.mp hs
    obtain ⟨sched, hsched, rfl⟩ := map_eq_some_iff.mp hs
    obtain ⟨hw, hstate, hcalm⟩ := Sched.calm_wakeUpQueue hsched
    exact h.wake hsched hcalm (hstate ▸ h.alive (Or.inr hw)) rfl ⟨rfl, rfl⟩ rfl
  | timeout p =>
    obtain ⟨hp, hs⟩ := ite_none_right_eq_some.mp hs
    obtain ⟨sched, hsched, rfl⟩ := map_eq_some_iff.mp hs
    exact h.wake hsched (Sched.calm_wakeUpState hsched) (h.wake_touched (Or.inr hp) hsched) rfl ⟨rfl, rfl⟩ rfl
  | timeoutQueue p =>
    obtain ⟨-, hs⟩ := ite_none_right_eq_some.mp hs
    obtain ⟨sched, hsched, rfl⟩ := map_eq_some_iff.mp hs
    obtain ⟨hw, hstate, hcalm⟩ := Sched.calm_wakeUpQueue hsched
    exact h.wake hsched hcalm (hstate ▸ h.alive (Or.inr hw)) rfl ⟨rfl, rfl⟩ rfl

structure Start (s : ProcSys Proc Q cpus) : Prop where
  sched : s.sched.Start
  waking : s.sched.waking = []
  place : ∀ p, s.place p = .user
  state : ∀ p, s.tree.live p = true → s.sched.state p = .running
  live : ∀ p, s.tree.live p = true ↔ ∃ c, s.sched.idle c = p
  children : ∀ p, s.tree.children p = []
  procList : s.tree.procList = []
  procs : ∀ q, s.procs q = []
  timers : s.timers = []

/-- A process whose memory is free is in neither the run queue nor a wait queue nor `m_proc_list`. -/
def Unlisted (s : ProcSys Proc Q cpus) : Prop :=
  ∀ p, s.tree.live p = false → p ∉ s.sched.runQueue ∧ (∀ q, p ∉ s.procs q) ∧ p ∉ s.tree.procList

omit [DecidableEq Q] in
theorem Start.inv (h : Start s) : Inv s := by
  refine ⟨h.sched.inv, fun p => ?_, fun p p' x hx => ?_, fun p hl hz => ?_, fun q => ?_, ?_, fun p hl => ?_,
    fun c => ?_, fun p => ?_, ?_⟩
  · rw [h.place p]
    trivial
  · rw [h.place p] at hx
    cases hx
  · rw [h.state p hl] at hz
    cases hz
  · rw [h.procs q]
    exact ⟨nodup_nil, fun p hp => absurd hp not_mem_nil⟩
  · rw [h.timers]
    exact ⟨nodup_nil, fun p hp => absurd hp not_mem_nil⟩
  · rw [h.sched.runQueue, h.waking, h.procList]
    refine ⟨not_mem_nil, not_mem_nil, not_mem_nil, fun c hc => ?_⟩
    rw [h.sched.current] at hc
    rw [(h.live p).mpr ⟨c, hc⟩] at hl
    cases hl
  · exact (h.live _).mpr ⟨c, rfl⟩
  · rw [h.children p]
    exact fun x hx => absurd hx not_mem_nil
  · rw [h.procList]
    exact nodup_nil

omit [DecidableEq Q] in
theorem Inv.unlisted (h : Inv s) : Unlisted s := by
  intro p hl
  obtain ⟨h1, -, h3, -⟩ := h.freed p hl
  refine ⟨h1, fun q hq => ?_, h3⟩
  rw [((h.queued q).2 p hq).1] at hl
  cases hl

/-- Along every run of careful steps from boot, on any number of processors, what is freed is nowhere
listed. -/
theorem freed_unlisted {boot : Fin cpus} {acts : List (ProcAct Proc Q cpus)} (h : Start s)
    (hc : Along (step boot) Careful s acts) (hr : run (step boot) s acts = some s') : Unlisted s' :=
  (run_invariant (fun _ _ _ h => h.step) h.inv hc hr).unlisted

end

def machine : ProcSys (Fin 7) Unit 3 :=
  { sched :=
      { state := fun p => if p < 3 then .running else .sleep
        pid := fun _ => 0
        hasCpu := fun _ => false
        runQueue := []
        current := fun c => c.castLE (by decide)
        idle := fun c => c.castLE (by decide)
        tails := []
        waking := []
        forking := [] }
    tree := ⟨fun _ => none, fun _ => [], [], none, fun p => p < 3⟩
    nextPid := 1
    place := fun _ => .user
    procs := fun _ => []
    waker := fun _ => none
    timers := []
    expired := [] }

theorem machine_start : Start machine := by
  refine ⟨⟨rfl, fun _ => rfl, ?_, rfl, rfl⟩, rfl, fun _ => rfl, ?_, ?_, fun _ => rfl, rfl, fun _ => rfl, rfl⟩
  all_goals decide

/-- The idle process forks process 3, which forks 4 and waits until it can reap it. -/
def reapRun : List (ProcAct (Fin 7) Unit 3) :=
  [.fork 0 3, .go 0, .go 0, .schedule 0, .scheduleTail 0, .fork 0 4, .go 0, .go 0, .schedule 1, .scheduleTail 1,
    .exit 1, .go 1, .go 1, .go 1, .go 1, .scheduleTail 4, .waitChildren 0 (-1), .go 0, .go 0, .go 0, .go 0, .go 0,
    .go 0, .go 0, .go 0]

theorem freed_unlisted_reap : ∃ s, run (step 0) machine reapRun = some s ∧ s.tree.live 4 = false ∧ Unlisted s := by
  have hc : Along (step 0) Careful machine reapRun := by
    unfold reapRun
    iterate 11 refine along_cons trivial rfl ?_
    refine along_cons ⟨by decide, by decide⟩ rfl ?_
    iterate 7 refine along_cons trivial rfl ?_
    refine along_cons (fun _ _ => ⟨by decide, by decide⟩) rfl ?_
    iterate 5 refine along_cons trivial rfl ?_
    trivial
  obtain ⟨s, hs⟩ : ∃ s, run (step 0) machine reapRun = some s := ⟨_, rfl⟩
  refine ⟨s, hs, ?_, freed_unlisted machine_start hc hs⟩
  cases hs
  rfl

/-- Process 3 waits for 4, which forks 5 and waits for it. Elsewhere 5 exits and wakes 4, which has found it
already; 4 goes on with an entry in the run queue, exits, and is reaped by 3. -/
def danglingRun : List (ProcAct (Fin 7) Unit 3) :=
  [.fork 0 3, .go 0, .go 0, .schedule 0, .scheduleTail 0, .fork 0 4, .go 0, .go 0,
    .waitChildren 0 (-1), .go 0, .go 0, .go 0, .go 0, .go 0, .scheduleTail 3,
    .fork 0 5, .go 0, .go 0, .schedule 1, .scheduleTail 1, .waitChildren 0 (-1), .go 0, .go 0,
    .exit 1, .go 1, .go 0, .go 1, .go 1, .go 1, .go 1, .scheduleTail 5,
    .go 0, .go 0, .go 0, .go 0, .go 0, .exit 0, .go 0, .go 0, .go 0, .go 0, .go 0, .go 0, .scheduleTail 4,
    .go 0, .go 0, .go 0, .go 0, .go 0]

/-- The memory of process 4 is free and the process is in the run queue. -/
theorem freed_in_run_queue : ∃ s, run (step 0) machine danglingRun = some s ∧ s.tree.live 4 = false ∧
    4 ∈ s.sched.runQueue ∧ ¬Unlisted s := by
  obtain ⟨s, hs⟩ : ∃ s, run (step 0) machine danglingRun = some s := ⟨_, rfl⟩
  have hlive : s.tree.live 4 = false := by
    cases hs
    rfl
  have hmem : 4 ∈ s.sched.runQueue := by
    cases hs
    decide
  exact ⟨s, hs, hlive, hmem, fun hu => (hu 4 hlive).1 hmem⟩

end ProcSys

end BabyOS
