import BabyOS.Sched

open Function List Option

namespace BabyOS

/-- How the memory of processes is linked: `m_parent` and `m_children`, `m_proc_list` and `m_child_reaper`.
`live` is the memory of a process that was not released. -/
structure ProcTree (Proc : Type) where
  parent : Proc → Option Proc
  children : Proc → List Proc
  procList : List Proc
  childReaper : Option Proc
  live : Proc → Bool

def asked (pid childPid : Word) : Prop := pid = -1 ∨ pid = childPid

instance asked_decidable (pid childPid : Word) : Decidable (asked pid childPid) :=
  inferInstanceAs (Decidable (_ ∨ _))

namespace ProcTree

variable {Proc : Type} [DecidableEq Proc]

/-- `get_child_reaper`, with the idle process of the boot processor: a null pointer is read when that
one has no child yet. -/
def getChildReaper (t : ProcTree Proc) (idle : Proc) : Option (ProcTree Proc × Proc) :=
  match t.childReaper with
  | some r => some (t, r)
  | none => (t.children idle).head?.map fun r => ({ t with childReaper := some r }, r)

def adopt (t : ProcTree Proc) (reaper c : Proc) : ProcTree Proc :=
  { t with parent := update t.parent c (some reaper) }

def adopeChildren (t : ProcTree Proc) (p reaper : Proc) : ProcTree Proc :=
  (t.children p).foldl (fun t c => t.adopt reaper c) t

def place (t : ProcTree Proc) (p q : Proc) : ProcTree Proc :=
  { t with
    parent := update t.parent q (some p)
    children := update t.children q []
    live := update t.live q true }

def addProcessToList (t : ProcTree Proc) (q : Proc) : ProcTree Proc :=
  { t with procList := t.procList ++ [q] }

def addChild (t : ProcTree Proc) (p q : Proc) : ProcTree Proc :=
  { t with children := update t.children p (t.children p ++ [q]) }

/-- `release_process` takes the process off the list, and then frees its memory. -/
def unlist (t : ProcTree Proc) (c : Proc) : ProcTree Proc := { t with procList := t.procList.erase c }

def free (t : ProcTree Proc) (c : Proc) : ProcTree Proc :=
  { t with live := update t.live c false }

def findProcess (t : ProcTree Proc) (pid : Proc → Word) (n : Word) : Option Proc :=
  t.procList.find? fun p => pid p = n

/-- `get_next_pid` from the counter `n`; the pid it returns and the counter it leaves. -/
def getNextPid (t : ProcTree Proc) (pid : Proc → Word) : Nat → Word → Word × Word
  | 0, n => (n, n + 1)
  | fuel + 1, n => if (t.findProcess pid n).isNone then (n, n + 1) else getNextPid t pid fuel (n + 1)

theorem adopeChildren_eq (t : ProcTree Proc) (p r : Proc) : t.adopeChildren p r =
    { t with parent := fun c => if c ∈ t.children p then some r else t.parent c } := by
  have hfold : ∀ (cs : List Proc) (t : ProcTree Proc), cs.foldl (fun t c => t.adopt r c) t =
      { t with parent := fun c => if c ∈ cs then some r else t.parent c } := by
    intro cs
    induction cs with
    | nil =>
      intro t
      simp
    | cons c cs ih =>
      intro t
      rw [foldl_cons, ih]
      simp only [adopt, ProcTree.mk.injEq, and_true]
      funext x
      by_cases hc : x = c
      · subst x
        simp
      · simp [hc]
  exact hfold _ _

omit [DecidableEq Proc] in
theorem getChildReaper_eq {t t' : ProcTree Proc} {idle r : Proc} (h : t.getChildReaper idle = some (t', r)) :
    t' = { t with childReaper := some r } := by
  unfold getChildReaper at h
  split at h
  next r' hr =>
    cases h
    rw [← hr]
  next =>
    obtain ⟨r', -, he⟩ := map_eq_some_iff.mp h
    cases he
    rfl

end ProcTree

/-- The processes between calls of `fork`, `exit` and `wait_children`. `waiting` is the argument of a
`wait_children` that sleeps, and `released` counts the calls of `release_process` for the process in the memory.
-/
structure ProcMgr (Proc : Type) where
  tree : ProcTree Proc
  state : Proc → ProcState
  pid : Proc → Word
  nextPid : Word
  waiting : Proc → Option Word
  released : Proc → Nat

inductive ProcCall (Proc : Type)
  | fork (p q : Proc)
  | exit (p : Proc)
  | waitChildren (p : Proc) (pid : Word)
  | resume (p : Proc)

namespace ProcMgr

variable {Proc : Type} [DecidableEq Proc]

def zombieChild (s : ProcMgr Proc) (p : Proc) (pid : Word) : Option Proc :=
  (s.tree.children p).find? fun c => asked pid (s.pid c) ∧ s.state c = .zombie

/-- One pass of `wait_children` from `repeat` on: it ends the call or leaves it asleep. -/
def pass (s : ProcMgr Proc) (p : Proc) (pid : Word) : ProcMgr Proc :=
  let s := { s with state := update s.state p .sleep }
  match s.zombieChild p pid with
  | some c =>
    { s with
      tree := (s.tree.unlist c).free c
      released := update s.released c (s.released c + 1)
      state := update s.state p .running
      waiting := update s.waiting p none }
  | none =>
    if ∃ c ∈ s.tree.children p, asked pid (s.pid c) then
      { s with waiting := update s.waiting p (some pid) }
    else
      { s with
        state := update s.state p .running
        waiting := update s.waiting p none }

/-- `m_wait_child.wake_up()` of the process `q`, which alone can stand in that queue. -/
def wakeParent (s : ProcMgr Proc) (q : Proc) : ProcMgr Proc :=
  if (s.waiting q).isSome then { s with state := update s.state q .running } else s

def Ready (s : ProcMgr Proc) (p : Proc) : Prop :=
  s.tree.live p = true ∧ s.state p = .running ∧ s.waiting p = none

instance ready_decidable (s : ProcMgr Proc) (p : Proc) : Decidable (s.Ready p) :=
  inferInstanceAs (Decidable (_ ∧ _ ∧ _))

/-- One call. `fork` gets free memory `q`; a null pointer that is followed has no next state. -/
def step (idle : Proc) (s : ProcMgr Proc) : ProcCall Proc → Option (ProcMgr Proc)
  | .fork p q =>
    if s.Ready p ∧ s.tree.live q = false then
      let r := s.tree.getNextPid s.pid (s.tree.procList.length + 1) s.nextPid
      some {
        tree := ((s.tree.place p q).addProcessToList q).addChild p q
        state := update s.state q .running
        pid := update s.pid q r.1
        nextPid := r.2
        waiting := update s.waiting q none
        released := update s.released q 0 }
    else none
  | .exit p =>
    if s.Ready p then
      (s.tree.getChildReaper idle).bind fun r =>
        let tree := r.1.adopeChildren p r.2
        (tree.parent p).map fun q =>
          wakeParent { s with tree := tree, state := update s.state p .zombie } q
    else none
  | .waitChildren p pid => if s.Ready p then some (s.pass p pid) else none
  | .resume p =>
    if s.tree.live p = true ∧ s.state p = .running then (s.waiting p).map fun pid => s.pass p pid else none

/-- At boot there are only the idle processes, which have no parent and no children. -/
structure Start (s : ProcMgr Proc) : Prop where
  root : ∀ p, s.tree.live p = true → s.tree.parent p = none ∧ s.tree.children p = []
  released : ∀ p, s.released p = 0

/-- `m_children` holds just the processes that are not reaped and have this parent, each once, and none
was released twice. -/
structure Consistent (s : ProcMgr Proc) : Prop where
  nodup : ∀ p, s.tree.live p = true → (s.tree.children p).Nodup
  mem : ∀ p, s.tree.live p = true → ∀ c, c ∈ s.tree.children p ↔
    s.tree.live c = true ∧ s.tree.parent c = some p
  once : ∀ p, s.released p ≤ 1

/-- After an exit every child of the process is a child of its new parent. -/
def Adopted (s : ProcMgr Proc) : ProcCall Proc → ProcMgr Proc → Prop
  | .exit p, s' => ∀ c ∈ s.tree.children p, ∃ q, s'.tree.parent c = some q ∧ c ∈ s'.tree.children q
  | _, _ => True

def Keeps (idle : Proc) (s : ProcMgr Proc) (a : ProcCall Proc) : Prop :=
  ∀ s', step idle s a = some s' → Consistent s' ∧ Adopted s a s'

/-- The calls that do: only a childless process exits, or the one that adopts, and `wait_children`
finds nothing to reap. -/
def Careful (idle : Proc) (s : ProcMgr Proc) : ProcCall Proc → Prop
  | .fork _ _ => True
  | .exit p => s.tree.children p = [] ∨ (s.tree.getChildReaper idle).map Prod.snd = some p
  | .waitChildren p pid => s.zombieChild p pid = none
  | .resume p => ∀ pid, s.waiting p = some pid → s.zombieChild p pid = none

structure Inv (s : ProcMgr Proc) : Prop where
  consistent : Consistent s
  parent : ∀ c q, s.tree.live c = true → s.tree.parent c = some q → s.tree.live q = true

section

variable {idle : Proc} {s s' : ProcMgr Proc} {p q : Proc} {pid : Word}

omit [DecidableEq Proc] in
theorem Inv.of_tree (h : Inv s) (h1 : s'.tree.parent = s.tree.parent) (h2 : s'.tree.children = s.tree.children)
    (h3 : s'.tree.live = s.tree.live) (h4 : s'.released = s.released) : Inv s' := by
  obtain ⟨⟨hnodup, hmem, honce⟩, hparent⟩ := h
  refine ⟨⟨?_, ?_, ?_⟩, ?_⟩
  · rwa [h2, h3]
  · rwa [h1, h2, h3]
  · rwa [h4]
  · rwa [h1, h3]

theorem Inv.fork (h : Inv s) (hs : step idle s (.fork p q) = some s') : Inv s' := by
  obtain ⟨⟨hp, hq⟩, he⟩ := ite_none_right_eq_some.mp hs
  cases he
  have hpq : p ≠ q := by
    rintro rfl
    rw [hp.1] at hq
    cases hq
  have hlive : ∀ x, update s.tree.live q true x = true ↔ x = q ∨ s.tree.live x = true := by
    intro x
    by_cases hx : x = q
    · simp [hx]
    · simp [hx]
  -- nothing of the tree points at free memory
  have hfresh : ∀ x, s.tree.live x = true → q ∉ s.tree.children x ∧ s.tree.parent x ≠ some q := by
    intro x hx
    refine ⟨fun hm => ?_, fun hm => ?_⟩
    · rw [((h.consistent.mem x hx q).mp hm).1] at hq
      cases hq
    · rw [h.parent x q hx hm] at hq
      cases hq
  have hchildren : ∀ x, (((s.tree.place p q).addProcessToList q).addChild p q).children x =
      if x = p then s.tree.children p ++ [q] else if x = q then [] else s.tree.children x := by
    intro x
    simp only [ProcTree.addChild, ProcTree.addProcessToList, ProcTree.place, update_apply, if_neg hpq]
  have hparent : ∀ x, (((s.tree.place p q).addProcessToList q).addChild p q).parent x =
      if x = q then some p else s.tree.parent x := fun x => update_apply _ _ _ _
  refine ⟨⟨fun x hx => ?_, fun x hx c => ?_, fun x => ?_⟩, fun c x hc hx => ?_⟩
  · dsimp only
    rw [hchildren]
    split_ifs with hxp hxq
    · exact (h.consistent.nodup p hp.1).append (nodup_singleton q) (disjoint_singleton.mpr (hfresh p hp.1).1)
    · exact nodup_nil
    · exact h.consistent.nodup x (((hlive x).mp hx).resolve_left hxq)
  · dsimp only
    rw [hchildren, hparent]
    have hc' : (((s.tree.place p q).addProcessToList q).addChild p q).live c = true ↔
        c = q ∨ s.tree.live c = true := hlive c
    rw [hc']
    by_cases hcq : c = q
    · subst c
      rw [if_pos (rfl : q = q)]
      split_ifs with hxp hxq
      · simp [hxp]
      · simp [Ne.symm hxp]
      · simp [(hfresh x (((hlive x).mp hx).resolve_left hxq)).1, Ne.symm hxp]
    · rw [or_iff_right hcq, if_neg hcq]
      split_ifs with hxp hxq
      · simp [hxp, hcq, h.consistent.mem p hp.1 c]
      · subst x
        exact iff_of_false not_mem_nil fun hc => (hfresh c hc.1).2 hc.2
      · exact h.consistent.mem x (((hlive x).mp hx).resolve_left hxq) c
  · show update s.released q 0 x ≤ 1
    rw [update_apply]
    split_ifs
    · exact Nat.zero_le 1
    · exact h.consistent.once x
  · refine (hlive x).mpr (Or.inr ?_)
    rw [hparent] at hx
    split_ifs at hx with hcq
    · cases hx
      exact hp.1
    · exact h.parent c x (((hlive c).mp hc).resolve_left hcq) hx

theorem exit_spec (hs : step idle s (.exit p) = some s') : s.tree.live p = true ∧ ∃ r,
    (s.tree.getChildReaper idle).map Prod.snd = some r ∧ s'.tree.children = s.tree.children ∧
    s'.tree.live = s.tree.live ∧ s'.released = s.released ∧
    s'.tree.parent = fun c => if c ∈ s.tree.children p then some r else s.tree.parent c := by
  obtain ⟨hp, he⟩ := ite_none_right_eq_some.mp hs
  obtain ⟨⟨t, r⟩, hr, he⟩ := bind_eq_some_iff.mp he
  obtain ⟨q, -, rfl⟩ := map_eq_some_iff.mp he
  refine ⟨hp.1, r, by rw [hr]; rfl, ?_⟩
  rw [ProcTree.adopeChildren_eq, ProcTree.getChildReaper_eq hr]
  unfold wakeParent
  split
  all_goals exact ⟨rfl, rfl, rfl, rfl⟩

theorem Inv.exit_iff (h : Inv s) (hs : step idle s (.exit p) = some s') :
    ((Consistent s' ∧ Adopted s (.exit p) s') ↔ Careful idle s (.exit p)) ∧
      (Careful idle s (.exit p) → Inv s') := by
  obtain ⟨hp, r, hr, hchildren, hlive, hreleased, hparent⟩ := exit_spec hs
  have hsame : Careful idle s (.exit p) → s'.tree.parent = s.tree.parent := by
    intro hc
    rw [hparent]
    funext c
    split
    next hmem =>
      rw [((h.consistent.mem p hp c).mp hmem).2]
      rcases hc with hc | hc
      · rw [hc] at hmem
        cases hmem
      · rw [← hr, hc]
    next => rfl
  have hinv : Careful idle s (.exit p) → Inv s' :=
    fun hc => h.of_tree (hsame hc) hchildren hlive hreleased
  refine ⟨⟨fun hk => ?_, fun hc => ⟨(hinv hc).consistent, fun c hmem => ⟨p, ?_, ?_⟩⟩⟩, hinv⟩
  · by_cases hnil : s.tree.children p = []
    · exact Or.inl hnil
    · obtain ⟨c, hmem⟩ := exists_mem_of_ne_nil _ hnil
      have hc := ((hk.1.mem p (by rw [hlive]; exact hp) c).mp (by rw [hchildren]; exact hmem)).2
      simp only [hparent, if_pos hmem] at hc
      exact Or.inr (by rw [hr, hc])
  · rw [hsame hc]
    exact ((h.consistent.mem p hp c).mp hmem).2
  · rw [hchildren]
    exact hmem

theorem zombieChild_sleep (hp : s.state p = .running) :
    ({ s with state := update s.state p .sleep } : ProcMgr Proc).zombieChild p pid =
      s.zombieChild p pid := by
  unfold zombieChild
  congr 1
  funext c
  by_cases hc : c = p
  · simp [hc, hp]
  · simp [hc]

theorem Inv.pass (h : Inv s) (hp : s.state p = .running) (hz : s.zombieChild p pid = none) :
    Inv (s.pass p pid) := by
  have hz' := (zombieChild_sleep hp).trans hz
  simp only [ProcMgr.pass, hz']
  split
  all_goals exact h.of_tree rfl rfl rfl rfl

theorem not_consistent_pass (hl : s.tree.live p = true) (hp : s.state p = .running) {c : Proc}
    (hz : s.zombieChild p pid = some c) : ¬Consistent (s.pass p pid) := by
  intro hk
  have hz' := (zombieChild_sleep hp).trans hz
  have hc := List.find?_some hz
  have hcp : p ≠ c := by
    rintro rfl
    simp [hp] at hc
  have htree : (s.pass p pid).tree = (s.tree.unlist c).free c := by simp only [ProcMgr.pass, hz']
  have hmem := hk.mem p (by rw [htree]; exact (update_of_ne hcp _ _).trans hl) c
  rw [htree] at hmem
  have := (hmem.mp (mem_of_find?_eq_some hz)).1
  simp [ProcTree.free] at this

theorem Inv.pass_iff (h : Inv s) (hl : s.tree.live p = true) (hp : s.state p = .running) (pid : Word) :
    (Consistent (s.pass p pid) ↔ s.zombieChild p pid = none) ∧
      (s.zombieChild p pid = none → Inv (s.pass p pid)) := by
  refine ⟨⟨fun hk => ?_, fun hz => (h.pass hp hz).consistent⟩, h.pass hp⟩
  by_contra hz
  obtain ⟨c, hc⟩ := ne_none_iff_exists'.mp hz
  exact not_consistent_pass hl hp hc hk

theorem Inv.step_iff (h : Inv s) {a : ProcCall Proc} (hs : step idle s a = some s') :
    (Keeps idle s a ↔ Careful idle s a) ∧ (Careful idle s a → Inv s') := by
  have hkeeps : Keeps idle s a ↔ Consistent s' ∧ Adopted s a s' :=
    ⟨fun hk => hk s' hs, fun hk t ht => by cases hs.symm.trans ht; exact hk⟩
  rw [hkeeps]
  cases a with
  | fork p q =>
    have hinv := h.fork hs
    exact ⟨iff_of_true ⟨hinv.consistent, trivial⟩ trivial, fun _ => hinv⟩
  | exit p => exact h.exit_iff hs
  | waitChildren p pid =>
    obtain ⟨hp, he⟩ := ite_none_right_eq_some.mp hs
    cases he
    obtain ⟨h1, h2⟩ := h.pass_iff hp.1 hp.2.1 pid
    exact ⟨(and_iff_left trivial).trans h1, h2⟩
  | resume p =>
    obtain ⟨hp, he⟩ := ite_none_right_eq_some.mp hs
    obtain ⟨pid, hw, rfl⟩ := map_eq_some_iff.mp he
    obtain ⟨h1, h2⟩ := h.pass_iff hp.1 hp.2 pid
    have hc : Careful idle s (.resume p) ↔ s.zombieChild p pid = none :=
      ⟨fun hc => hc pid hw, fun hz pid' hw' => by cases hw.symm.trans hw'; exact hz⟩
    rw [hc]
    exact ⟨(and_iff_left trivial).trans h1, h2⟩

omit [DecidableEq Proc] in
theorem Start.inv (h : Start s) : Inv s := by
  refine ⟨⟨fun p hp => ?_, fun p hp c => ?_, fun p => ?_⟩, fun c q hc hq => ?_⟩
  · rw [(h.root p hp).2]
    exact nodup_nil
  · rw [(h.root p hp).2]
    refine iff_of_false not_mem_nil ?_
    rintro ⟨hc, hpar⟩
    rw [(h.root c hc).1] at hpar
    cases hpar
  · rw [h.released p]
    exact Nat.zero_le 1
  · rw [(h.root c hc).1] at hq
    cases hq

/-- Along a run from boot every call leaves the tree consistent just when every call is careful. -/
theorem tree_consistent_iff {calls : List (ProcCall Proc)} (h : Start s)
    (hr : run (step idle) s calls = some s') :
    Along (step idle) (Keeps idle) s calls ↔ Along (step idle) (Careful idle) s calls :=
  along_iff (fun _ _ _ hi hs => hi.step_iff hs) h.inv hr

end

def boot : ProcMgr (Fin 5) :=
  { tree := ⟨fun _ => none, fun _ => [], [], none, fun p => p = 0⟩
    state := fun _ => .running
    pid := fun _ => 0
    nextPid := 1
    waiting := fun _ => none
    released := fun _ => 0 }

theorem boot_start : Start boot := ⟨fun _ _ => ⟨rfl, rfl⟩, fun _ => rfl⟩

theorem tree_consistent_exit :
    Along (step 0) (Keeps 0) boot [.fork 0 1, .fork 1 2, .exit 2, .waitChildren 1 5] := by
  obtain ⟨s, hs⟩ : ∃ s, run (step 0) boot [.fork 0 1, .fork 1 2, .exit 2, .waitChildren 1 5] = some s :=
    ⟨_, rfl⟩
  refine (tree_consistent_iff boot_start hs).mpr ?_
  exact along_cons trivial rfl (along_cons trivial rfl (along_cons (Or.inl rfl) rfl
    (along_cons rfl rfl trivial)))

/-- A reaped child stays in `m_children` and is released again by the next wait, and a child of a process that
exits is in nobody else's `m_children`. -/
theorem reaped_twice_and_orphaned :
    (∃ s s', run (step 0) boot [.fork 0 1, .fork 1 2, .exit 2, .waitChildren 1 (-1)] = some s ∧
      s.tree.live 2 = false ∧ s.tree.children 1 = [2] ∧ ¬Consistent s ∧
      step 0 s (.waitChildren 1 (-1)) = some s' ∧ s'.released 2 = 2) ∧
    ∃ s s', run (step 0) boot [.fork 0 1, .fork 1 2, .fork 2 3] = some s ∧
      step 0 s (.exit 2) = some s' ∧ s'.tree.parent 3 = some 1 ∧ s'.tree.children 1 = [2] ∧
      ¬Consistent s' ∧ ¬Adopted s (.exit 2) s' := by
  refine ⟨⟨_, _, rfl, rfl, rfl, fun h => ?_, rfl, rfl⟩, ⟨_, _, rfl, rfl, rfl, rfl, fun h => ?_, fun h => ?_⟩⟩
  · exact absurd ((h.mem 1 rfl 2).mp (by decide)).1 (by decide)
  · exact absurd ((h.mem 1 rfl 3).mpr ⟨rfl, rfl⟩) (by decide)
  · obtain ⟨q, hq, hmem⟩ := h 3 (by decide)
    cases (some.inj hq)
    exact absurd hmem (by decide)

end ProcMgr

end BabyOS
