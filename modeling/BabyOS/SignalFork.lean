import BabyOS.Signal
import BabyOS.Runs

open Function

namespace BabyOS

/-- The process list with the signals of each process: those put into its queue since it exists, and those that
its `do_signal` has taken. -/
structure SigSys (Proc : Type) where
  list : List Proc
  pid : Proc → Word
  proc : Proc → SigProc
  sent : Proc → List SigInfo
  taken : Proc → List SigInfo

inductive SigAct (Proc : Type)
  | send (sender pid sig : Word)
  | deliver (p : Proc)
  | fork (p child : Proc) (pid : Word)
  | release (p : Proc)

namespace SigSys

variable {Proc : Type} [DecidableEq Proc]

def findProcess (s : SigSys Proc) (pid : Word) : Option Proc := s.list.find? fun p => s.pid p = pid

def sendSignalTo (s : SigSys Proc) (sender pid sig : Word) : SigSys Proc :=
  match s.findProcess pid with
  | none => s
  | some p =>
    let si : SigInfo := ⟨sig, sender⟩
    { s with
      proc := update s.proc p { s.proc p with sigQueue := (s.proc p).sigQueue ++ [si] }.calcSigPending
      sent := update s.sent p (s.sent p ++ [si]) }

/-- The return to user mode of a process whose `m_sig_pending` is set. -/
def doSignal (s : SigSys Proc) (p : Proc) : Option (SigSys Proc) :=
  if p ∈ s.list ∧ (s.proc p).sigPending = true then
    match (s.proc p).nextSignal with
    | none => some s
    | some (si, sp) => some { s with
        proc := update s.proc p sp
        taken := update s.taken p (s.taken p ++ [si]) }
  else none

/-- `fork`, with the page and number of the child: it is a copy of the parent, and then the queue of the parent is
made anew. -/
def fork (s : SigSys Proc) (p child : Proc) (pid : Word) : Option (SigSys Proc) :=
  if p ∈ s.list ∧ child ∉ s.list ∧ s.findProcess pid = none then
    some
      { list := s.list ++ [child]
        pid := update s.pid child pid
        proc := update (update s.proc child (s.proc p)) p { s.proc p with sigQueue := [] }
        sent := update s.sent child []
        taken := update s.taken child [] }
  else none

def release (s : SigSys Proc) (p : Proc) : SigSys Proc := { s with list := s.list.filter (· ≠ p) }

def step (s : SigSys Proc) : SigAct Proc → Option (SigSys Proc)
  | .send sender pid sig => some (s.sendSignalTo sender pid sig)
  | .deliver p => s.doSignal p
  | .fork p child pid => s.fork p child pid
  | .release p => some (s.release p)

/-- Every process has taken, in order, the first signals sent to it; the others are in its queue, and its flag
says whether there are any. -/
def Balanced (s : SigSys Proc) : Prop :=
  ∀ p ∈ s.list, s.taken p ++ (s.proc p).sigQueue = s.sent p ∧
    (s.proc p).sigPending = !(s.proc p).sigQueue.isEmpty

/-- After a fork the parent has the signals it had, and the child none. -/
def ForkApart (s s' : SigSys Proc) : SigAct Proc → Prop
  | .fork p child _ => (s'.proc p).sigQueue = (s.proc p).sigQueue ∧ (s'.proc p).sigPending = (s.proc p).sigPending ∧
      (s'.proc child).sigQueue = [] ∧ (s'.proc child).sigPending = false
  | _ => True

def Kept (s : SigSys Proc) (a : SigAct Proc) : Prop := ∀ s', s.step a = some s' → s'.Balanced ∧ ForkApart s s' a

def NonePending (s : SigSys Proc) : SigAct Proc → Prop
  | .fork p _ _ => (s.proc p).sigQueue = []
  | _ => True

section

variable {s s' t : SigSys Proc} {p child : Proc} {pid : Word}

theorem Balanced.sendSignalTo (h : s.Balanced) (sender pid sig : Word) : (s.sendSignalTo sender pid sig).Balanced := by
  unfold SigSys.sendSignalTo
  split
  next => exact h
  next p hp =>
    intro q hq
    by_cases hqp : q = p
    · subst hqp
      have hbal := (h q hq).1
      simp [SigProc.calcSigPending, ← hbal]
    · simp only [update_of_ne hqp]
      exact h q hq

theorem Balanced.doSignal (h : s.Balanced) (hs : s.doSignal p = some s') : s'.Balanced := by
  unfold SigSys.doSignal at hs
  split at hs
  next hp =>
    unfold SigProc.nextSignal at hs
    cases hq : (s.proc p).sigQueue with
    | nil =>
      rw [hq] at hs
      cases hs
      exact h
    | cons si rest =>
      rw [hq] at hs
      cases hs
      intro q hmem
      by_cases hqp : q = p
      · subst hqp
        have hbal := (h q hmem).1
        rw [hq] at hbal
        simp [SigProc.calcSigPending, ← hbal]
      · simp only [update_of_ne hqp]
        exact h q hmem
  next => cases hs

theorem Balanced.release (h : s.Balanced) (p : Proc) : (s.release p).Balanced :=
  fun q hq => h q (List.mem_of_mem_filter hq)

theorem Balanced.fork_iff (h : s.Balanced) (hs : s.fork p child pid = some s') :
    s'.Balanced ∧ ForkApart s s' (.fork p child pid) ↔ (s.proc p).sigQueue = [] := by
  obtain ⟨⟨hp, hchild, _⟩, he⟩ := Option.ite_none_right_eq_some.mp hs
  cases he
  have hne : child ≠ p := fun he => hchild (he ▸ hp)
  have hflag := (h p hp).2
  constructor
  · rintro ⟨-, hqueue, -⟩
    simp only [update_self] at hqueue
    exact hqueue.symm
  · intro hnone
    rw [hnone] at hflag
    have hsame : ({ s.proc p with sigQueue := [] } : SigProc) = s.proc p := by rw [← hnone]
    rw [hsame]
    refine ⟨fun q hq => ?_, ?_⟩
    · by_cases hqc : q = child
      · subst hqc
        simp [hne, hnone, hflag]
      · have hmem : q ∈ s.list := by simpa [hqc] using hq
        have hproc : update (update s.proc child (s.proc p)) p (s.proc p) q = s.proc q := by
          by_cases hqp : q = p
          · rw [hqp, update_self]
          · rw [update_of_ne hqp, update_of_ne hqc]
        simp only [hproc, update_of_ne hqc]
        exact h q hmem
    · simp [ForkApart, hne, hnone, hflag]

theorem Balanced.kept_iff (h : s.Balanced) {a : SigAct Proc} (hs : s.step a = some s') :
    (s.Kept a ↔ s.NonePending a) ∧ (s.NonePending a → s'.Balanced) := by
  have hkept : s.Kept a ↔ s'.Balanced ∧ ForkApart s s' a := by
    constructor
    · intro hk
      exact hk s' hs
    · intro hk s'' hs''
      cases hs.symm.trans hs''
      exact hk
  rw [hkept]
  cases a with
  | send sender pid sig =>
    cases hs
    exact ⟨⟨fun _ => trivial, fun _ => ⟨h.sendSignalTo sender pid sig, trivial⟩⟩, fun _ => h.sendSignalTo sender pid sig⟩
  | deliver p => exact ⟨⟨fun _ => trivial, fun _ => ⟨h.doSignal hs, trivial⟩⟩, fun _ => h.doSignal hs⟩
  | fork p child pid => exact ⟨h.fork_iff hs, fun hn => ((h.fork_iff hs).mpr hn).1⟩
  | release p =>
    cases hs
    exact ⟨⟨fun _ => trivial, fun _ => ⟨h.release p, trivial⟩⟩, fun _ => h.release p⟩

/-- Every fork leaves the signals where they belong, and each signal is taken once, by the process it was sent
to, or is still in its queue, exactly when no process with a signal pending forks. -/
theorem fork_keeps_signals {as : List (SigAct Proc)} (h : s.Balanced) (hr : run step s as = some t) :
    Along step Kept s as ↔ Along step NonePending s as :=
  along_iff (fun _ _ _ hs hstep => hs.kept_iff hstep) h hr

end

def single (p : Proc) (pid : Word) : SigSys Proc where
  list := [p]
  pid := fun _ => pid
  proc := fun _ => ⟨false, [], fun _ => sigDfl⟩
  sent := fun _ => []
  taken := fun _ => []

omit [DecidableEq Proc] in
theorem balanced_single (p : Proc) (pid : Word) : (single p pid).Balanced := fun _ _ => ⟨rfl, rfl⟩

theorem fork_keeps_signals_taken : ∃ t : SigSys Nat,
    run step (single 0 1) [.send 1 1 2, .deliver 0, .fork 0 1 2, .send 1 2 3, .deliver 1] = some t ∧
      Along step Kept (single 0 1) [.send 1 1 2, .deliver 0, .fork 0 1 2, .send 1 2 3, .deliver 1] := by
  refine ⟨_, rfl, (fork_keeps_signals (balanced_single 0 1) rfl).mpr ?_⟩
  exact along_cons trivial rfl (along_cons trivial rfl (along_cons rfl rfl (along_cons trivial rfl
    (along_cons trivial rfl trivial))))

/-- The signal sent to process 1 is taken by its child, of number 2; process 1 has lost it, with its flag still
set. -/
theorem fork_moves_signals : ∃ t : SigSys Nat,
    run step (single 0 1) [.send 1 1 2, .fork 0 1 2, .deliver 1] = some t ∧
      t.sent 0 = [⟨2, 1⟩] ∧ t.taken 0 = [] ∧ (t.proc 0).sigQueue = [] ∧ (t.proc 0).sigPending = true ∧
      t.sent 1 = [] ∧ t.taken 1 = [⟨2, 1⟩] :=
  ⟨_, rfl, rfl, rfl, rfl, rfl, rfl, rfl⟩

end SigSys

end BabyOS
