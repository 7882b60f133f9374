import BabyOS.Runs
import Mathlib.Data.List.Nodup
import Mathlib.Logic.Function.Basic

open Function List Option

namespace BabyOS

/-- `add_request` is not called, is between the test of `m_current` and what follows from it, or is through. -/
inductive ReqPhase
  | fresh
  | sawNone
  | sawBusy
  | added
  deriving DecidableEq

/-- The request queue of the disk with the calls under way, the number of interrupts to come, and the requests
issued, completed and queued so far. -/
structure DiskQueue (Req : Type) where
  current : Option Req
  reqList : List Req
  phase : Req → ReqPhase
  outstanding : Nat
  issued : List Req
  completed : List Req
  queued : List Req

inductive DiskAct (Req : Type)
  | test (r : Req)
  | assign (r : Req)
  | push (r : Req)
  | irq

namespace DiskQueue

variable {Req : Type}

def init : DiskQueue Req where
  current := none
  reqList := []
  phase := fun _ => .fresh
  outstanding := 0
  issued := []
  completed := []
  queued := []

def doRequest (s : DiskQueue Req) : DiskQueue Req :=
  match s.current with
  | none => s
  | some r => { s with outstanding := s.outstanding + 1, issued := s.issued ++ [r] }

/-- The interrupt of a command. With no request under way it follows a null pointer. -/
def endRequest (s : DiskQueue Req) : Option (DiskQueue Req) :=
  match s.current with
  | none => none
  | some r => some ({ s with
      outstanding := s.outstanding - 1
      completed := s.completed ++ [r]
      current := s.reqList.head?
      reqList := s.reqList.tail }.doRequest)

variable [DecidableEq Req]

def setPhase (s : DiskQueue Req) (r : Req) (ph : ReqPhase) : DiskQueue Req :=
  { s with phase := update s.phase r ph }

def step (s : DiskQueue Req) : DiskAct Req → Option (DiskQueue Req)
  | .test r =>
    if s.phase r = .fresh then some (s.setPhase r (if s.current.isNone then .sawNone else .sawBusy)) else none
  | .assign r => if s.phase r = .sawNone then some ({ s.setPhase r .added with current := some r }.doRequest) else none
  | .push r =>
    if s.phase r = .sawBusy then
      some { s.setPhase r .added with reqList := s.reqList ++ [r], queued := s.queued ++ [r] }
    else none
  | .irq => if s.outstanding = 0 then none else s.endRequest

/-- What a requester has seen of `m_current` still holds when it goes by it, or it is still busy or going to be.
-/
def Careful (s : DiskQueue Req) : DiskAct Req → Prop
  | .assign _ => s.current = none
  | .push _ => s.current ≠ none ∨ ∃ q, s.phase q = .sawNone
  | _ => True

/-- A request waits, none is under way, and nobody has a step left. -/
def Stranded (s : DiskQueue Req) : Prop :=
  s.reqList ≠ [] ∧ s.current = none ∧ s.outstanding = 0 ∧ ∀ r, s.phase r ≠ .sawNone ∧ s.phase r ≠ .sawBusy

/-- The interrupts that are to come complete every request that has been handed over, once. -/
def Drains (s : DiskQueue Req) : Prop :=
  ∃ t, run step s (List.replicate (s.current.toList.length + s.reqList.length) .irq) = some t ∧
    ∀ r, s.phase r = .added → t.issued.count r = 1 ∧ t.completed.count r = 1

structure Served (s : DiskQueue Req) : Prop where
  issuedOnce : s.issued.Nodup
  completedOnce : s.completed.Nodup
  inOrder : s.completed <+: s.issued
  single : s.outstanding ≤ 1
  fifo : s.queued = s.issued.filter (· ∈ s.queued) ++ s.reqList
  notStranded : ¬s.Stranded
  drains : (∀ r, s.phase r ≠ .sawNone ∧ s.phase r ≠ .sawBusy) → s.Drains

/-- Every request that has been handed over is completed, under way or in the queue, and only there. -/
structure Inv (s : DiskQueue Req) : Prop where
  issued : s.issued = s.completed ++ s.current.toList
  once : (s.issued ++ s.reqList).Nodup
  added : ∀ r, s.phase r = .added ↔ r ∈ s.issued ++ s.reqList
  outstanding : s.outstanding = s.current.toList.length
  fifo : s.queued = s.issued.filter (· ∈ s.queued) ++ s.reqList
  progress : s.reqList ≠ [] → s.current ≠ none ∨ ∃ q, s.phase q = .sawNone

section

variable {s s' t : DiskQueue Req} {r : Req}

theorem inv_init : (init : DiskQueue Req).Inv where
  issued := rfl
  once := nodup_nil
  added r := ⟨ReqPhase.noConfusion, fun h => by cases h⟩
  outstanding := rfl
  fifo := rfl
  progress h := absurd rfl h

theorem Inv.not_mem (h : s.Inv) (hr : s.phase r ≠ .added) : r ∉ s.issued ++ s.reqList :=
  fun hm => hr ((h.added r).mpr hm)

theorem Inv.not_queued (h : s.Inv) (hr : s.phase r ≠ .added) : r ∉ s.queued := by
  have hno := h.not_mem hr
  rw [h.fifo, mem_append, mem_filter]
  rintro (hm | hm)
  · exact hno (mem_append_left _ hm.1)
  · exact hno (mem_append_right _ hm)

theorem setPhase_self {ph : ReqPhase} : (s.setPhase r ph).phase r = ph := update_self _ _ _

theorem setPhase_of_ne {ph : ReqPhase} {q : Req} (h : q ≠ r) : (s.setPhase r ph).phase q = s.phase q :=
  update_of_ne h _ _

theorem sawNone_setPhase {ph : ReqPhase} (hr : s.phase r ≠ .sawNone) (h : ∃ q, s.phase q = .sawNone) :
    ∃ q, (s.setPhase r ph).phase q = .sawNone := by
  obtain ⟨q, hq⟩ := h
  have hne : q ≠ r := by
    rintro rfl
    exact hr hq
  exact ⟨q, by rw [setPhase_of_ne hne, hq]⟩

theorem Inv.test (h : s.Inv) (hs : s.step (.test r) = some s') : s'.Inv := by
  simp only [step] at hs
  split at hs
  next hfresh =>
    cases hs
    have hnone : s.phase r ≠ .sawNone := by
      rw [hfresh]
      exact ReqPhase.noConfusion
    have hnot : s.phase r ≠ .added := by
      rw [hfresh]
      exact ReqPhase.noConfusion
    refine ⟨h.issued, h.once, fun q => ?_, h.outstanding, h.fifo,
      fun hl => (h.progress hl).imp_right (sawNone_setPhase hnone)⟩
    by_cases hq : q = r
    · subst hq
      rw [setPhase_self]
      refine ⟨fun he => absurd he ?_, fun hm => absurd hm (h.not_mem hnot)⟩
      split
      · exact ReqPhase.noConfusion
      · exact ReqPhase.noConfusion
    · rw [setPhase_of_ne hq]
      exact h.added q
  next => cases hs

theorem phase_added (q : Req) {l : List Req} (h : s.phase q = .added ↔ q ∈ l) :
    (s.setPhase r .added).phase q = .added ↔ q = r ∨ q ∈ l := by
  by_cases hq : q = r
  · subst hq
    simp [setPhase]
  · simp [setPhase, hq, h]

section

variable (h : s.Inv)
include h

theorem Inv.assign (hc : s.current = none) (hs : s.step (.assign r) = some s') : s'.Inv := by
  simp only [step] at hs
  split at hs
  next hsaw =>
    cases hs
    have hnot : s.phase r ≠ .added := by
      rw [hsaw]
      exact ReqPhase.noConfusion
    have hno := h.not_mem hnot
    have hissued := h.issued
    have hout := h.outstanding
    rw [hc] at hissued hout
    simp only [toList_none, append_nil, length_nil] at hissued hout
    refine ⟨?_, ?_, fun q => ?_, ?_, ?_, fun _ => Or.inl (some_ne_none r)⟩
    · change s.issued ++ [r] = s.completed ++ [r]
      rw [hissued]
    · change (s.issued ++ [r] ++ s.reqList).Nodup
      rw [append_assoc]
      exact nodup_middle.mpr (nodup_cons.mpr ⟨hno, h.once⟩)
    · change (s.setPhase r .added).phase q = .added ↔ q ∈ s.issued ++ [r] ++ s.reqList
      rw [phase_added q (h.added q)]
      simp only [mem_append, mem_singleton]
      tauto
    · change s.outstanding + 1 = 1
      rw [hout]
    · change s.queued = (s.issued ++ [r]).filter (· ∈ s.queued) ++ s.reqList
      rw [filter_append, filter_singleton]
      simpa [h.not_queued hnot] using h.fifo
  next => cases hs

theorem Inv.push (hc : s.current ≠ none ∨ ∃ q, s.phase q = .sawNone) (hs : s.step (.push r) = some s') : s'.Inv := by
  simp only [step] at hs
  split at hs
  next hsaw =>
    cases hs
    have hnot : s.phase r ≠ .added := by
      rw [hsaw]
      exact ReqPhase.noConfusion
    have hno := h.not_mem hnot
    refine ⟨h.issued, ?_, fun q => ?_, h.outstanding, ?_, fun _ => ?_⟩
    · change (s.issued ++ (s.reqList ++ [r])).Nodup
      rw [← append_assoc]
      exact h.once.append (nodup_singleton r) (disjoint_singleton.mpr hno)
    · change (s.setPhase r .added).phase q = .added ↔ q ∈ s.issued ++ (s.reqList ++ [r])
      rw [phase_added q (h.added q)]
      simp only [mem_append, mem_singleton]
      tauto
    · change s.queued ++ [r] = s.issued.filter (· ∈ s.queued ++ [r]) ++ (s.reqList ++ [r])
      have hsame : s.issued.filter (· ∈ s.queued ++ [r]) = s.issued.filter (· ∈ s.queued) := by
        refine filter_congr fun q hq => ?_
        have hne : q ≠ r := by
          rintro rfl
          exact hno (mem_append_left _ hq)
        simp [hne]
      rw [hsame, ← append_assoc, ← h.fifo]
    · refine hc.imp_right (sawNone_setPhase ?_)
      rw [hsaw]
      exact ReqPhase.noConfusion
  next => cases hs

theorem Inv.endRequest (hs : s.endRequest = some s') :
    s'.Inv ∧ s'.phase = s.phase ∧ s'.issued ++ s'.reqList = s.issued ++ s.reqList ∧
      s'.current = s.reqList.head? ∧ s'.reqList = s.reqList.tail := by
  unfold DiskQueue.endRequest at hs
  cases hc : s.current with
  | none =>
    rw [hc] at hs
    cases hs
  | some r =>
    rw [hc] at hs
    have hissued := h.issued
    have hout := h.outstanding
    have hfifo := h.fifo
    rw [hc] at hissued hout
    simp only [toList_some, length_singleton] at hissued hout
    have honce := h.once
    have hadded := h.added
    cases hl : s.reqList with
    | nil =>
      rw [hl] at hs honce hadded hfifo
      cases hs
      refine ⟨⟨?_, honce, hadded, ?_, hfifo, fun hne => absurd rfl hne⟩, rfl, rfl, rfl, rfl⟩
      · change s.issued = s.completed ++ [r] ++ []
        rw [append_nil, hissued]
      · change s.outstanding - 1 = 0
        rw [hout]
    | cons q rest =>
      rw [hl] at hs honce hadded hfifo
      cases hs
      have hmove : s.issued ++ [q] ++ rest = s.issued ++ q :: rest := by simp
      have hq : q ∈ s.queued := by
        rw [hfifo]
        simp
      refine ⟨⟨?_, by rwa [← hmove] at honce, fun p => by rw [← hmove] at hadded; exact hadded p, ?_, ?_,
        fun _ => Or.inl (some_ne_none q)⟩, rfl, hmove, rfl, rfl⟩
      · change s.issued ++ [q] = s.completed ++ [r] ++ [q]
        rw [hissued]
      · change s.outstanding - 1 + 1 = 1
        rw [hout]
      · change s.queued = (s.issued ++ [q]).filter (· ∈ s.queued) ++ rest
        rw [filter_append, filter_singleton]
        simpa [hq] using hfifo

theorem Inv.step {a : DiskAct Req} (hc : s.Careful a) (hs : s.step a = some s') : s'.Inv := by
  cases a with
  | test r => exact h.test hs
  | assign r => exact h.assign hc hs
  | push r => exact h.push hc hs
  | irq =>
    simp only [DiskQueue.step] at hs
    split at hs
    next => cases hs
    next => exact (h.endRequest hs).1

theorem Inv.irq (hc : s.current ≠ none) : ∃ t, s.step .irq = some t := by
  obtain ⟨r, hr⟩ := ne_none_iff_exists'.mp hc
  have hout := h.outstanding
  rw [hr] at hout
  simp only [toList_some, length_singleton] at hout
  simp only [DiskQueue.step, DiskQueue.endRequest, hr, hout]
  exact ⟨_, rfl⟩

theorem Inv.drain (hnone : ∀ r, s.phase r ≠ .sawNone) :
    ∃ t, run DiskQueue.step s (List.replicate (s.current.toList.length + s.reqList.length) .irq) = some t ∧
      t.issued = s.issued ++ s.reqList ∧ t.completed = s.issued ++ s.reqList := by
  obtain ⟨n, hn⟩ : ∃ n, s.current.toList.length + s.reqList.length = n := ⟨_, rfl⟩
  induction n generalizing s with
  | zero =>
    have hc : s.current = none := by
      cases hc : s.current with
      | none => rfl
      | some r => simp [hc] at hn
    have hl : s.reqList = [] := eq_nil_of_length_eq_zero (by omega)
    have hissued := h.issued
    rw [hc] at hissued
    simp only [toList_none, append_nil] at hissued
    rw [hn, hl, append_nil]
    exact ⟨s, rfl, rfl, hissued.symm⟩
  | succ n ih =>
    have hc : s.current ≠ none := by
      intro hc
      have hl : s.reqList ≠ [] := by
        intro hl
        simp [hc, hl] at hn
      rcases h.progress hl with hc' | ⟨q, hq⟩
      · exact hc' hc
      · exact hnone q hq
    obtain ⟨u, hu⟩ := h.irq hc
    have hend : s.endRequest = some u := by
      simp only [DiskQueue.step] at hu
      split at hu
      next => cases hu
      next => exact hu
    obtain ⟨hinv, hphase, hsame, hcur, hlist⟩ := h.endRequest hend
    have hlen : u.current.toList.length + u.reqList.length = n := by
      rw [hcur, hlist]
      obtain ⟨r, hr⟩ := ne_none_iff_exists'.mp hc
      rw [hr] at hn
      cases hl : s.reqList with
      | nil | cons q rest =>
        rw [hl] at hn
        simp at hn ⊢
        omega
    obtain ⟨t, hrun, hi, hcomp⟩ := ih hinv (by rw [hphase]; exact hnone) hlen
    rw [hlen] at hrun
    rw [hn, replicate_succ, ← hsame]
    exact ⟨t, run_step hu hrun, hi, hcomp⟩

theorem Inv.served : s.Served where
  issuedOnce := h.once.of_append_left
  completedOnce := by
    have honce := h.once.of_append_left
    rw [h.issued] at honce
    exact honce.of_append_left
  inOrder := ⟨_, h.issued.symm⟩
  single := by
    rw [h.outstanding]
    cases s.current with
    | none => exact Nat.zero_le 1
    | some r => exact Nat.le_refl 1
  fifo := h.fifo
  notStranded := by
    rintro ⟨hl, hc, -, hidle⟩
    rcases h.progress hl with hc' | ⟨q, hq⟩
    · exact hc' hc
    · exact (hidle q).1 hq
  drains := by
    intro hidle
    obtain ⟨t, hrun, hi, hcomp⟩ := h.drain fun r => (hidle r).1
    refine ⟨t, hrun, fun r hr => ?_⟩
    rw [hi, hcomp]
    have hone := count_eq_one_of_mem h.once ((h.added r).mp hr)
    exact ⟨hone, hone⟩

end

/-- In a run in which no requester goes by an outdated test, the disk serves every request. -/
theorem disk_requests_served {as : List (DiskAct Req)} (ha : Along DiskQueue.step Careful init as)
    (hr : run DiskQueue.step init as = some s) : s.Served :=
  (run_invariant (fun _ _ _ h => h.step) inv_init ha hr).served

end

theorem disk_requests_served_three : ∃ s : DiskQueue (Fin 3),
    run step init [.test 0, .assign 0, .test 1, .test 2, .push 2, .push 1, .irq] = some s ∧ s.Served := by
  have hbusy : (some 0 : Option (Fin 3)) ≠ none := some_ne_none 0
  have ha : Along step Careful (init : DiskQueue (Fin 3))
      [.test 0, .assign 0, .test 1, .test 2, .push 2, .push 1, .irq] :=
    along_cons trivial rfl (along_cons rfl rfl (along_cons trivial rfl (along_cons trivial rfl
      (along_cons (Or.inl hbusy) rfl (along_cons (Or.inl hbusy) rfl (along_cons trivial rfl trivial))))))
  exact ⟨_, rfl, disk_requests_served ha rfl⟩

/-- Two requesters that both see no request under way, and an interrupt between the test and the push. -/
theorem disk_requests_lost :
    (∃ s : DiskQueue (Fin 2), run step init [.test 0, .test 1, .assign 0, .assign 1] = some s ∧
      s.outstanding = 2 ∧ s.current = some 1 ∧ s.reqList = []) ∧
    ∃ s : DiskQueue (Fin 2), run step init [.test 0, .assign 0, .test 1, .irq, .push 1] = some s ∧ s.Stranded :=
  ⟨⟨_, rfl, rfl, rfl, rfl⟩, _, rfl, cons_ne_nil 1 [], rfl, rfl, by decide⟩

end DiskQueue

end BabyOS
