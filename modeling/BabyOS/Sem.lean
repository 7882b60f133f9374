import BabyOS.Sched
import BabyOS.Tally

open Function BitVec List Option

namespace BabyOS

/-- `semaphore_t`. The waiters of `m_wait_list` are on the stacks of processes that are in `down_common`, each with its
`m_up`. -/
structure Sem (Proc : Type) where
  count : Word
  waitList : List Proc
  waiter : Proc → Option Bool

namespace Sem

variable {Proc : Type} [DecidableEq Proc]

def init (count : Word) : Sem Proc := ⟨count, [], fun _ => none⟩

/-- `down` up to its first `unlock`, and whether it returns there. -/
def down (s : Sem Proc) (p : Proc) : Bool × Sem Proc :=
  if 0 < s.count then (true, { s with count := s.count - 1 })
  else (false, { s with waitList := s.waitList ++ [p], waiter := update s.waiter p (some false) })

def up (s : Sem Proc) : Option Proc × Sem Proc :=
  match s.waitList with
  | [] => (none, { s with count := s.count + 1 })
  | p :: ps => (some p, { s with waitList := ps, waiter := update s.waiter p (some true) })

/-- The loop of `down_common` from one `schedule` to the next, and whether `down` returns. -/
def resume (s : Sem Proc) (p : Proc) : Option (Bool × Sem Proc) :=
  match s.waiter p with
  | none => none
  | some true => some (true, { s with waiter := update s.waiter p none })
  | some false => some (false, s)

/-- The processes in the list are those that sleep and have not been marked, and while there are some the count
is 0. -/
structure Wf (s : Sem Proc) : Prop where
  nodup : s.waitList.Nodup
  waits : ∀ p, p ∈ s.waitList ↔ s.waiter p = some false
  empty : 0 < s.count → s.waitList = []

section

variable {s t : Sem Proc} {p q : Proc} {r : Bool}

omit [DecidableEq Proc] in
theorem wf_init (count : Word) : (init count : Sem Proc).Wf :=
  ⟨nodup_nil, fun _ => ⟨fun h => absurd h not_mem_nil, fun h => absurd h (some_ne_none _).symm⟩,
    fun _ => rfl⟩

theorem down_cases (s : Sem Proc) (p : Proc) :
    (0 < s.count ∧ s.down p = (true, { s with count := s.count - 1 })) ∨
      (s.count = 0 ∧ s.down p =
        (false, { s with waitList := s.waitList ++ [p], waiter := update s.waiter p (some false) })) := by
  unfold down
  by_cases hc : 0 < s.count
  · rw [if_pos hc]
    exact Or.inl ⟨hc, rfl⟩
  · rw [if_neg hc]
    exact Or.inr ⟨BitVec.le_zero_iff.mp (BitVec.not_lt.mp hc), rfl⟩

theorem up_cases (s : Sem Proc) :
    (s.waitList = [] ∧ s.up = (none, { s with count := s.count + 1 })) ∨
      ∃ p ps, s.waitList = p :: ps ∧
        s.up = (some p, { s with waitList := ps, waiter := update s.waiter p (some true) }) := by
  unfold up
  cases hw : s.waitList with
  | nil => exact Or.inl ⟨rfl, rfl⟩
  | cons p ps => exact Or.inr ⟨p, ps, rfl, rfl⟩

theorem resume_cases (h : s.resume p = some (r, t)) :
    (s.waiter p = some true ∧ r = true ∧ t = { s with waiter := update s.waiter p none }) ∨
      (s.waiter p = some false ∧ r = false ∧ t = s) := by
  unfold resume at h
  cases hw : s.waiter p with
  | none => rw [hw] at h; cases h
  | some b =>
    rw [hw] at h
    cases b
    · cases h
      exact Or.inr ⟨rfl, rfl, rfl⟩
    · cases h
      exact Or.inl ⟨rfl, rfl, rfl⟩

theorem Wf.down (h : s.Wf) (hp : s.waiter p = none) : (s.down p).2.Wf := by
  rcases down_cases s p with ⟨hc, hd⟩ | ⟨hc, hd⟩
  · rw [hd]
    exact ⟨h.nodup, h.waits, fun _ => h.empty hc⟩
  · rw [hd]
    have hnot : p ∉ s.waitList := by
      intro hm
      rw [(h.waits p).mp hm] at hp
      cases hp
    refine ⟨?_, fun q => ?_, fun h0 => ?_⟩
    · exact h.nodup.append (nodup_singleton p) (disjoint_singleton.mpr hnot)
    · dsimp only
      rw [mem_append, mem_singleton, update_apply]
      split
      · next hq => exact ⟨fun _ => rfl, fun _ => Or.inr hq⟩
      · next hq => exact ⟨fun hm => (h.waits q).mp (hm.resolve_right hq), fun hm => Or.inl ((h.waits q).mpr hm)⟩
    · dsimp only at h0
      rw [hc] at h0
      exact absurd h0 (BitVec.lt_irrefl _)

theorem Wf.up (h : s.Wf) : s.up.2.Wf := by
  rcases up_cases s with ⟨hw, hu⟩ | ⟨p, ps, hw, hu⟩
  · rw [hu]
    exact ⟨h.nodup, h.waits, fun _ => hw⟩
  · rw [hu]
    have hnd := h.nodup
    rw [hw, nodup_cons] at hnd
    refine ⟨hnd.2, fun q => ?_, fun hc => ?_⟩
    · dsimp only
      rw [update_apply]
      split
      · next hq =>
        subst hq
        exact ⟨fun hm => absurd hm hnd.1, fun he => by cases he⟩
      · next hq =>
        rw [← h.waits q, hw, mem_cons]
        exact ⟨Or.inr, fun hm => hm.resolve_left hq⟩
    · have hnil := h.empty hc
      rw [hw] at hnil
      cases hnil

theorem Wf.resume (h : s.Wf) (hr : s.resume p = some (r, t)) : t.Wf := by
  rcases resume_cases hr with ⟨hp, -, rfl⟩ | ⟨-, -, rfl⟩
  · refine ⟨h.nodup, fun q => ?_, h.empty⟩
    dsimp only
    rw [update_apply]
    split
    · next hq =>
      subst hq
      refine ⟨fun hm => ?_, fun he => by cases he⟩
      rw [(h.waits _).mp hm] at hp
      cases hp
    · exact h.waits q
  · exact h

/-- The processes that are in `down_common` are those at a place. -/
def Waits {κ : Type} (s : Sem Proc) (place : Proc → κ) (x : κ) : Prop := ∀ p, s.waiter p = none ↔ place p ≠ x

section

variable {κ : Type} {place : Proc → κ} {x y : κ}

section

variable (h : Waits s place x)
include h

theorem Waits.move (hp : place p ≠ x) (hy : y ≠ x) : Waits s (update place p y) x := by
  intro q
  rw [h q, update_apply]
  split
  · next hq => exact ⟨fun _ => hy, fun _ => hq ▸ hp⟩
  · rfl

theorem Waits.down (hp : place p ≠ x) (hy : y ≠ x) :
    Waits (s.down p).2 (update place p (if (s.down p).1 then y else x)) x := by
  rcases down_cases s p with ⟨-, hd⟩ | ⟨-, hd⟩
  · rw [hd, if_pos rfl]
    exact h.move hp hy
  · rw [hd, if_neg Bool.false_ne_true]
    intro q
    dsimp only
    rw [update_apply, update_apply]
    split
    · exact iff_of_false (some_ne_none _) fun hn => hn rfl
    · exact h q

theorem Waits.resume (hp : place p = x) (hy : y ≠ x) (hr : s.resume p = some (r, t)) :
    Waits t (update place p (if r then y else x)) x := by
  rcases resume_cases hr with ⟨-, rfl, rfl⟩ | ⟨-, rfl, rfl⟩
  · rw [if_pos rfl]
    intro q
    dsimp only
    rw [update_apply, update_apply]
    split
    · exact ⟨fun _ => hy, fun _ => rfl⟩
    · exact h q
  · rw [if_neg Bool.false_ne_true, ← hp, update_eq_self]
    rw [hp]
    exact h

theorem Waits.up (hwf : s.Wf) : Waits s.up.2 place x := by
  rcases up_cases s with ⟨-, hu⟩ | ⟨p, ps, hw, hu⟩
  · rw [hu]
    exact h
  · have hp : s.waiter p = some false := (hwf.waits p).mp (by rw [hw]; exact mem_cons_self)
    rw [hu]
    intro q
    dsimp only
    rw [update_apply, ← h q]
    split
    · next hq =>
      rw [hq, hp]
      exact iff_of_false (some_ne_none _) (some_ne_none _)
    · rfl

end

end

variable [Fintype Proc]

def marked (s : Sem Proc) : Nat := tally (· = some true) s.waiter

/-- How many calls of `down` may return before the next `up`. -/
def tokens (s : Sem Proc) : Nat := s.count.toNat + s.marked

omit [DecidableEq Proc] in
theorem tokens_init (count : Word) : (init count : Sem Proc).tokens = count.toNat := by
  have hzero : (init count : Sem Proc).marked = 0 := tally_eq_zero fun _ h => by cases h
  rw [tokens, hzero]
  rfl

theorem tokens_down (hp : s.waiter p = none) :
    (s.down p).2.tokens + (if (s.down p).1 then 1 else 0) = s.tokens := by
  rcases down_cases s p with ⟨hc, hd⟩ | ⟨hc, hd⟩
  · rw [hd]
    have hpos : 0 < s.count.toNat := hc
    have hsub : (s.count - 1).toNat = s.count.toNat - 1 := by bv_omega
    change (s.count - 1).toNat + s.marked + 1 = s.count.toNat + s.marked
    omega
  · rw [hd]
    have hm := tally_update (P := (· = some true)) s.waiter p (some false)
    rw [hp] at hm
    exact congrArg (s.count.toNat + ·) hm

theorem tokens_up (h : s.Wf) : s.up.2.tokens % 2 ^ 32 = (s.tokens + 1) % 2 ^ 32 ∧
    ((s.waitList = [] → s.count.toNat + 1 < 2 ^ 32) → s.up.2.tokens = s.tokens + 1) := by
  rcases up_cases s with ⟨hw, hu⟩ | ⟨p, ps, hw, hu⟩
  · rw [hu]
    have hadd : (s.count + 1).toNat = (s.count.toNat + 1) % 2 ^ 32 := toNat_add _ _
    change ((s.count + 1).toNat + s.marked) % 2 ^ 32 = (s.count.toNat + s.marked + 1) % 2 ^ 32 ∧
      (_ → (s.count + 1).toNat + s.marked = s.count.toNat + s.marked + 1)
    rw [hadd]
    refine ⟨by omega, fun hlt => ?_⟩
    rw [Nat.mod_eq_of_lt (hlt hw)]
    omega
  · rw [hu]
    have hp : s.waiter p = some false := (h.waits p).mp (by rw [hw]; exact mem_cons_self)
    have hm := tally_update (P := (· = some true)) s.waiter p (some true)
    rw [hp] at hm
    have ht : s.count.toNat + tally (· = some true) (update s.waiter p (some true)) = s.tokens + 1 :=
      congrArg (s.count.toNat + ·) hm
    exact ⟨congrArg (· % 2 ^ 32) ht, fun _ => ht⟩

theorem tokens_resume (h : s.resume p = some (r, t)) : t.tokens + (if r then 1 else 0) = s.tokens := by
  rcases resume_cases h with ⟨hp, rfl, rfl⟩ | ⟨-, rfl, rfl⟩
  · have hm := tally_update (P := (· = some true)) s.waiter p none
    rw [hp] at hm
    exact congrArg (s.count.toNat + ·) hm
  · rfl

end

end Sem

/-- A semaphore and its processes. The lists are the waiters in the order in which they came, were marked and
returned; `downs` counts the calls that have returned. -/
structure SemSys (Proc : Type) where
  sem : Sem Proc
  state : Proc → ProcState
  ups : Nat
  downs : Nat
  enqueued : List Proc
  handed : List Proc
  returned : List Proc

/-- The critical sections of `m_lock`, and a wake-up for any other reason. -/
inductive SemAct (Proc : Type) where
  | down (p : Proc)
  | up
  | wake (p : Proc)
  | resume (p : Proc)

namespace SemSys

variable {Proc : Type} [DecidableEq Proc]

def init (count : Word) : SemSys Proc := ⟨.init count, fun _ => .running, 0, 0, [], [], []⟩

def down (s : SemSys Proc) (p : Proc) : SemSys Proc :=
  if (s.sem.down p).1 then { s with sem := (s.sem.down p).2, downs := s.downs + 1 }
  else { s with
    sem := (s.sem.down p).2
    state := update s.state p .sleep
    enqueued := s.enqueued ++ [p] }

def up (s : SemSys Proc) : SemSys Proc :=
  match s.sem.up with
  | (none, t) => { s with sem := t, ups := s.ups + 1 }
  | (some p, t) => { s with
    sem := t
    state := update s.state p .running
    ups := s.ups + 1
    handed := s.handed ++ [p] }

/-- A process calls `down` when it is in no other call; it goes on after `schedule` when it has been woken up. -/
def step (s : SemSys Proc) : SemAct Proc → Option (SemSys Proc)
  | .down p => if s.state p = .running ∧ s.sem.waiter p = none then some (s.down p) else none
  | .up => some s.up
  | .wake p => some { s with state := update s.state p .running }
  | .resume p =>
    if s.state p = .running then
      match s.sem.resume p with
      | none => none
      | some (true, t) => some { s with sem := t, downs := s.downs + 1, returned := s.returned ++ [p] }
      | some (false, t) => some { s with sem := t, state := update s.state p .sleep }
    else none

/-- What an `up` must not meet for the count to be exact. -/
def NoWrap (s : SemSys Proc) : SemAct Proc → Prop
  | .up => s.sem.waitList = [] → s.sem.count.toNat + 1 < 2 ^ 32
  | _ => True

variable [Fintype Proc]

structure Correct (count : Word) (s : SemSys Proc) : Prop where
  empty : 0 < s.sem.count → s.sem.waitList = []
  balance : (s.sem.count.toNat + s.downs + s.sem.marked) % 2 ^ 32 = (count.toNat + s.ups) % 2 ^ 32
  fifo : s.enqueued = s.handed ++ s.sem.waitList
  once : ∀ p, s.handed.count p = s.returned.count p + if s.sem.waiter p = some true then 1 else 0
  notLeft : ∀ p ∈ s.sem.waitList, s.sem.waiter p = some false
  awake : ∀ p, s.sem.waiter p = some true → s.state p = .running

def Exact (count : Word) (s : SemSys Proc) : Prop := s.sem.count.toNat + s.downs + s.sem.marked = count.toNat + s.ups

section

variable {s t : SemSys Proc} {p : Proc} {count : Word} {a : SemAct Proc}

omit [Fintype Proc] in
theorem step_cases (h : s.step a = some t) :
    (∃ p, a = .down p ∧ s.sem.waiter p = none ∧ (s.sem.down p).1 = true ∧
        t = { s with sem := (s.sem.down p).2, downs := s.downs + 1 }) ∨
      (∃ p, a = .down p ∧ s.sem.waiter p = none ∧ (s.sem.down p).1 = false ∧
        t = { s with
          sem := (s.sem.down p).2
          state := update s.state p .sleep
          enqueued := s.enqueued ++ [p] }) ∨
      (a = .up ∧ s.sem.waitList = [] ∧ t = { s with sem := s.sem.up.2, ups := s.ups + 1 }) ∨
      (∃ p, a = .up ∧ s.sem.up.1 = some p ∧
        t = { s with
          sem := s.sem.up.2
          state := update s.state p .running
          ups := s.ups + 1
          handed := s.handed ++ [p] }) ∨
      (∃ p, a = .wake p ∧ t = { s with state := update s.state p .running }) ∨
      (∃ p u, a = .resume p ∧ s.sem.resume p = some (true, u) ∧
        t = { s with sem := u, downs := s.downs + 1, returned := s.returned ++ [p] }) ∨
      (∃ p u, a = .resume p ∧ s.sem.resume p = some (false, u) ∧
        t = { s with sem := u, state := update s.state p .sleep }) := by
  cases a with
  | down p =>
    rw [step] at h
    split at h
    · next hg =>
      cases h
      unfold down
      cases hd : (s.sem.down p).1 with
      | true => exact Or.inl ⟨p, rfl, hg.2, hd, if_pos rfl⟩
      | false => exact Or.inr (Or.inl ⟨p, rfl, hg.2, hd, if_neg Bool.false_ne_true⟩)
    · cases h
  | up =>
    cases h
    unfold up
    rcases Sem.up_cases s.sem with ⟨hw, hu⟩ | ⟨p, ps, hw, hu⟩
    · rw [hu]
      exact Or.inr (Or.inr (Or.inl ⟨rfl, hw, rfl⟩))
    · rw [hu]
      exact Or.inr (Or.inr (Or.inr (Or.inl ⟨p, rfl, rfl, rfl⟩)))
  | wake p =>
    cases h
    exact Or.inr (Or.inr (Or.inr (Or.inr (Or.inl ⟨p, rfl, rfl⟩))))
  | resume p =>
    rw [step] at h
    split at h
    · cases hr : s.sem.resume p with
      | none =>
        rw [hr] at h
        cases h
      | some x =>
        obtain ⟨b, u⟩ := x
        rw [hr] at h
        cases b
        · cases h
          exact Or.inr (Or.inr (Or.inr (Or.inr (Or.inr (Or.inr ⟨p, u, rfl, hr, rfl⟩)))))
        · cases h
          exact Or.inr (Or.inr (Or.inr (Or.inr (Or.inr (Or.inl ⟨p, u, rfl, hr, rfl⟩)))))
    · cases h

structure Inv (count : Word) (s : SemSys Proc) : Prop where
  wf : s.sem.Wf
  balance : (s.sem.tokens + s.downs) % 2 ^ 32 = (count.toNat + s.ups) % 2 ^ 32
  fifo : s.enqueued = s.handed ++ s.sem.waitList
  once : ∀ p, s.handed.count p = s.returned.count p + if s.sem.waiter p = some true then 1 else 0
  awake : ∀ p, s.sem.waiter p = some true → s.state p = .running

theorem inv_init (count : Word) : Inv count (init count : SemSys Proc) := by
  refine ⟨Sem.wf_init count, ?_, rfl, fun _ => rfl, fun _ h => by cases h⟩
  change ((Sem.init count : Sem Proc).tokens + 0) % 2 ^ 32 = (count.toNat + 0) % 2 ^ 32
  rw [Sem.tokens_init]

section

variable (h : Inv count s)
include h

theorem Inv.correct : Correct count s := by
  refine ⟨h.wf.empty, ?_, h.fifo, h.once, fun p hp => (h.wf.waits p).mp hp, h.awake⟩
  rw [← h.balance, Sem.tokens, Nat.add_right_comm]

theorem Inv.downAtOnce (hp : s.sem.waiter p = none) (hd : (s.sem.down p).1 = true) :
    Inv count { s with sem := (s.sem.down p).2, downs := s.downs + 1 } := by
  have ht := Sem.tokens_down hp
  rcases Sem.down_cases s.sem p with ⟨hc, heq⟩ | ⟨-, heq⟩
  · refine ⟨h.wf.down hp, ?_, ?_, ?_, ?_⟩
    · have hb := h.balance
      rw [hd, if_pos rfl] at ht
      dsimp only
      omega
    · rw [heq]
      exact h.fifo
    · rw [heq]
      exact h.once
    · rw [heq]
      exact h.awake
  · rw [heq] at hd
    cases hd

theorem Inv.downAsleep (hp : s.sem.waiter p = none) (hd : (s.sem.down p).1 = false) : Inv count { s with
      sem := (s.sem.down p).2
      state := update s.state p .sleep
      enqueued := s.enqueued ++ [p] } := by
  have ht := Sem.tokens_down hp
  rcases Sem.down_cases s.sem p with ⟨-, heq⟩ | ⟨hc, heq⟩
  · rw [heq] at hd
    cases hd
  · refine ⟨h.wf.down hp, ?_, ?_, fun q => ?_, fun q hq => ?_⟩
    · have hb := h.balance
      rw [hd, if_neg Bool.false_ne_true] at ht
      dsimp only
      omega
    · rw [heq]
      rw [h.fifo, List.append_assoc]
    · have hmark : (update s.sem.waiter p (some false) q = some true) = (s.sem.waiter q = some true) := by
        by_cases hqp : q = p
        · simp [hqp, hp]
        · rw [update_of_ne hqp]
      rw [heq]
      simp only [hmark]
      exact h.once q
    · rw [heq] at hq
      dsimp only at hq ⊢
      rw [update_apply] at hq ⊢
      split at hq
      · cases hq
      · next hqp => rw [if_neg hqp]; exact h.awake q hq

theorem Inv.upNobody (hw : s.sem.waitList = []) : Inv count { s with sem := s.sem.up.2, ups := s.ups + 1 } := by
  have ht := (Sem.tokens_up h.wf).1
  rcases Sem.up_cases s.sem with ⟨-, heq⟩ | ⟨q, qs, hq, -⟩
  · refine ⟨h.wf.up, ?_, ?_, ?_, ?_⟩
    · have hb := h.balance
      dsimp only
      omega
    · rw [heq]
      exact h.fifo
    · rw [heq]
      exact h.once
    · rw [heq]
      exact h.awake
  · rw [hw] at hq
    cases hq

theorem Inv.upFirst (hu : s.sem.up.1 = some p) : Inv count { s with
      sem := s.sem.up.2
      state := update s.state p .running
      ups := s.ups + 1
      handed := s.handed ++ [p] } := by
  have ht := (Sem.tokens_up h.wf).1
  rcases Sem.up_cases s.sem with ⟨-, heq⟩ | ⟨q, qs, hq, heq⟩
  · rw [heq] at hu
    cases hu
  · rw [heq] at hu
    cases hu
    have hp : s.sem.waiter p = some false := (h.wf.waits p).mp (by rw [hq]; exact mem_cons_self)
    refine ⟨h.wf.up, ?_, ?_, fun r => ?_, fun r hr => ?_⟩
    · have hb := h.balance
      dsimp only
      omega
    · rw [heq]
      dsimp only
      rw [h.fifo, hq, List.append_assoc]
      rfl
    · have ho := h.once r
      rw [heq]
      dsimp only
      rw [count_append]
      by_cases hr : r = p
      · subst hr
        simp only [update_self, if_true, count_singleton_self]
        rw [ho, hp, if_neg (by decide)]
      · simp only [update_of_ne hr]
        rw [ho, count_eq_zero_of_not_mem (fun hm => hr (mem_singleton.mp hm)), Nat.add_zero]
    · rw [heq] at hr
      dsimp only at hr ⊢
      rw [update_apply] at hr ⊢
      split
      · rfl
      · next hrp =>
        rw [if_neg hrp] at hr
        exact h.awake r hr

theorem Inv.resumeUp {u : Sem Proc} (hr : s.sem.resume p = some (true, u)) :
    Inv count { s with sem := u, downs := s.downs + 1, returned := s.returned ++ [p] } := by
  have ht := Sem.tokens_resume hr
  have hwf := h.wf.resume hr
  rcases Sem.resume_cases hr with ⟨hp, -, rfl⟩ | ⟨-, hf, -⟩
  · refine ⟨hwf, ?_, h.fifo, fun q => ?_, fun q hq => ?_⟩
    · have hb := h.balance
      rw [if_pos rfl] at ht
      dsimp only
      omega
    · have ho := h.once q
      rw [count_append]
      by_cases hqp : q = p
      · subst hqp
        simp only [update_self, count_singleton_self]
        rw [ho, hp, if_pos rfl, if_neg (by decide)]
      · simp only [update_of_ne hqp]
        rw [ho, count_eq_zero_of_not_mem (fun hm => hqp (mem_singleton.mp hm)), Nat.add_zero]
    · dsimp only at hq
      rw [update_apply] at hq
      split at hq
      · cases hq
      · exact h.awake q hq
  · cases hf

theorem Inv.resumeAsleep {u : Sem Proc} (hr : s.sem.resume p = some (false, u)) :
    Inv count { s with sem := u, state := update s.state p .sleep } := by
  rcases Sem.resume_cases hr with ⟨-, hf, -⟩ | ⟨hp, -, rfl⟩
  · cases hf
  · refine ⟨h.wf, h.balance, h.fifo, h.once, fun q hq => ?_⟩
    dsimp only at hq ⊢
    rw [update_apply]
    split
    · next hqp =>
      subst hqp
      rw [hp] at hq
      cases hq
    · exact h.awake q hq

theorem Inv.step (hs : s.step a = some t) : Inv count t := by
  rcases step_cases hs with ⟨p, -, hp, hd, rfl⟩ | ⟨p, -, hp, hd, rfl⟩ | ⟨-, hw, rfl⟩ | ⟨p, -, hu, rfl⟩ | ⟨p, -, rfl⟩ |
    ⟨p, u, -, hr, rfl⟩ | ⟨p, u, -, hr, rfl⟩
  · exact h.downAtOnce hp hd
  · exact h.downAsleep hp hd
  · exact h.upNobody hw
  · exact h.upFirst hu
  · refine ⟨h.wf, h.balance, h.fifo, h.once, fun q hq => ?_⟩
    dsimp only
    rw [update_apply]
    split
    · rfl
    · exact h.awake q hq
  · exact h.resumeUp hr
  · exact h.resumeAsleep hr

theorem Inv.exact_step (he : s.sem.tokens + s.downs = count.toNat + s.ups) (hn : s.NoWrap a)
    (hs : s.step a = some t) : t.sem.tokens + t.downs = count.toNat + t.ups := by
  rcases step_cases hs with ⟨p, -, hp, hd, rfl⟩ | ⟨p, -, hp, hd, rfl⟩ | ⟨rfl, -, rfl⟩ | ⟨p, rfl, -, rfl⟩ | ⟨p, -, rfl⟩ |
    ⟨p, u, -, hr, rfl⟩ | ⟨p, u, -, hr, rfl⟩
  · have ht := Sem.tokens_down hp
    rw [hd, if_pos rfl] at ht
    dsimp only
    omega
  · have ht := Sem.tokens_down hp
    rw [hd, if_neg Bool.false_ne_true] at ht
    dsimp only
    omega
  · have ht := (Sem.tokens_up h.wf).2 hn
    dsimp only
    omega
  · have ht := (Sem.tokens_up h.wf).2 hn
    dsimp only
    omega
  · exact he
  · have ht := Sem.tokens_resume hr
    rw [if_pos rfl] at ht
    dsimp only
    omega
  · have ht := Sem.tokens_resume hr
    rw [if_neg Bool.false_ne_true] at ht
    dsimp only
    omega

end

/-- However a semaphore is used: a positive count means that nobody waits, the waiters are marked in the order
in which they came, each returns once, and the count balances, exactly so long as it does not wrap. -/
theorem run_correct {as : List (SemAct Proc)} (h : run step (init count) as = some s) :
    Correct count s ∧ (Along step NoWrap (init count) as → Exact count s) := by
  have hinv : Inv count s :=
    run_invariant (fun _ _ _ hi _ hs => Inv.step hi hs) (inv_init count) (along_true _ as) h
  refine ⟨hinv.correct, fun hn => ?_⟩
  have hexact : Inv count s ∧ s.sem.tokens + s.downs = count.toNat + s.ups := by
    refine run_invariant (I := fun s => Inv count s ∧ s.sem.tokens + s.downs = count.toNat + s.ups)
      (fun _ _ _ hi hn hs => ⟨hi.1.step hs, hi.1.exact_step hi.2 hn hs⟩) ⟨inv_init count, ?_⟩ hn h
    exact congrArg (· + 0) (Sem.tokens_init count)
  have hsum := hexact.2
  unfold Exact
  rw [Sem.tokens] at hsum
  omega

def twoWaiters : List (SemAct Bool) := [.down false, .down true, .up, .wake true, .up, .resume true]

theorem run_correct_two : ∃ s : SemSys Bool, run step (init 0) twoWaiters = some s ∧ Correct 0 s ∧ Exact 0 s := by
  obtain ⟨s, hs⟩ : ∃ s : SemSys Bool, run step (init 0) twoWaiters = some s := ⟨_, rfl⟩
  have hn : Along step NoWrap (init 0) twoWaiters :=
    along_cons trivial rfl (along_cons trivial rfl (along_cons (fun h => by cases h) rfl (along_cons trivial rfl
      (along_cons (fun h => by cases h) rfl (along_cons trivial rfl trivial)))))
  obtain ⟨hc, he⟩ := run_correct hs
  exact ⟨s, hs, hc, he hn⟩

/-- The waiter that came second can return first, and a count of `2 ^ 32 - 1` wraps to 0. -/
theorem waiters_out_of_order : (∃ s : SemSys Bool, run step (init 0) twoWaiters = some s ∧
      s.enqueued = [false, true] ∧ s.returned = [true]) ∧
    ∃ s : SemSys Bool, run step (init 0xffffffff#32) [.up] = some s ∧ s.sem.count = 0 ∧ ¬Exact 0xffffffff#32 s := by
  refine ⟨⟨_, rfl, rfl, rfl⟩, _, rfl, rfl, ?_⟩
  unfold Exact
  decide

end

end SemSys

end BabyOS
