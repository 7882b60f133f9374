import BabyOS.Runs
import Mathlib.Data.List.Nodup

open Function List

namespace BabyOS

/-- Where a CPU stands in `fork`: `get_next_pid` has read the counter, has incremented it, or has returned. -/
inductive PidPlace where
  | outside
  | read (pid : BitVec 32)
  | counted (pid : BitVec 32)
  | chosen (pid : BitVec 32)
  deriving DecidableEq

structure PidSys (Cpu : Type) where
  nextPid : BitVec 32
  procList : List (BitVec 32)
  place : Cpu → PidPlace

/-- `go` is the next step of a CPU, and `release` takes an exited process off the list. -/
inductive PidAct (Cpu : Type) where
  | go (c : Cpu)
  | release (k : Nat)

namespace PidSys

variable {Cpu : Type} [DecidableEq Cpu]

def start (Cpu : Type) : PidSys Cpu := ⟨1, [], fun _ => .outside⟩

def go (s : PidSys Cpu) (c : Cpu) : PidPlace → PidSys Cpu
  | .outside => { s with place := update s.place c (.read s.nextPid) }
  | .read pid => { s with nextPid := s.nextPid + 1, place := update s.place c (.counted pid) }
  | .counted pid => { s with place := update s.place c (if pid ∈ s.procList then .outside else .chosen pid) }
  | .chosen pid => { s with procList := s.procList ++ [pid], place := update s.place c .outside }

def step (s : PidSys Cpu) : PidAct Cpu → Option (PidSys Cpu)
  | .go c => some (s.go c (s.place c))
  | .release k => some { s with procList := s.procList.eraseIdx k }

/-- A CPU reads the counter only while no other is between its read and its entry in the list, and the counter is
not 0. -/
def Careful (s : PidSys Cpu) : PidAct Cpu → Prop
  | .go c => s.place c = .outside → s.nextPid ≠ 0 ∧ ∀ d, s.place d = .outside
  | .release _ => True

def Fresh (l : List (BitVec 32)) : PidPlace → Prop
  | .outside => True
  | .read pid => pid ≠ 0
  | .counted pid => pid ≠ 0
  | .chosen pid => pid ≠ 0 ∧ pid ∉ l

structure Inv (l : List (BitVec 32)) (place : Cpu → PidPlace) : Prop where
  nodup : l.Nodup
  nonzero : 0 ∉ l
  fresh : ∀ c, Fresh l (place c)
  single : ∀ c d, place c ≠ .outside → place d ≠ .outside → c = d

variable {s s' : PidSys Cpu} {a : PidAct Cpu} {as : List (PidAct Cpu)} {c : Cpu} {l l' : List (BitVec 32)}
  {f : Cpu → PidPlace} {x : PidPlace} {pid : BitVec 32}

theorem Fresh.sublist (h : Fresh l x) (hl : l' <+ l) : Fresh l' x := by
  cases x with
  | chosen pid => exact ⟨h.1, fun hm => h.2 (hl.subset hm)⟩
  | _ => exact h

theorem Inv.move (h : Inv l f) (hx : Fresh l x) (hd : ∀ d, d ≠ c → f d = .outside) : Inv l (update f c x) := by
  have hother : ∀ d, update f c x d ≠ .outside → d = c := by
    intro d hne
    by_contra hdc
    exact hne ((update_of_ne hdc x f).trans (hd d hdc))
  refine ⟨h.nodup, h.nonzero, fun d => ?_, fun d e hd' he => (hother d hd').trans (hother e he).symm⟩
  by_cases hdc : d = c
  · subst hdc
    rwa [update_self]
  · rw [update_of_ne hdc, hd d hdc]
    trivial

omit [DecidableEq Cpu] in
theorem Inv.append (h : Inv l f) (hf : ∀ c, f c = .outside) (h0 : pid ≠ 0) (hm : pid ∉ l) : Inv (l ++ [pid]) f := by
  refine ⟨h.nodup.append (nodup_singleton pid) (disjoint_singleton.mpr hm), ?_, fun c => ?_, h.single⟩
  · rw [mem_append, mem_singleton]
    exact fun hz => hz.elim h.nonzero fun hz => h0 hz.symm
  · rw [hf c]
    trivial

theorem Inv.step (h : Inv s.procList s.place) (hc : s.Careful a) (hs : s.step a = some s') :
    Inv s'.procList s'.place := by
  cases a with
  | release k =>
    cases hs
    have hsub := eraseIdx_sublist s.procList k
    exact ⟨h.nodup.sublist hsub, fun h0 => h.nonzero (hsub.subset h0), fun c => (h.fresh c).sublist hsub, h.single⟩
  | go c =>
    cases hs
    have hf := h.fresh c
    have hd : s.place c ≠ .outside → ∀ d, d ≠ c → s.place d = .outside := fun hne d hdc =>
      by_contra fun hd => hdc (h.single d c hd hne)
    cases hp : s.place c with
    | outside => exact h.move (hc hp).1 fun d _ => (hc hp).2 d
    | read pid =>
      rw [hp] at hf hd
      exact h.move hf (hd (by simp))
    | counted pid =>
      rw [hp] at hf hd
      refine h.move ?_ (hd (by simp))
      split
      next => trivial
      next hm => exact ⟨hf, hm⟩
    | chosen pid =>
      rw [hp] at hf hd
      refine (h.move (x := .outside) trivial (hd (by simp))).append (fun d => ?_) hf.1 hf.2
      by_cases hdc : d = c
      · rw [hdc, update_self]
      · rw [update_of_ne hdc, hd (by simp) d hdc]

theorem pids_unique (hc : Along step Careful (start Cpu) as) (hr : run step (start Cpu) as = some s) :
    s.procList.Nodup ∧ 0 ∉ s.procList := by
  have hstart : Inv (start Cpu).procList (start Cpu).place :=
    ⟨nodup_nil, not_mem_nil, fun _ => trivial, fun _ _ h => absurd rfl h⟩
  have h := run_invariant (I := fun s => Inv s.procList s.place) (fun _ _ _ h => h.step) hstart hc hr
  exact ⟨h.nodup, h.nonzero⟩

/-- Two CPUs fork in turn, the first process is released, and a third is forked. -/
def threeForks : List (PidAct Bool) :=
  replicate 4 (.go true) ++ replicate 4 (.go false) ++ [.release 0] ++ replicate 4 (.go true)

theorem pids_unique_three : ∃ s, run step (start Bool) threeForks = some s ∧ s.procList = [2, 3] ∧ s.procList.Nodup ∧
    0 ∉ s.procList := by
  have hlater : ∀ s : PidSys Bool, ∀ c, s.place c ≠ .outside → s.Careful (.go c) := fun _ _ hp h => absurd h hp
  have hcareful : Along step Careful (start Bool) threeForks := by
    refine along_cons (fun _ => ⟨by decide, by decide⟩) rfl (along_cons (hlater _ _ (by decide)) rfl
      (along_cons (hlater _ _ (by decide)) rfl (along_cons (hlater _ _ (by decide)) rfl ?_)))
    refine along_cons (fun _ => ⟨by decide, by decide⟩) rfl (along_cons (hlater _ _ (by decide)) rfl
      (along_cons (hlater _ _ (by decide)) rfl (along_cons (hlater _ _ (by decide)) rfl (along_cons trivial rfl ?_))))
    exact along_cons (fun _ => ⟨by decide, by decide⟩) rfl (along_cons (hlater _ _ (by decide)) rfl
      (along_cons (hlater _ _ (by decide)) rfl (along_cons (hlater _ _ (by decide)) rfl trivial)))
  exact ⟨_, rfl, rfl, pids_unique hcareful rfl⟩

/-- Two CPUs read the counter before one of them increments it. -/
theorem pids_shared : ∃ s, run step (start Bool) [.go true, .go false, .go true, .go false, .go true, .go false,
    .go true, .go false] = some s ∧ s.procList = [1, 1] := by
  exact ⟨_, rfl, rfl⟩

end PidSys

end BabyOS
