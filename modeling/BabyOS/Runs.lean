import Mathlib.Data.Option.Basic

namespace BabyOS

section

variable {σ α : Type} (step : σ → α → Option σ)

/-- The run of a sequence of actions; `none` when one of them cannot be taken. -/
def run : σ → List α → Option σ
  | s, [] => some s
  | s, a :: as => (step s a).bind fun s' => run s' as

/-- Every action of the run meets a condition on the state it is taken in. -/
def Along (P : σ → α → Prop) : σ → List α → Prop
  | _, [] => True
  | s, a :: as => P s a ∧ ∀ s', step s a = some s' → Along P s' as

variable {step}

variable {s s' t : σ} {a : α} {as : List α} {P : σ → α → Prop}

theorem run_cons (h : run step s (a :: as) = some s') : ∃ t, step s a = some t ∧ run step t as = some s' :=
  Option.bind_eq_some_iff.mp h

theorem run_nil (s : σ) : run step s [] = some s := rfl

theorem run_step {r : Option σ} (h : step s a = some t) (hr : run step t as = r) : run step s (a :: as) = r := by
  rw [run, h, Option.bind_some, hr]

theorem run_append {bs : List α} (h : run step s as = some t) : run step s (as ++ bs) = run step t bs := by
  induction as generalizing s with
  | nil =>
    cases Option.some.inj h
    rfl
  | cons a as ih =>
    obtain ⟨u, hu, hr⟩ := run_cons h
    rw [List.cons_append, run, hu, Option.bind_some, ih hr]

theorem along_cons (ha : P s a) (hs : step s a = some t) (ht : Along step P t as) : Along step P s (a :: as) := by
  refine ⟨ha, ?_⟩
  intro s' hs'
  cases hs.symm.trans hs'
  exact ht

theorem along_true (s : σ) (as : List α) : Along step (fun _ _ => True) s as := by
  induction as generalizing s with
  | nil => trivial
  | cons a as ih => exact ⟨trivial, fun s' _ => ih s'⟩

theorem run_invariant {I : σ → Prop} (hstep : ∀ s a s', I s → P s a → step s a = some s' → I s')
    (hs : I s) (ha : Along step P s as) (hr : run step s as = some s') : I s' := by
  induction as generalizing s with
  | nil =>
    cases Option.some.inj hr
    exact hs
  | cons a as ih =>
    obtain ⟨t, ht, hr'⟩ := run_cons hr
    exact ih (hstep s a t hs ha.1 ht) (ha.2 t ht) hr'

theorem along_iff {Q : σ → α → Prop} {I : σ → Prop}
    (hstep : ∀ s a s', I s → step s a = some s' → (P s a ↔ Q s a) ∧ (Q s a → I s'))
    (hs : I s) (hr : run step s as = some s') : Along step P s as ↔ Along step Q s as := by
  induction as generalizing s with
  | nil => exact Iff.rfl
  | cons a as ih =>
    obtain ⟨t, ht, hr'⟩ := run_cons hr
    obtain ⟨hpq, hi⟩ := hstep s a t hs ht
    constructor
    · intro h
      have hq := hpq.mp h.1
      exact along_cons hq ht ((ih (hi hq) hr').mp (h.2 t ht))
    · intro h
      exact along_cons (hpq.mpr h.1) ht ((ih (hi h.1) hr').mpr (h.2 t ht))

theorem run_take (h : run step s as = some t) (k : Nat) : ∃ u, run step s (as.take k) = some u := by
  induction as generalizing s k with
  | nil => exact ⟨s, by rw [List.take_nil]; rfl⟩
  | cons a as ih =>
    cases k with
    | zero => exact ⟨s, rfl⟩
    | succ k =>
      obtain ⟨v, hv, hr⟩ := run_cons h
      obtain ⟨u, hu⟩ := ih hr k
      exact ⟨u, run_step hv hu⟩

def Endless (step : σ → α → Option σ) (f : Nat → σ) (acts : Nat → α) : Prop :=
  ∀ n, step (f n) (acts n) = some (f (n + 1))

theorem exists_endless (h : run step s as = some s) (hpos : 0 < as.length) :
    ∃ (f : Nat → σ) (acts : Nat → α), Endless step f acts ∧
      ∀ n, run step s (as.take (n % as.length)) = some (f n) ∧ as[n % as.length]? = some (acts n) := by
  obtain ⟨f, hf⟩ := Classical.skolem.mp fun n : Nat => run_take h (n % as.length)
  have hact : ∀ n : Nat, ∃ a, as[n % as.length]? = some a :=
    fun n => ⟨_, List.getElem?_eq_getElem (Nat.mod_lt n hpos)⟩
  obtain ⟨acts, hacts⟩ := Classical.skolem.mp hact
  refine ⟨f, acts, fun n => ?_, fun n => ⟨hf n, hacts n⟩⟩
  -- one action further, and at the end of the list back at its beginning
  have hnext : run step s (as.take (n % as.length + 1)) = some (f (n + 1)) := by
    have hlt := Nat.mod_lt n hpos
    have hmod : (n + 1) % as.length = (n % as.length + 1) % as.length := by rw [Nat.mod_add_mod]
    rcases Nat.lt_or_ge (n % as.length + 1) as.length with hin | hout
    · rw [← hf (n + 1), hmod, Nat.mod_eq_of_lt hin]
    · have hall : n % as.length + 1 = as.length := by omega
      rw [← hf (n + 1), hmod, hall, Nat.mod_self, List.take_length, h]
      rfl
  rw [List.take_add_one, hacts n, run_append (hf n)] at hnext
  obtain ⟨u, hu, hr⟩ := run_cons hnext
  rw [hu, ← hr]
  rfl

end

section

variable {σ τ α β : Type}

def trace (step : σ → α → Option (σ × β)) : σ → List α → Option (List β)
  | _, [] => some []
  | s, a :: as => (step s a).bind fun r => (trace step r.1 as).map (r.2 :: ·)

theorem trace_eq {step : σ → α → Option (σ × β)} {step' : τ → α → Option (τ × β)} {R : σ → τ → Prop}
    (h : ∀ s t a, R s t → (step s a = none ∧ step' t a = none) ∨
      ∃ s' t' b, step s a = some (s', b) ∧ step' t a = some (t', b) ∧ R s' t')
    {s : σ} {t : τ} (hst : R s t) (as : List α) : trace step s as = trace step' t as := by
  induction as generalizing s t with
  | nil => rfl
  | cons a as ih =>
    rw [trace, trace]
    rcases h s t a hst with ⟨h1, h2⟩ | ⟨s', t', b, h1, h2, hr⟩
    · rw [h1, h2]
      rfl
    · rw [h1, h2, Option.bind_some, Option.bind_some, ih hr]

end

end BabyOS
