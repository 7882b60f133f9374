import Mathlib.Order.Defs.Unbundled

namespace BabyOS

/-- A sequential program over a state, which returns a result or stops for a reason. -/
abbrev Prog (ε σ α : Type) := StateT σ (Except ε) α

section

variable {ε σ α β : Type} {E E' : ε → Prop} {m : Prog ε σ α} {Q R : α → σ → Prop} {s t : σ} {a : α}

/-- Run in `s`, the program returns a result and a state that meet `Q`, or stops for a reason in `E`: total
correctness where no reason is in `E`. -/
def Ends (E : ε → Prop) (m : Prog ε σ α) (Q : α → σ → Prop) (s : σ) : Prop :=
  match m s with
  | .ok (a, t) => Q a t
  | .error e => E e

theorem ends_of_ok (h : m s = .ok (a, t)) : Ends E m Q s ↔ Q a t := by
  rw [Ends, h]

variable {e : ε} {f : α → Prog ε σ β}

theorem ends_of_error (h : m s = .error e) : Ends E m Q s ↔ E e := by
  rw [Ends, h]

theorem Ends.of_ok (h : Ends E m Q s) (hm : m s = .ok (a, t)) : Q a t := (ends_of_ok hm).mp h

theorem ends_congr {m' : Prog ε σ α} (h : m s = m' t) : Ends E m Q s ↔ Ends E m' Q t := by
  unfold Ends
  rw [h]

@[simp]
theorem ends_pure : Ends E (pure a : Prog ε σ α) Q s ↔ Q a s := Iff.rfl

@[simp]
theorem ends_throw {e : ε} : Ends E (throw e : Prog ε σ α) Q s ↔ E e := Iff.rfl

@[simp]
theorem ends_get {Q : σ → σ → Prop} : Ends E (get : Prog ε σ σ) Q s ↔ Q s s := Iff.rfl

@[simp]
theorem ends_modify {f : σ → σ} {Q : Unit → σ → Prop} :
    Ends E (modify f : Prog ε σ Unit) Q s ↔ Q () (f s) := Iff.rfl

theorem bind_ok (h : m s = .ok (a, t)) : (m >>= f) s = f a t := by
  show Except.bind (m s) (fun p => f p.1 p.2) = _
  rw [h]
  rfl

theorem bind_error (h : m s = .error e) : (m >>= f) s = .error e := by
  show Except.bind (m s) (fun p => f p.1 p.2) = _
  rw [h]
  rfl

theorem bind_eq_ok {r : β × σ} : (m >>= f) s = .ok r ↔ ∃ a t, m s = .ok (a, t) ∧ f a t = .ok r := by
  cases h : m s with
  | ok p =>
    rw [bind_ok (a := p.1) (t := p.2) h]
    constructor
    · intro hf
      exact ⟨p.1, p.2, rfl, hf⟩
    · rintro ⟨a, t, hp, hf⟩
      cases hp
      exact hf
  | error e =>
    rw [bind_error h]
    constructor
    · intro hf
      cases hf
    · rintro ⟨a, t, hp, _⟩
      cases hp

theorem pure_eq_ok {b : α} : (pure a : Prog ε σ α) s = .ok (b, t) ↔ b = a ∧ t = s := by
  constructor
  · intro h
    cases h
    exact ⟨rfl, rfl⟩
  · rintro ⟨rfl, rfl⟩
    rfl

theorem discard_eq_ok {u : Unit} : discard m s = .ok (u, t) ↔ ∃ a, m s = .ok (a, t) := by
  have hd : discard m = (m >>= fun _ => pure ()) := rfl
  rw [hd, bind_eq_ok]
  constructor
  · rintro ⟨a, t', hm, hp⟩
    obtain ⟨-, rfl⟩ := pure_eq_ok.mp hp
    exact ⟨a, hm⟩
  · rintro ⟨a, hm⟩
    exact ⟨a, t, hm, rfl⟩

@[simp]
theorem ends_bind {Q : β → σ → Prop} : Ends E (m >>= f) Q s ↔ Ends E m (fun a t => Ends E (f a) Q t) s := by
  cases h : m s with
  | ok p =>
    rw [ends_of_ok (a := p.1) (t := p.2) h, Ends, bind_ok (a := p.1) (t := p.2) h]
    rfl
  | error e =>
    rw [ends_of_error h, ends_of_error (bind_error h)]

theorem ends_discard {Q : Unit → σ → Prop} : Ends E (discard m) Q s ↔ Ends E m (fun _ t => Q () t) s := by
  cases h : m s with
  | ok p =>
    have hd : discard m s = .ok ((), p.2) := by
      show Except.bind (m s) (fun p => Except.ok ((), p.2)) = _
      rw [h]
      rfl
    rw [ends_of_ok (a := p.1) (t := p.2) h, ends_of_ok hd]
  | error e =>
    have hd : discard m s = .error e := by
      show Except.bind (m s) (fun p => Except.ok ((), p.2)) = _
      rw [h]
      rfl
    rw [ends_of_error h, ends_of_error hd]

theorem Ends.mono (h : Ends E m Q s) (hE : ∀ e, E e → E' e) (hQ : ∀ a t, Q a t → R a t) : Ends E' m R s := by
  cases hm : m s with
  | ok p => exact (ends_of_ok hm).mpr (hQ _ _ (h.of_ok hm))
  | error e => exact (ends_of_error hm).mpr (hE e ((ends_of_error hm).mp h))

theorem Ends.imp (h : Ends E m Q s) (hQ : ∀ a t, Q a t → R a t) : Ends E m R s :=
  h.mono (fun _ he => he) hQ

theorem Ends.and {E₁ E₂ : ε → Prop} (h : Ends E₁ m Q s) (h' : Ends E₂ m R s) :
    Ends (fun e => E₁ e ∧ E₂ e) m (fun a t => Q a t ∧ R a t) s := by
  cases hm : m s with
  | ok p => exact (ends_of_ok hm).mpr ⟨h.of_ok hm, h'.of_ok hm⟩
  | error e => exact (ends_of_error hm).mpr ⟨(ends_of_error hm).mp h, (ends_of_error hm).mp h'⟩

theorem Ends.returns (h : Ends (fun _ => False) m Q s) : ∃ a t, m s = .ok (a, t) ∧ Q a t := by
  cases hm : m s with
  | ok p => exact ⟨p.1, p.2, rfl, h.of_ok hm⟩
  | error e => exact absurd ((ends_of_error hm).mp h) id

theorem Ends.iff {c : Prop} (h : Ends (fun _ => False) m Q s) (hR : ∀ a t, Q a t → (R a t ↔ c)) :
    Ends (fun _ => False) m R s ↔ c := by
  obtain ⟨a, t, hm, hQ⟩ := h.returns
  rw [ends_of_ok hm]
  exact hR a t hQ

/-- Wherever the program starts and returns, the two states stand in a relation. -/
def Keeps (E : ε → Prop) (r : σ → σ → Prop) (m : Prog ε σ α) : Prop := ∀ s, Ends E m (fun _ t => r s t) s

section

variable {r r' : σ → σ → Prop}

theorem Keeps.throw {e : ε} (he : E e) : Keeps E r (throw e : Prog ε σ α) := fun _ => he

theorem Keeps.modify {f : σ → σ} (h : ∀ s, r s (f s)) : Keeps E r (modify f : Prog ε σ Unit) := h

variable [IsPreorder σ r]

theorem Keeps.pure (a : α) : Keeps E r (pure a : Prog ε σ α) := fun s => refl_of r s

theorem Keeps.get : Keeps E r (get : Prog ε σ σ) := fun s => refl_of r s

theorem Keeps.bind {f : α → Prog ε σ β} (hm : Keeps E r m) (hf : ∀ a, Keeps E r (f a)) : Keeps E r (m >>= f) := by
  intro s
  rw [ends_bind]
  exact (hm s).imp fun a t hst => (hf a t).imp fun _ u htu => trans_of r hst htu

end

end

end BabyOS
