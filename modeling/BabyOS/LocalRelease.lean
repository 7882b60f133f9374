import BabyOS.LocalSocket

open Function List

namespace BabyOS

namespace LocalSys

variable {Proc : Type} [DecidableEq Proc]

/-- `p` comes back from `release` after so many steps; it has counted up the semaphore of each client in the
list once, and the `connect` of each fails and leaves its `m_ref`. -/
def LetsGo (s : LocalSys Proc) (p : Proc) (x : LocalIx) : Prop :=
  ∃ n t, run step (s.release p x) (replicate n (.go p)) = some t ∧ t.place p = .outside ∧
    ∀ c ∈ (s.tab x).connectingList, (t.tab c).waitAcceptSem = (s.tab c).waitAcceptSem + 1 ∧
      ∀ q, s.place q = .connectDown c x → ∃ u, t.go q = some u ∧ u.place q = .outside ∧ (u.tab c).ref = (s.tab c).ref

variable {s t : LocalSys Proc} {p : Proc} {x : LocalIx} {n : Nat}

theorem leave_connectingList (tab : LocalTable) : (tab.leave x x).connectingList = (tab x).connectingList := by
  unfold LocalTable.leave LocalTable.setState
  split
  · rfl
  · rw [update_self]

/-- The loop of `release` does not move its iterator, so it stays at the first client. -/
theorem releaseLoop_stays (old : SockState) (hl : (s.tab x).connectingList ≠ []) (hp : s.place p = .releaseLoop x old)
    (h : run step s (replicate n (.go p)) = some t) : t.place p = .releaseLoop x old := by
  induction n generalizing s with
  | zero =>
    cases h
    exact hp
  | succ n ih =>
    obtain ⟨u, hu, hrest⟩ := run_cons h
    obtain ⟨c, cs, hc⟩ := exists_cons_of_ne_nil hl
    simp only [step, go, hp, hc, Option.some.injEq] at hu
    subst hu
    refine ih ?_ ?_ hrest
    · by_cases hx : x = c
      · subst hx
        simpa [set] using hl
      · simpa [set, hx] using hl
    · exact hp

theorem not_letsGo (hl : (s.tab x).connectingList ≠ []) : ¬s.LetsGo p x := by
  rintro ⟨n, t, hrun, hp, -⟩
  have hleave : (s.tab.leave x x).connectingList ≠ [] := by rwa [leave_connectingList]
  rw [release, if_neg hleave] at hrun
  have hstays := releaseLoop_stays (s.tab x).state hleave (update_self ..) hrun
  cases hstays.symm.trans hp

theorem release_returns_iff (hp : s.place p = .outside) : s.LetsGo p x ↔ (s.tab x).connectingList = [] := by
  constructor
  · intro h
    by_contra hl
    exact not_letsGo hl h
  · intro hl
    refine ⟨0, _, rfl, ?_, fun c hc => ?_⟩
    · rw [release, if_pos ((leave_connectingList _).trans hl)]
      exact hp
    · rw [hl] at hc
      cases hc

/-- A listening socket, and a client that waits in its list: its process sleeps in `connect`. -/
def oneWaits : LocalSys Bool where
  tab i := ⟨1, ⟨afLocal, []⟩, sfAcceptCon, .unconnected, if i = 0 then [1] else [], none, 1, 0⟩
  files _ := []
  place q := if q then .connectDown 1 0 else .outside
  locked _ := false
  wrapped := false
  bound _ := []
  listened _ := true

theorem release_returns_alone : oneWaits.place false = .outside ∧ oneWaits.LetsGo false 1 :=
  ⟨rfl, (release_returns_iff rfl).mpr rfl⟩

theorem release_never_returns : oneWaits.place false = .outside ∧ ¬oneWaits.LetsGo false 0 := by
  refine ⟨rfl, not_letsGo ?_⟩
  decide

end LocalSys

end BabyOS
