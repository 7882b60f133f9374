import BabyOS.LocalCalls

open Function List Option

namespace BabyOS

namespace LocalSys

variable {Proc : Type} [DecidableEq Proc]

theorem ref_of_alloc {t : LocalTable} {i : LocalIx} (h : t.allocLocalSocket = some i) : (t i).ref = 0 := by
  rw [LocalTable.allocLocalSocket] at h
  have hi := List.find?_some h
  exact eq_of_beq hi

section

variable {t : LocalTable} {i j x : LocalIx}

variable {β : Type}

theorem setState_field (f : LocalSocket → β) (hf : ∀ v state, f { v with state } = f v)
    (st : SockState) : f (t.setState x st i) = f (t i) := by
  by_cases hi : i = x
  · simp [LocalTable.setState, hi, hf]
  · simp [LocalTable.setState, hi]

theorem decRef_field (f : LocalSocket → β) (hf : ∀ v ref, f { v with ref } = f v) : f (t.decRef x i) = f (t i) := by
  by_cases hi : i = x
  · simp [LocalTable.decRef, hi, hf]
  · simp [LocalTable.decRef, hi]

theorem leave_field (f : LocalSocket → β) (hf : ∀ v state, f { v with state } = f v) : f (t.leave x i) = f (t i) := by
  unfold LocalTable.leave
  split
  · rfl
  · exact setState_field f hf _

theorem drop_none (old : SockState) (h : (t x).connectedSocket = none) : t.drop x old = t.decRef x := by
  simp only [LocalTable.drop, h]

theorem drop_some (old : SockState) (h : (t x).connectedSocket = some j) :
    t.drop x old = ((if old = .connected then t.setState j .disconnecting else t).decRef x).decRef j := by
  simp only [LocalTable.drop, h]

theorem drop_field (f : LocalSocket → β) (hs : ∀ v state, f { v with state } = f v)
    (hr : ∀ v ref, f { v with ref } = f v) (old : SockState) : f (t.drop x old i) = f (t i) := by
  cases hj : (t x).connectedSocket with
  | none =>
    rw [drop_none old hj]
    exact decRef_field f hr
  | some j =>
    rw [drop_some old hj, decRef_field f hr, decRef_field f hr]
    split
    · exact setState_field f hs _
    · rfl

theorem decRef_ref (i : LocalIx) : (t.decRef x i).ref = if i = x then (t i).ref - 1 else (t i).ref := by
  by_cases hi : i = x
  · simp [LocalTable.decRef, hi]
  · simp [LocalTable.decRef, hi]

theorem drop_ref (old : SockState) (hx : (t x).connectedSocket ≠ some x) (i : LocalIx) :
    (t.drop x old i).ref = if i = x ∨ (t x).connectedSocket = some i then (t i).ref - 1 else (t i).ref := by
  cases hj : (t x).connectedSocket with
  | none =>
    rw [drop_none old hj, decRef_ref]
    simp
  | some j =>
    have hjx : j ≠ x := fun e => hx (e ▸ hj)
    have hst : ∀ i, ((if old = .connected then t.setState j .disconnecting else t) i).ref = (t i).ref := by
      intro i
      split
      · exact setState_field LocalSocket.ref (fun _ _ => rfl) _
      · rfl
    rw [drop_some old hj, decRef_ref, decRef_ref, hst]
    by_cases hij : i = j
    · subst hij
      simp [hjx]
    · have hji : ¬j = i := fun e => hij e.symm
      simp [hij, hji]

theorem drop_state (old : SockState) (i : LocalIx) :
    (t.drop x old i).state = (t i).state ∨ (t x).connectedSocket = some i ∧ (t.drop x old i).state = .disconnecting := by
  cases hj : (t x).connectedSocket with
  | none =>
    rw [drop_none old hj]
    exact Or.inl (decRef_field _ fun _ _ => rfl)
  | some j =>
    rw [drop_some old hj, decRef_field LocalSocket.state (fun _ _ => rfl),
      decRef_field LocalSocket.state (fun _ _ => rfl)]
    split
    · by_cases hi : i = j
      · exact Or.inr ⟨congrArg some hi.symm, by simp [LocalTable.setState, hi]⟩
      · exact Or.inl (by simp [LocalTable.setState, hi])
    · exact Or.inl rfl

theorem leave_state (i : LocalIx) : t.leave x i = t i ∨ i = x ∧ (t.leave x i).state = .disconnecting := by
  unfold LocalTable.leave
  split
  · exact Or.inl rfl
  · by_cases hi : i = x
    · exact Or.inr ⟨hi, by simp [LocalTable.setState, hi]⟩
    · exact Or.inl (by simp [LocalTable.setState, hi])

end

/-- The state after the last descriptor of a socket is closed and `release` has run. -/
def dropped (s : LocalSys Proc) (x : LocalIx) : LocalSys Proc :=
  { s with
    files := update s.files x []
    tab := (s.tab.leave x).drop x (s.tab x).state
    wrapped := s.wrapped || (s.tab.leave x).underflows x }

section

variable {s : LocalSys Proc} {p : Proc} {x : LocalIx}

omit [DecidableEq Proc] in
theorem dropped_field {β : Type} (f : LocalSocket → β) (hs : ∀ v state, f { v with state } = f v)
    (hr : ∀ v ref, f { v with ref } = f v) (i : LocalIx) : f ((s.dropped x).tab i) = f (s.tab i) :=
  (drop_field (t := s.tab.leave x) (x := x) (i := i) f hs hr (s.tab x).state).trans (leave_field f hs)

omit [DecidableEq Proc] in
theorem dropped_state (i : LocalIx) : ((s.dropped x).tab i).state = (s.tab i).state ∨
    (i = x ∨ (s.tab x).connectedSocket = some i) ∧ ((s.dropped x).tab i).state = .disconnecting := by
  have hpeer : (s.tab.leave x x).connectedSocket = (s.tab x).connectedSocket := leave_field _ fun _ _ => rfl
  rcases drop_state (t := s.tab.leave x) (x := x) (s.tab x).state i with hi | ⟨hi, hd⟩
  · rcases leave_state (t := s.tab) (x := x) i with hl | ⟨hix, hd⟩
    · exact Or.inl (hi.trans (congrArg _ hl))
    · exact Or.inr ⟨Or.inl hix, hi.trans hd⟩
  · exact Or.inr ⟨Or.inr (hpeer ▸ hi), hd⟩

omit [DecidableEq Proc] in
theorem files_dropped {i : LocalIx} (hix : i ≠ x) : (s.dropped x).files i = s.files i := by
  unfold dropped
  exact update_of_ne hix _ _

omit [DecidableEq Proc] in
theorem dropped_open {i : LocalIx} (hi : (s.dropped x).files i ≠ []) : i ≠ x ∧ s.files i ≠ [] := by
  have hix : i ≠ x := by
    rintro rfl
    refine hi ?_
    unfold dropped
    exact update_self _ _ _
  exact ⟨hix, by rwa [files_dropped hix] at hi⟩

omit [DecidableEq Proc] in
theorem pairs_dropped : (s.dropped x).pairs = s.pairs.release x := by
  refine Pairs.ext ?_ (funext (dropped_field LocalSocket.connectedSocket (fun _ _ => rfl) fun _ _ => rfl)) rfl
  ext i
  constructor
  · intro hi
    exact ⟨(dropped_open hi).2, (dropped_open hi).1⟩
  · intro ⟨hi, hix⟩
    change (s.dropped x).files i ≠ []
    rwa [files_dropped hix]

theorem release_eq (hl : (s.tab x).connectingList = []) :
    { s with files := update s.files x [] }.release p x = s.dropped x := by
  have hlist : (s.tab.leave x x).connectingList = [] :=
    (leave_field (t := s.tab) (x := x) (i := x) LocalSocket.connectingList fun _ _ => rfl).trans hl
  simp only [LocalSys.release, hlist, if_true, LocalSys.drop, dropped]

end

namespace Inv

variable {s s' : LocalSys Proc} {p q : Proc} {c i x y : LocalIx}

theorem go (h : s.Inv) (hg : s.go p = some s') : s'.Inv := by
  cases hpl : s.place p <;> simp only [LocalSys.go, hpl] at hg
  case outside => cases hg
  case connectAdd c y addr =>
    obtain ⟨_, he⟩ := ite_none_left_eq_some.mp hg
    cases he
    exact h.connectAdd hpl
  case connectUp c y =>
    cases hg
    exact h.quiet ⟨rfl, rfl, rfl, rfl, rfl⟩ (by rw [hpl]; exact ⟨rfl, rfl, rfl, rfl, rfl⟩) (by rw [hpl]; exact id)
  case connectDown c y =>
    obtain ⟨hn, he⟩ := ite_none_left_eq_some.mp hg
    obtain ⟨hst, hi⟩ := h.connectDown hpl hn
    rw [if_pos hst] at he
    cases he
    exact hi
  case connectInc c =>
    cases hg
    exact h.connectInc hpl
  case acceptCheck y a =>
    split at hg
    · cases hg
      exact h.quiet ⟨rfl, rfl, rfl, rfl, rfl⟩ (by rw [hpl]; exact ⟨rfl, rfl, rfl, rfl, rfl⟩) (by rw [hpl]; exact id)
    · cases hg
      have hq := h.quiet (Core.refl (s.tab y)) (p := p) (x := .acceptPop y a)
        (by rw [hpl]; exact ⟨rfl, rfl, rfl, rfl, rfl⟩) (by rw [hpl]; exact id)
      rwa [set, update_eq_self] at hq
  case acceptDown y a =>
    obtain ⟨_, he⟩ := ite_none_left_eq_some.mp hg
    cases he
    exact h.quiet ⟨rfl, rfl, rfl, rfl, rfl⟩ (by rw [hpl]; exact ⟨rfl, rfl, rfl, rfl, rfl⟩) (by rw [hpl]; exact id)
  case acceptPop y a =>
    obtain ⟨_, he⟩ := ite_none_left_eq_some.mp hg
    cases hl : (s.tab y).connectingList with
    | nil =>
      rw [hl] at he
      cases he
    | cons c cs =>
      rw [hl] at he
      cases he
      exact h.acceptPop hpl hl
  case acceptLink y a c =>
    cases hg
    exact h.acceptLink hpl
  case acceptInc y a c =>
    cases hg
    exact h.acceptInc hpl
  case acceptUp y a c =>
    cases hg
    exact h.acceptUp hpl
  case releaseLoop y old =>
    have := h.relies p
    rw [hpl] at this
    exact this.elim

theorem refile (h : s.Inv) {files : LocalIx → List (List Proc)}
    (hlen : ∀ i, (files i).length = (s.files i).length)
    (hh : ∀ p i, (s.place p).own = some i ∨ (s.place p).listener = some i → { s with files }.holds p i) :
    { s with files }.Inv := by
  have hne : ∀ i, files i ≠ [] ↔ s.files i ≠ [] := by
    intro i
    rw [← length_pos_iff, ← length_pos_iff, hlen]
  have hs : Pairs.Same { s with files }.pairs s.pairs := ⟨Set.ext hne, rfl, fun i _ => Iff.rfl⟩
  refine ⟨?_, hh, h.once, h.heldOnce, h.relies, ?_, ?_, ?_, ?_, hs.wf h.wf, h.ref_same (fun i => rfl) hs, h.wrapped⟩
  · intro i
    exact (hlen i).trans_le (h.file i)
  · exact fun i hi => h.unconnected i ((hne i).mp hi)
  · exact fun i hi => h.sem i ((hne i).mp hi)
  · exact fun x c hx => h.queue x c ((hne x).mp hx)
  · exact fun x hx => h.nodup x ((hne x).mp hx)

theorem enter (h : s.Inv) (hp : s.place p = .outside) {z : LocalPlace}
    (huse : ∀ i, z.own = some i ∨ z.listener = some i → s.holds p i)
    (hown : ∀ i, z.own = some i → (∀ q, (s.place q).own ≠ some i) ∧ (s.tab i).connectedSocket = none)
    (hheld : z.held = none) (hrel : s.Relies z) : (s.move p z).Inv := by
  have hself : (s.move p z).place p = z := by simp [move]
  have hne : ∀ {q}, q ≠ p → (s.move p z).place q = s.place q := fun hq => by simp [move, hq]
  have hheld' : ∀ {q d}, ((s.move p z).place q).held = some d → q ≠ p := by
    rintro q d hq rfl
    rw [hself, hheld] at hq
    cases hq
  have hwait : ∀ {q r}, (s.place q).waiting = some r → ((s.move p z).place q).waiting = some r := by
    intro q r hq
    have hqp : q ≠ p := by
      rintro rfl
      rw [hp] at hq
      cases hq
    rwa [hne hqp]
  have hs : Pairs.Same (s.move p z).pairs s.pairs := by
    refine ⟨rfl, rfl, ?_⟩
    intro i hi
    refine forall_congr' fun q => not_congr ?_
    by_cases hq : q = p
    · rw [hq, hself, hp]
      constructor
      · intro hz
        exact absurd (hown i (LocalPlace.own_of_uncounted hz)).2 hi
      · intro hz
        cases hz
    · rw [hne hq]
  have hrel' : ∀ y, s.Relies y → (∀ c, y.held = some c → s.Waits c) → (s.move p z).Relies y := by
    intro y hy hw
    refine Relies.of_slots hy (fun i _ => ⟨rfl, id⟩) ?_
    intro c hc
    obtain ⟨q, r, hq⟩ := hw c hc
    exact ⟨rfl, rfl, q, r, hwait hq⟩
  refine ⟨h.file, ?_, ?_, ?_, ?_, h.unconnected, h.sem, ?_, h.nodup, hs.wf h.wf, h.ref_same (fun i => rfl) hs,
    h.wrapped⟩
  · intro q i hq
    by_cases hqp : q = p
    · subst hqp
      rw [hself] at hq
      exact huse i hq
    · rw [hne hqp] at hq
      exact h.uses q i hq
  · intro q r i hq hr
    by_cases hqp : q = p
    · by_cases hrp : r = p
      · rw [hqp, hrp]
      rw [hqp, hself] at hq
      rw [hne hrp] at hr
      exact absurd hr ((hown i hq).1 r)
    rw [hne hqp] at hq
    by_cases hrp : r = p
    · rw [hrp, hself] at hr
      exact absurd hq ((hown i hr).1 q)
    · rw [hne hrp] at hr
      exact h.once q r i hq hr
  · intro q r c hq hr
    have hqp := hheld' hq
    have hrp := hheld' hr
    rw [hne hqp] at hq
    rw [hne hrp] at hr
    exact h.heldOnce q r c hq hr
  · intro q
    by_cases hqp : q = p
    · rw [hqp, hself]
      refine hrel' z hrel fun c hc => ?_
      rw [hheld] at hc
      cases hc
    · rw [hne hqp]
      exact hrel' _ (h.relies q) fun c hc => (h.of_held hc).2
  · intro y d hy hd
    obtain ⟨h1, ⟨q, h2⟩, h3⟩ := h.queue y d hy hd
    refine ⟨h1, ⟨q, hwait h2⟩, ?_⟩
    intro r hr
    have hrp := hheld' hr
    rw [hne hrp] at hr
    exact h3 r hr

theorem open_held (h : s.Inv) (hp : (s.place p).held = some c) : s.files c ≠ [] := by
  obtain ⟨_, q, y, hq⟩ := h.of_held hp
  exact h.open_own (LocalPlace.own_of_client (LocalPlace.client_of_waiting hq))

theorem create (h : s.Inv) (h0 : (s.tab i).ref = 0) :
    { s.create i with files := update s.files i [[p]] }.Inv := by
  have hr := h.ref_eq_zero.mp h0
  have hi : s.files i = [] := by
    by_contra hn
    exact Pairs.not_opened_of_refs hr hn
  set s' := { s.create i with files := update s.files i [[p]] }
  have htab : s'.tab i = (s.tab i).create := by simp [s', LocalSys.create, set]
  have htab' : ∀ {j}, j ≠ i → s'.tab j = s.tab j := fun hj => by simp [s', LocalSys.create, set, hj]
  have hfile : s'.files i = [[p]] := by simp [s']
  have hfile' : ∀ {j}, j ≠ i → s'.files j = s.files j := fun hj => by simp [s', hj]
  have hopen : ∀ {j}, s.files j ≠ [] → j ≠ i := by
    rintro j hj rfl
    exact hj hi
  have hs : s'.pairs = s.pairs.alloc i := by
    have hp : s'.pairs.peer = (s.pairs.alloc i).peer := by
      funext j
      by_cases hj : j = i
      · rw [hj, Pairs.alloc_peer_self]
        exact congrArg LocalSocket.connectedSocket htab
      · rw [Pairs.alloc_peer_of_ne hj]
        exact congrArg LocalSocket.connectedSocket (htab' hj)
    have ho : s'.pairs.opened = (s.pairs.alloc i).opened := by
      ext j
      by_cases hj : j = i
      · subst hj
        exact ⟨fun _ => Or.inl rfl, fun _ => by simp [pairs, hfile]⟩
      · refine Iff.trans ?_ (Set.mem_insert_iff.trans (or_iff_right hj)).symm
        change s'.files j ≠ [] ↔ s.files j ≠ []
        rw [hfile' hj]
    exact Pairs.ext ho hp rfl
  have hslot : ∀ {j}, s.files j ≠ [] → s'.tab j = s.tab j := fun hj => htab' (hopen hj)
  refine ⟨?_, ?_, h.once, h.heldOnce, ?_, ?_, ?_, ?_, ?_, ?_, ?_, h.wrapped⟩
  · intro j
    by_cases hj : j = i
    · rw [hj, hfile]
      exact le_rfl
    · rw [hfile' hj]
      exact h.file j
  · intro q j hq
    have hh := h.uses q j hq
    rw [holds, hfile' (hopen (files_ne_of_holds hh))]
    exact hh
  · intro q
    refine Relies.of_slots (h.relies q) ?_ ?_
    · intro j hj
      rw [hslot (h.open_own hj)]
      exact ⟨rfl, id⟩
    · intro d hd
      rw [hslot (h.open_held hd)]
      exact ⟨rfl, rfl, (h.of_held hd).2⟩
  · intro j hj hu
    by_cases hji : j = i
    · rw [hji, htab]
      rfl
    · rw [hfile' hji] at hj
      rw [htab' hji] at hu ⊢
      exact h.unconnected j hj hu
  · intro j hj hu
    by_cases hji : j = i
    · rw [hji, htab]
      rfl
    · rw [hfile' hji] at hj
      rw [htab' hji] at hu ⊢
      exact h.sem j hj hu
  · intro y d hy hd
    by_cases hyi : y = i
    · rw [hyi, htab] at hd
      cases hd
    · rw [hfile' hyi] at hy
      rw [htab' hyi] at hd
      obtain ⟨h1, ⟨q, h2⟩, h3⟩ := h.queue y d hy hd
      rw [hslot (h.open_own (LocalPlace.own_of_client (LocalPlace.client_of_waiting h2)))]
      exact ⟨h1, ⟨q, h2⟩, h3⟩
  · intro y hy
    by_cases hyi : y = i
    · rw [hyi, htab]
      exact nodup_nil
    · rw [hfile' hyi] at hy
      rw [htab' hyi]
      exact h.nodup y hy
  · rw [hs]
    exact h.wf.alloc hr
  · intro j
    rw [hs]
    by_cases hji : j = i
    · rw [hji, Pairs.refs_alloc_self, htab]
      rfl
    · rw [Pairs.refs_alloc_of_ne hr hji, htab' hji, h.ref]

section

variable (h : s.Inv) (hf : s.files x = [[p]]) (hp : s.place p = .outside)
include h hf hp

theorem not_own (q : Proc) : (s.place q).own ≠ some x := by
  intro hq
  have hh := h.uses q x (Or.inl hq)
  simp only [holds, hf, any_cons, any_nil, Bool.or_false, decide_eq_true_eq, mem_singleton] at hh
  rw [hh, hp] at hq
  cases hq

theorem not_held_of_file (q : Proc) : (s.place q).held ≠ some x := by
  intro hq
  obtain ⟨_, r, z, hr⟩ := h.of_held hq
  exact h.not_own hf hp r (LocalPlace.own_of_client (LocalPlace.client_of_waiting hr))

theorem not_own_peer {j : LocalIx}
    (hj : (s.tab x).connectedSocket = some j) (hc : ∀ q, (s.place q).client ≠ some j) (q : Proc) :
    (s.place q).own ≠ some j := by
  intro hq
  have hx : s.files x ≠ [] := by simp [hf]
  have hjx : (s.tab j).connectedSocket = some x := (h.wf.peers x j hx hj).1
  have hr := h.relies q
  have hh := h.not_held_of_file hf hp q
  cases hz : s.place q with
  | acceptCheck y a | acceptDown y a | acceptPop y a =>
    rw [hz] at hq hr
    cases hq
    cases hr.symm.trans hjx
  | acceptLink y a d =>
    rw [hz] at hq hr
    cases hq
    cases hr.1.symm.trans hjx
  | acceptInc y a d | acceptUp y a d =>
    rw [hz] at hq hr hh
    cases hq
    cases hr.1.symm.trans hjx
    exact hh rfl
  | connectAdd d y addr | connectUp d y | connectDown d y | connectInc d =>
    rw [hz] at hq
    exact hc q (by rw [hz]; exact hq)
  | outside | releaseLoop y old =>
    rw [hz] at hq
    cases hq

theorem ready
    (hc : ∀ j, (s.tab x).connectedSocket = some j → ∀ q, (s.place q).client ≠ some j) : s.pairs.Ready x where
  opened := by simp [pairs, hf]
  counted j hj := ⟨fun q hq => h.not_own hf hp q (LocalPlace.own_of_uncounted hq),
    fun q hq => h.not_own_peer hf hp hj (hc j hj) q (LocalPlace.own_of_uncounted hq)⟩

omit h hf hp in
theorem ref_sub_one {n : Nat} {w : Word} (h : w = BitVec.ofNat 32 (n + 1)) : w - 1 = BitVec.ofNat 32 n := by
  rw [h, BitVec.ofNat_add]
  exact BitVec.add_sub_cancel _ _

omit hf hp in
theorem not_wrapped (hready : s.pairs.Ready x) : (s.dropped x).wrapped = false := by
  have hself : (s.tab x).connectedSocket ≠ some x := fun hx => (h.wf.peers x x hready.opened hx).2 rfl
  have hpeer : (s.tab.leave x x).connectedSocket = (s.tab x).connectedSocket := leave_field _ fun _ _ => rfl
  have href : ∀ i, (s.tab.leave x i).ref = (s.tab i).ref := fun i => leave_field LocalSocket.ref fun _ _ => rfl
  have hx0 : (s.tab x).ref ≠ 0 := h.sound.opened x hready.opened
  have hu : (s.tab.leave x).underflows x = false := by
    rw [LocalTable.underflows, hpeer, href, beq_eq_false_iff_ne.mpr hx0, Bool.false_or]
    cases hj : (s.tab x).connectedSocket with
    | none => rfl
    | some j =>
      have hjx : j ≠ x := fun e => hself (e ▸ hj)
      rw [any_some, decRef_ref, if_neg hjx, href, beq_eq_false_iff_ne]
      intro h0
      exact h.wf.peer_ne (h.ref_eq_zero.mp h0) hready.opened hj
  change (s.wrapped || (s.tab.leave x).underflows x) = false
  rw [hu, h.wrapped]
  rfl

omit hf hp in
theorem ref_dropped (hready : s.pairs.Ready x) (i : LocalIx) :
    ((s.dropped x).tab i).ref = BitVec.ofNat 32 ((s.dropped x).pairs.refs i) := by
  have hself : (s.tab x).connectedSocket ≠ some x := fun hx => (h.wf.peers x x hready.opened hx).2 rfl
  have hpeer : (s.tab.leave x x).connectedSocket = (s.tab x).connectedSocket := leave_field _ fun _ _ => rfl
  have href : (s.tab.leave x i).ref = (s.tab i).ref := leave_field LocalSocket.ref fun _ _ => rfl
  rw [pairs_dropped]
  change ((s.tab.leave x).drop x (s.tab x).state i).ref = _
  rw [drop_ref _ (fun e => hself (hpeer ▸ e)), href, hpeer]
  by_cases hi : i = x
  · subst hi
    rw [if_pos (Or.inl rfl)]
    exact ref_sub_one ((h.ref i).trans (congrArg _ (h.wf.refs_release_self hready).symm))
  by_cases hj : (s.tab x).connectedSocket = some i
  · rw [if_pos (Or.inr hj)]
    exact ref_sub_one ((h.ref i).trans (congrArg _ (h.wf.refs_release_peer hready hj).symm))
  · rw [if_neg (fun e => e.elim hi hj), Pairs.refs_release_of_ne hi hj]
    exact h.ref i

/-- Nobody uses the socket of the last descriptor, which its process is closing. -/
theorem not_used (q : Proc) (hq : (s.place q).own = some x ∨ (s.place q).listener = some x) : False := by
  rcases hq with hq | hq
  · exact h.not_own hf hp q hq
  · have hh := h.uses q x (Or.inr hq)
    simp only [holds, hf, any_cons, any_nil, Bool.or_false, decide_eq_true_eq, mem_singleton] at hh
    rw [hh, hp] at hq
    cases hq

theorem release (hl : (s.tab x).connectingList = [])
    (hc : ∀ j, (s.tab x).connectedSocket = some j → ∀ q, (s.place q).client ≠ some j) :
    ({ s with files := update s.files x [] }.release p x).Inv := by
  have hready := h.ready hf hp hc
  rw [release_eq hl]
  have hps := dropped_field (s := s) (x := x) LocalSocket.connectedSocket (fun _ _ => rfl) (fun _ _ => rfl)
  have hls := dropped_field (s := s) (x := x) LocalSocket.connectingList (fun _ _ => rfl) (fun _ _ => rfl)
  have hss := dropped_field (s := s) (x := x) LocalSocket.waitAcceptSem (fun _ _ => rfl) (fun _ _ => rfl)
  refine ⟨?_, ?_, h.once, h.heldOnce, ?_, ?_, ?_, ?_, ?_, ?_, h.ref_dropped hready, h.not_wrapped hready⟩
  · intro i
    by_cases hi : (s.dropped x).files i = []
    · rw [hi]
      exact Nat.zero_le 1
    · rw [files_dropped (dropped_open hi).1]
      exact h.file i
  · intro q i hq
    have hix : i ≠ x := by
      rintro rfl
      exact h.not_used hf hp q hq
    rw [holds, files_dropped hix]
    exact h.uses q i hq
  · intro q
    refine Relies.of_slots (h.relies q) ?_ fun d hd => ⟨hps d, hss d, (h.of_held hd).2⟩
    intro i hi
    refine ⟨hps i, fun hcon => ?_⟩
    rcases dropped_state (s := s) (x := x) i with he | ⟨rfl | hj, _⟩
    · exact he.trans hcon
    · exact absurd hi (h.not_own hf hp q)
    · exact absurd hi (h.not_own_peer hf hp hj (hc i hj) q)
  · intro i hi hu
    rw [hps]
    rcases dropped_state (s := s) (x := x) i with he | ⟨_, hd⟩
    · exact h.unconnected i (dropped_open hi).2 (he.symm.trans hu)
    · cases hd.symm.trans hu
  · intro i hi hu
    rw [hss]
    exact h.sem i (dropped_open hi).2 ((hps i).symm.trans hu)
  · intro y d hy hd
    obtain ⟨h1, h2, h3⟩ := h.queue y d (dropped_open hy).2 (hls y ▸ hd)
    exact ⟨(hps d).trans h1, h2, h3⟩
  · intro y hy
    exact hls y ▸ h.nodup y (dropped_open hy).2
  · rw [pairs_dropped]
    exact h.wf.release hready

end

end Inv

/-- A socket gets a descriptor when it gets a file, a connect starts only on a socket that no call is under way
on, and the last descriptor is closed only when no client waits in its list and its peer is inside no connect.
-/
def Careful (s : LocalSys Proc) : LocalAct Proc → Prop
  | .socket _ file fd | .accept _ _ file fd => file → fd
  | .connect _ c _ => ∀ q, (s.place q).own ≠ some c
  | .close p x k => (s.files x)[k]? = some [p] →
    (s.tab x).connectingList = [] ∧
      ∀ j, (s.tab x).connectedSocket = some j → ∀ q, (s.place q).client ≠ some j
  | _ => True

structure Start (s : LocalSys Proc) : Prop where
  ref : ∀ i, (s.tab i).ref = 0
  files : ∀ i, s.files i = []
  place : ∀ p, s.place p = .outside
  locked : ∀ i, s.locked i = false
  wrapped : s.wrapped = false

theorem Start.inv {s : LocalSys Proc} (h : s.Start) : s.Inv := by
  have hn : ∀ {i}, s.files i ≠ [] → False := fun hi => hi (h.files _)
  refine ⟨?_, ?_, ?_, ?_, ?_, fun i hi => (hn hi).elim, fun i hi => (hn hi).elim, fun x c hx => (hn hx).elim,
    fun x hx => (hn hx).elim, ⟨fun i j hi => (hn hi).elim, fun i j hi => (hn hi).elim⟩, ?_, h.wrapped⟩
  · intro i
    rw [h.files]
    exact Nat.zero_le 1
  · intro p i hp
    rw [h.place] at hp
    exact hp.elim (fun hp => by cases hp) (fun hp => by cases hp)
  · intro p q i hp
    rw [h.place] at hp
    cases hp
  · intro p q i hp
    rw [h.place] at hp
    cases hp
  · intro p
    rw [h.place]
    trivial
  · intro i
    rw [h.ref, Pairs.refs_closed (fun hi => hn hi) (fun ⟨_, j, hj, _⟩ => hn hj)]
    rfl

namespace Inv

variable {s s' : LocalSys Proc} {p : Proc} {i x : LocalIx}

theorem install (h : s.Inv) (hp : s.place p = .outside) (ha : s.tab.allocLocalSocket = some i) {file fd : Bool}
    {z : LocalPlace} (hz : z = .outside ∨ ∃ y, z = .acceptCheck y i ∧ s.holds p y) (hfd : file → fd) :
    ((s.create i).install p i file fd z).Inv := by
  have h0 := ref_of_alloc ha
  have hi : s.files i = [] := by
    by_contra hn
    exact h.sound.opened i hn h0
  have hc := h.create (p := p) h0
  cases file with
  | false =>
    have hr := hc.release (p := p) (x := i) (by simp) hp (by simp [LocalSys.create, set, LocalSocket.create])
      (by simp [LocalSys.create, set, LocalSocket.create])
    have hfiles : update (update s.files i [[p]]) i [] = s.files := by
      rw [update_idem, ← hi, update_eq_self]
    rw [show (s.create i).install p i false fd z = (s.create i).release p i from rfl]
    simp only [hfiles] at hr
    exact hr
  | true =>
    rw [hfd rfl]
    have hins : (s.create i).install p i true true z =
        ({ s.create i with files := update s.files i [[p]] }.move p z) := by
      simp only [LocalSys.install, Bool.and_self, if_true, LocalSys.create, set, move, hi, nil_append]
    rw [hins]
    rcases hz with rfl | ⟨y, rfl, hy⟩
    · refine hc.enter hp (fun j hj => ?_) (fun j hj => by cases hj) rfl trivial
      exact hj.elim (fun hj => by cases hj) (fun hj => by cases hj)
    · have hyi : y ≠ i := fun e => files_ne_of_holds hy (e ▸ hi)
      refine hc.enter hp ?_ ?_ rfl (by simp [Relies, LocalSys.create, set, LocalSocket.create])
      · intro j hj
        rcases hj with hj | hj
        · cases hj
          simp [holds]
        · cases hj
          rw [holds]
          simp only [update_of_ne hyi]
          exact hy
      · intro j hj
        cases hj
        refine ⟨fun q hq => h.open_own hq hi, ?_⟩
        simp [LocalSys.create, set, LocalSocket.create]

theorem recorded (h : s.Inv) (bound : LocalIx → List SockAddrLocal) (listened : LocalIx → Bool) :
    { s with bound, listened }.Inv :=
  ⟨h.file, h.uses, h.once, h.heldOnce, h.relies, h.unconnected, h.sem, h.queue, h.nodup, h.wf, h.ref, h.wrapped⟩

theorem relabel (h : s.Inv) (p : Proc) {v : LocalSocket} (hv : Core v (s.tab x)) : (s.set x v).Inv := by
  have hq := h.quiet (p := p) (x := s.place p) hv ⟨rfl, rfl, rfl, rfl, rfl⟩ id
  rwa [move, show (s.set x v).place = s.place from rfl, update_eq_self] at hq

theorem eq_singleton_of_getElem {α : Type} {xs : List α} {a : α} {k : Nat} (hl : xs.length ≤ 1)
    (hk : xs[k]? = some a) : k = 0 ∧ xs = [a] := by
  obtain ⟨hlt, ha⟩ := List.getElem?_eq_some_iff.mp hk
  obtain ⟨b, rfl⟩ := length_eq_one_iff.mp (show xs.length = 1 by omega)
  obtain rfl : k = 0 := by
    rw [length_singleton] at hlt
    omega
  exact ⟨rfl, congrArg (fun b => [b]) ha⟩

theorem eq_singleton_of_erase {ps : List Proc} (hp : p ∈ ps) (he : ps.erase p = []) : ps = [p] := by
  have hl := length_erase_of_mem hp
  rw [he, length_nil] at hl
  have h1 := length_pos_of_mem hp
  obtain ⟨q, rfl⟩ := length_eq_one_iff.mp (show ps.length = 1 by omega)
  rw [mem_singleton.mp hp]

theorem step (h : s.Inv) {a : LocalAct Proc} (hc : s.Careful a) (hs : s.step a = some s') : s'.Inv := by
  cases a with
  | fork p q =>
    obtain ⟨_, he⟩ := ite_none_right_eq_some.mp hs
    cases he
    refine h.refile (fun i => List.length_map _) ?_
    intro r i hr
    have hh := h.uses r i hr
    simp only [holds, List.any_map, List.any_eq_true, Function.comp_apply, decide_eq_true_eq] at hh ⊢
    obtain ⟨ps, hps, hrp⟩ := hh
    exact ⟨ps, hps, List.mem_append_left _ hrp⟩
  | socket p file fd =>
    obtain ⟨hp, he⟩ := ite_none_right_eq_some.mp hs
    split at he
    · cases he
      exact h
    · next i ha =>
      cases he
      exact h.install hp ha (Or.inl rfl) hc
  | bind p x addr =>
    obtain ⟨_, he⟩ := ite_none_right_eq_some.mp hs
    split at he
    · cases he
      exact h
    · next tab htab =>
      cases he
      obtain ⟨_, ht⟩ := ite_none_left_eq_some.mp htab
      cases ht
      exact (h.relabel p (v := { s.tab x with addr }) ⟨rfl, rfl, rfl, rfl, rfl⟩).recorded _ _
  | listen p x =>
    obtain ⟨_, he⟩ := ite_none_right_eq_some.mp hs
    split at he
    · cases he
      exact (h.relabel p (v := { s.tab x with flags := (s.tab x).flags ||| sfAcceptCon })
        ⟨rfl, rfl, rfl, rfl, rfl⟩).recorded _ _
    · cases he
      exact h
  | accept p server file fd =>
    obtain ⟨⟨hp, hh⟩, he⟩ := ite_none_right_eq_some.mp hs
    split at he
    · split at he
      · cases he
        exact h
      · next a ha =>
        cases he
        exact h.install hp ha (Or.inr ⟨server, rfl, hh⟩) hc
    · cases he
      exact h
  | connect p c addr =>
    obtain ⟨⟨hp, hh⟩, he⟩ := ite_none_right_eq_some.mp hs
    split at he
    · next hu =>
      split at he
      · cases he
        exact h
      · cases he
        have hn := h.unconnected c (files_ne_of_holds hh) hu
        refine h.enter hp ?_ ?_ rfl hn
        · intro j hj
          rcases hj with hj | hj
          · cases hj
            exact hh
          · cases hj
        · intro j hj
          cases hj
          exact ⟨hc, hn⟩
    · cases he
      exact h
  | close p x k =>
    cases hk : (s.files x)[k]? with
    | none =>
      simp only [LocalSys.step, hk] at hs
      cases hs
    | some ps =>
      simp only [LocalSys.step, hk] at hs
      obtain ⟨⟨hp, hps⟩, he⟩ := ite_none_right_eq_some.mp hs
      obtain ⟨rfl, hf⟩ := eq_singleton_of_getElem (h.file x) hk
      split at he
      · next hq =>
        cases he
        obtain rfl := eq_singleton_of_erase hps hq
        obtain ⟨hl, hj⟩ := hc hk
        have hr := h.release hf hp hl hj
        simpa only [hf, eraseIdx_cons_zero] using hr
      · cases he
        refine h.refile ?_ ?_
        · intro i
          by_cases hi : i = x
          · rw [hi, update_self, length_set]
          · rw [update_of_ne hi]
        · intro r i hr
          have hh := h.uses r i hr
          by_cases hi : i = x
          · subst hi
            have hrp : r ≠ p := by
              rintro rfl
              rw [hp] at hr
              exact hr.elim (fun hr => by cases hr) (fun hr => by cases hr)
            simp only [holds, hf, any_cons, any_nil, Bool.or_false, decide_eq_true_eq] at hh
            simp only [holds, hf, update_self, set_cons_zero, any_cons, any_nil,
              Bool.or_false, decide_eq_true_eq]
            exact (mem_erase_of_ne hrp).mpr hh
          · simpa only [holds, update_of_ne hi] using hh
  | go p => exact h.go hs

end Inv

/-- In every run whose steps are careful the reference counts are sound. -/
theorem refs_sound {s s' : LocalSys Proc} {as : List (LocalAct Proc)} (hs : s.Start)
    (ha : Along step Careful s as) (hr : run step s as = some s') : s'.Sound :=
  (run_invariant (fun _ _ _ h hc ht => h.step hc ht) hs.inv ha hr).sound

end LocalSys

namespace LocalDemo

def boot : LocalSys Bool where
  tab _ := ⟨0, ⟨0, []⟩, 0, .free, [], none, 0, 0⟩
  files _ := []
  place _ := .outside
  locked _ := false
  wrapped := false
  bound _ := []
  listened _ := false

theorem boot_start : boot.Start := ⟨fun _ => rfl, fun _ => rfl, fun _ => rfl, fun _ => rfl, rfl⟩

def path : SockAddrLocal := ⟨afLocal, [0x2f, 0x73]⟩

/-- A server listens, a client connects to it and the server accepts; the client has not run again. -/
def meet : List (LocalAct Bool) :=
  [.socket false true true, .bind false 0 path, .listen false 0, .socket true true true,
    .connect true 1 path, .go true, .go true, .accept false 0 true true,
    .go false, .go false, .go false, .go false, .go false]

def part : List (LocalAct Bool) := meet ++ [.go true, .go true, .close false 2 0, .close true 1 0]

def early : List (LocalAct Bool) := meet ++ [.close false 2 0]

open LocalSys

theorem refs_sound_part : ∃ s', run step boot part = some s' ∧ s'.Sound ∧ (s'.tab 1).ref = 0 ∧ (s'.tab 2).ref = 0 := by
  obtain ⟨s', hs⟩ : ∃ s', run step boot part = some s' := ⟨_, rfl⟩
  have ha : Along step Careful boot part := by
    refine along_cons (fun _ => rfl) rfl ?_
    iterate 2 refine along_cons trivial rfl ?_
    refine along_cons (fun _ => rfl) rfl ?_
    refine along_cons (fun q hq => by cases q <;> cases hq) rfl ?_
    iterate 2 refine along_cons trivial rfl ?_
    refine along_cons (fun _ => rfl) rfl ?_
    iterate 7 refine along_cons trivial rfl ?_
    iterate 2 refine along_cons (fun _ => ⟨rfl, fun j _ q hq => by cases q <;> cases hq⟩) rfl ?_
    trivial
  refine ⟨s', hs, refs_sound boot_start ha hs, ?_, ?_⟩
  all_goals
    cases hs
    rfl

/-- The accepted end is closed before the client has counted its reference: the client's slot is free while a
descriptor refers to it, and its own close counts it down from 0. -/
theorem early_close_unsound :
    (∃ s', run step boot early = some s' ∧ s'.files 1 = [[true]] ∧ (s'.tab 1).ref = 0) ∧
    ∃ s', run step boot (early ++ [.go true, .close true 1 0]) = some s' ∧ s'.wrapped = true := by
  refine ⟨⟨_, rfl, rfl, rfl⟩, ⟨_, rfl, rfl⟩⟩

end LocalDemo

end BabyOS
