import BabyOS.LocalSocket
import BabyOS.PairCount

open Function

namespace BabyOS

namespace LocalPlace

def client : LocalPlace → Option LocalIx
  | .connectAdd c _ _ | .connectUp c _ | .connectDown c _ | .connectInc c => some c
  | _ => none

def own : LocalPlace → Option LocalIx
  | .connectAdd c _ _ | .connectUp c _ | .connectDown c _ | .connectInc c => some c
  | .acceptCheck _ a | .acceptDown _ a | .acceptPop _ a => some a
  | .acceptLink _ a _ | .acceptInc _ a _ | .acceptUp _ a _ => some a
  | .outside | .releaseLoop _ _ => none

def listener : LocalPlace → Option LocalIx
  | .acceptCheck x _ | .acceptDown x _ | .acceptPop x _ => some x
  | .acceptLink x _ _ | .acceptInc x _ _ | .acceptUp x _ _ => some x
  | _ => none

def held : LocalPlace → Option LocalIx
  | .acceptLink _ _ c | .acceptInc _ _ c | .acceptUp _ _ c => some c
  | _ => none

def waiting : LocalPlace → Option (LocalIx × LocalIx)
  | .connectUp c x | .connectDown c x => some (c, x)
  | _ => none

def uncounted : LocalPlace → Option LocalIx
  | .connectAdd c _ _ | .connectUp c _ | .connectDown c _ | .connectInc c => some c
  | .acceptInc _ a _ => some a
  | _ => none

structure Like (x y : LocalPlace) : Prop where
  own : x.own = y.own
  listener : x.listener = y.listener
  held : x.held = y.held
  waiting : x.waiting = y.waiting
  uncounted : x.uncounted = y.uncounted

variable {x : LocalPlace} {i : LocalIx}

theorem own_of_client (h : x.client = some i) : x.own = some i := by
  cases x <;> simp_all [client, own]

theorem own_of_uncounted (h : x.uncounted = some i) : x.own = some i := by
  cases x <;> simp_all [uncounted, own]

theorem client_of_waiting {c y : LocalIx} (h : x.waiting = some (c, y)) : x.client = some c := by
  cases x <;> simp_all [waiting, client]

theorem uncounted_of_client (h : x.client = some i) : x.uncounted = some i := by
  cases x <;> simp_all [uncounted, client]

end LocalPlace

namespace LocalSys

variable {Proc : Type} [DecidableEq Proc]

/-- The references of the sockets, as the open files and the calls under way account for them. -/
def pairs (s : LocalSys Proc) : Pairs LocalIx where
  opened := {i | s.files i ≠ []}
  peer := fun i => (s.tab i).connectedSocket
  counted := {i | ∀ p, (s.place p).uncounted ≠ some i}

def Waits (s : LocalSys Proc) (c : LocalIx) : Prop := ∃ p x, (s.place p).waiting = some (c, x)

def Relies (s : LocalSys Proc) : LocalPlace → Prop
  | .outside => True
  | .connectAdd c _ _ => (s.tab c).connectedSocket = none
  | .connectUp c _ | .connectDown c _ => (s.tab c).connectedSocket ≠ none → (s.tab c).state = .connected
  | .connectInc c => (s.tab c).connectedSocket ≠ none
  | .acceptCheck _ a | .acceptDown _ a | .acceptPop _ a => (s.tab a).connectedSocket = none
  | .acceptLink _ a c =>
    (s.tab a).connectedSocket = none ∧ (s.tab c).connectedSocket = none ∧ (s.tab c).waitAcceptSem = 0 ∧ s.Waits c
  | .acceptInc _ a c | .acceptUp _ a c =>
    (s.tab a).connectedSocket = some c ∧ (s.tab c).waitAcceptSem = 0 ∧ s.Waits c
  | .releaseLoop _ _ => False

structure Inv (s : LocalSys Proc) : Prop where
  file : ∀ i, (s.files i).length ≤ 1
  uses : ∀ p i, (s.place p).own = some i ∨ (s.place p).listener = some i → s.holds p i
  once : ∀ p q i, (s.place p).own = some i → (s.place q).own = some i → p = q
  heldOnce : ∀ p q c, (s.place p).held = some c → (s.place q).held = some c → p = q
  relies : ∀ p, s.Relies (s.place p)
  unconnected : ∀ i, s.files i ≠ [] → (s.tab i).state = .unconnected → (s.tab i).connectedSocket = none
  sem : ∀ i, s.files i ≠ [] → (s.tab i).connectedSocket = none → (s.tab i).waitAcceptSem = 0
  queue : ∀ x c, s.files x ≠ [] → c ∈ (s.tab x).connectingList →
    (s.tab c).connectedSocket = none ∧ (∃ p, (s.place p).waiting = some (c, x)) ∧ ∀ p, (s.place p).held ≠ some c
  nodup : ∀ x, s.files x ≠ [] → (s.tab x).connectingList.Nodup
  wf : s.pairs.Wf
  ref : ∀ i, (s.tab i).ref = BitVec.ofNat 32 (s.pairs.refs i)
  wrapped : s.wrapped = false

/-- None of the reference counts is 0 while a descriptor refers to the slot, none was counted down from 0, and
both are 0 once both ends are closed. -/
structure Sound (s : LocalSys Proc) : Prop where
  opened : ∀ i, s.files i ≠ [] → (s.tab i).ref ≠ 0
  closed : ∀ i, s.files i = [] → (∀ j, (s.tab i).connectedSocket = some j → s.files j = []) → (s.tab i).ref = 0
  wrapped : s.wrapped = false

variable {s : LocalSys Proc} {i : LocalIx}

theorem Inv.ref_eq_zero (h : s.Inv) : (s.tab i).ref = 0 ↔ s.pairs.refs i = 0 := by
  have hle := s.pairs.refs_le i
  rw [h.ref i]
  constructor
  · intro h0
    have := congrArg BitVec.toNat h0
    simp only [BitVec.toNat_ofNat, BitVec.ofNat_eq_ofNat] at this
    omega
  · intro h0
    rw [h0]
    rfl

theorem Inv.sound (h : s.Inv) : s.Sound where
  opened i hi h0 := Pairs.not_opened_of_refs (h.ref_eq_zero.mp h0) hi
  closed i hi hj := by
    refine h.ref_eq_zero.mpr (Pairs.refs_closed (fun ho => ho hi) ?_)
    intro ⟨_, j, ho, hp, _⟩
    exact ho (hj j hp)
  wrapped := h.wrapped

omit [DecidableEq Proc] in
theorem set_tab_self (s : LocalSys Proc) (i : LocalIx) (v : LocalSocket) : (s.set i v).tab i = v := by
  simp [set]

omit [DecidableEq Proc] in
theorem set_tab_of_ne (s : LocalSys Proc) {i j : LocalIx} (v : LocalSocket) (h : j ≠ i) :
    (s.set i v).tab j = s.tab j := by
  simp [set, h]

omit [DecidableEq Proc] in
theorem set_field {β : Type} (f : LocalSocket → β) (s : LocalSys Proc) {i : LocalIx} {v : LocalSocket}
    (hf : f v = f (s.tab i)) (j : LocalIx) : f ((s.set i v).tab j) = f (s.tab j) := by
  by_cases hj : j = i
  · rw [hj, set_tab_self, hf]
  · rw [set_tab_of_ne s v hj]

theorem files_ne_of_holds {p : Proc} (h : s.holds p i) : s.files i ≠ [] := by
  intro h0
  rw [holds, h0] at h
  cases h

namespace Inv

variable {s' : LocalSys Proc} {p q : Proc} {c x y : LocalIx}

theorem open_own (h : s.Inv) (hp : (s.place p).own = some i) : s.files i ≠ [] :=
  files_ne_of_holds (h.uses p i (Or.inl hp))

theorem own_waiting (h : s.Inv) (hp : (s.place p).own = some c) (hq : (s.place q).waiting = some (c, y)) : p = q :=
  h.once p q c hp (LocalPlace.own_of_client (LocalPlace.client_of_waiting hq))

theorem of_held (h : s.Inv) (hp : (s.place p).held = some c) : (s.tab c).waitAcceptSem = 0 ∧ s.Waits c := by
  have hr := h.relies p
  cases hx : s.place p with
  | acceptLink y a d =>
    rw [hx] at hp hr
    cases hp
    exact hr.2.2
  | acceptInc y a d | acceptUp y a d =>
    rw [hx] at hp hr
    cases hp
    exact hr.2
  | _ =>
    rw [hx] at hp
    cases hp

end Inv

structure Core (x y : LocalSocket) : Prop where
  ref : x.ref = y.ref
  state : x.state = y.state
  list : x.connectingList = y.connectingList
  peer : x.connectedSocket = y.connectedSocket
  sem : x.waitAcceptSem = y.waitAcceptSem

theorem Core.refl (x : LocalSocket) : Core x x := ⟨rfl, rfl, rfl, rfl, rfl⟩

omit [DecidableEq Proc] in
theorem Relies.of_slots {s s' : LocalSys Proc} {x : LocalPlace} (h : s.Relies x)
    (hown : ∀ i, x.own = some i → (s'.tab i).connectedSocket = (s.tab i).connectedSocket ∧
      ((s.tab i).state = .connected → (s'.tab i).state = .connected))
    (hheld : ∀ c, x.held = some c → (s'.tab c).connectedSocket = (s.tab c).connectedSocket ∧
      (s'.tab c).waitAcceptSem = (s.tab c).waitAcceptSem ∧ s'.Waits c) : s'.Relies x := by
  cases x with
  | outside => trivial
  | connectAdd c y addr => exact (hown c rfl).1.trans h
  | connectUp c y | connectDown c y => exact fun hn => (hown c rfl).2 (h ((hown c rfl).1 ▸ hn))
  | connectInc c => exact fun hn => h ((hown c rfl).1.symm.trans hn)
  | acceptCheck y a | acceptDown y a | acceptPop y a => exact (hown a rfl).1.trans h
  | acceptLink y a c =>
    obtain ⟨hp, hs, hw⟩ := hheld c rfl
    exact ⟨(hown a rfl).1.trans h.1, hp.trans h.2.1, hs.trans h.2.2.1, hw⟩
  | acceptInc y a c | acceptUp y a c =>
    obtain ⟨_, hs, hw⟩ := hheld c rfl
    exact ⟨(hown a rfl).1.trans h.1, hs.trans h.2.1, hw⟩
  | releaseLoop y old => exact h

structure Steps (s s' : LocalSys Proc) (p : Proc) (x : LocalPlace) : Prop where
  files : s'.files = s.files
  wrapped : s'.wrapped = s.wrapped
  place : s'.place = update s.place p x
  own : x.own = none ∨ x.own = (s.place p).own
  listener : x.listener = none ∨ x.listener = (s.place p).listener

namespace Steps

variable {s' : LocalSys Proc} {p q : Proc} {x : LocalPlace}

section

variable (t : Steps s s' p x)
include t

theorem place_self : s'.place p = x := by
  rw [t.place, update_self]

theorem place_of_ne (hq : q ≠ p) : s'.place q = s.place q := by
  rw [t.place, update_of_ne hq]

theorem holds (i : LocalIx) : s'.holds q i = s.holds q i := by
  rw [LocalSys.holds, LocalSys.holds, t.files]

theorem own_of {i : LocalIx} (h : (s'.place q).own = some i) : (s.place q).own = some i := by
  by_cases hq : q = p
  · subst hq
    rw [t.place_self] at h
    rcases t.own with ho | ho
    · rw [ho] at h
      cases h
    · rwa [← ho]
  · rwa [← t.place_of_ne hq]

theorem listener_of {i : LocalIx} (h : (s'.place q).listener = some i) : (s.place q).listener = some i := by
  by_cases hq : q = p
  · subst hq
    rw [t.place_self] at h
    rcases t.listener with ho | ho
    · rw [ho] at h
      cases h
    · rwa [← ho]
  · rwa [← t.place_of_ne hq]

theorem uses (h : s.Inv) (q : Proc) (i : LocalIx)
    (hi : (s'.place q).own = some i ∨ (s'.place q).listener = some i) : s'.holds q i := by
  rw [t.holds]
  exact h.uses q i (hi.imp t.own_of t.listener_of)

theorem once (h : s.Inv) (q r : Proc) (i : LocalIx) (hq : (s'.place q).own = some i)
    (hr : (s'.place r).own = some i) : q = r :=
  h.once q r i (t.own_of hq) (t.own_of hr)

theorem waits {c : LocalIx} (hc : s.Waits c)
    (hx : ∀ y, (s.place p).waiting = some (c, y) → x.waiting = some (c, y)) : s'.Waits c := by
  obtain ⟨q, y, hq⟩ := hc
  refine ⟨q, y, ?_⟩
  by_cases hqp : q = p
  · subst hqp
    rw [t.place_self]
    exact hx y hq
  · rwa [t.place_of_ne hqp]

theorem heldOnce (h : s.Inv)
    (hx : ∀ c, x.held = some c → (s.place p).held = some c ∨ ∀ q, (s.place q).held ≠ some c) (q r : Proc)
    (c : LocalIx) (hq : (s'.place q).held = some c) (hr : (s'.place r).held = some c) : q = r := by
  have hp : ∀ q r, q = p → (s'.place q).held = some c → (s'.place r).held = some c → r = p := by
    intro q r hqp hq hr
    by_contra hrp
    rw [hqp, t.place_self] at hq
    rw [t.place_of_ne hrp] at hr
    rcases hx c hq with hc | hc
    · exact hrp (h.heldOnce r p c hr hc)
    · exact hc r hr
  by_cases hqp : q = p
  · exact hqp.trans (hp q r hqp hq hr).symm
  by_cases hrp : r = p
  · exact absurd (hp r q hrp hr hq) hqp
  · rw [t.place_of_ne hqp] at hq
    rw [t.place_of_ne hrp] at hr
    exact h.heldOnce q r c hq hr

theorem held_of {c : LocalIx} (hx : x.held = some c → (s.place p).held = some c)
    (hq : (s'.place q).held = some c) : (s.place q).held = some c := by
  by_cases hqp : q = p
  · subst hqp
    rw [t.place_self] at hq
    exact hx hq
  · rwa [← t.place_of_ne hqp]

theorem pairs_opened : s'.pairs.opened = s.pairs.opened := by
  rw [pairs, pairs, t.files]

theorem pairs_same (hp : ∀ i, (s'.tab i).connectedSocket = (s.tab i).connectedSocket)
    (hx : x.uncounted = (s.place p).uncounted) : Pairs.Same s'.pairs s.pairs := by
  refine ⟨t.pairs_opened, funext hp, ?_⟩
  intro i _
  have hq : ∀ q, (s'.place q).uncounted = (s.place q).uncounted := by
    intro q
    by_cases hq : q = p
    · rw [hq, t.place_self, hx]
    · rw [t.place_of_ne hq]
  exact forall_congr' fun q => by rw [hq q]

theorem pairs_lend (h : s.Inv) (hp : ∀ i, (s'.tab i).connectedSocket = (s.tab i).connectedSocket) {c : LocalIx}
    (hc : (s.place p).uncounted = some c) (hx : x.uncounted = none) : Pairs.Same s'.pairs (s.pairs.lend c) := by
  refine ⟨t.pairs_opened, funext hp, ?_⟩
  intro i _
  constructor
  · intro hi
    by_cases hic : i = c
    · exact Or.inl hic
    refine Or.inr fun q hq => ?_
    by_cases hqp : q = p
    · rw [hqp, hc] at hq
      exact hic (Option.some.inj hq).symm
    · exact hi q (by rwa [t.place_of_ne hqp])
  · intro hi q hq
    by_cases hqp : q = p
    · rw [hqp, t.place_self, hx] at hq
      cases hq
    rw [t.place_of_ne hqp] at hq
    rcases hi with rfl | hi
    · exact hqp (h.once q p i (LocalPlace.own_of_uncounted hq) (LocalPlace.own_of_uncounted hc))
    · exact hi q hq

end

end Steps

namespace Inv

variable {s' : LocalSys Proc} {p : Proc} {x : LocalPlace}

theorem ref_same (h : s.Inv) (hr : ∀ i, (s'.tab i).ref = (s.tab i).ref) (hs : Pairs.Same s'.pairs s.pairs)
    (i : LocalIx) : (s'.tab i).ref = BitVec.ofNat 32 (s'.pairs.refs i) := by
  rw [hr, h.ref, hs.refs]

theorem queue_of (h : s.Inv) (t : Steps s s' p x)
    (hp : ∀ i, (s'.tab i).connectedSocket = (s.tab i).connectedSocket) {y c : LocalIx} (hy : s'.files y ≠ [])
    (hc : c ∈ (s.tab y).connectingList) (hx : x.held = some c → (s.place p).held = some c)
    (hw : (s.tab c).connectedSocket = none → (s.place p).waiting = some (c, y) → x.waiting = some (c, y)) :
    (s'.tab c).connectedSocket = none ∧ (∃ q, (s'.place q).waiting = some (c, y)) ∧
      ∀ q, (s'.place q).held ≠ some c := by
  rw [t.files] at hy
  obtain ⟨h1, ⟨q, h2⟩, h3⟩ := h.queue y c hy hc
  refine ⟨(hp c).trans h1, ⟨q, ?_⟩, fun q hq => h3 q (t.held_of hx hq)⟩
  by_cases hq : q = p
  · subst hq
    rw [t.place_self]
    exact hw h1 h2
  · rwa [t.place_of_ne hq]

theorem advance (h : s.Inv) (t : Steps s s' p x)
    (hp : ∀ i, (s'.tab i).connectedSocket = (s.tab i).connectedSocket)
    (hst : ∀ i, (s'.tab i).state = (s.tab i).state)
    (hheld : ∀ c, x.held = some c → (s.place p).held = some c ∨ ∀ q, (s.place q).held ≠ some c)
    (hrel : s'.Relies x)
    (hkeep : ∀ q c, q ≠ p → (s.place q).held = some c → (s'.tab c).waitAcceptSem = (s.tab c).waitAcceptSem ∧
      ∀ y, (s.place p).waiting = some (c, y) → x.waiting = some (c, y))
    (hsem : ∀ i, s.files i ≠ [] → (s.tab i).connectedSocket = none →
      (s'.tab i).waitAcceptSem = (s.tab i).waitAcceptSem)
    (hqueue : ∀ y c, s'.files y ≠ [] → c ∈ (s'.tab y).connectingList →
      (s'.tab c).connectedSocket = none ∧ (∃ q, (s'.place q).waiting = some (c, y)) ∧
        ∀ q, (s'.place q).held ≠ some c)
    (hnodup : ∀ y, s'.files y ≠ [] → (s'.tab y).connectingList.Nodup) (hwf : s'.pairs.Wf)
    (href : ∀ i, (s'.tab i).ref = BitVec.ofNat 32 (s'.pairs.refs i)) : s'.Inv := by
  refine ⟨?_, t.uses h, t.once h, t.heldOnce h hheld, ?_, ?_, ?_, hqueue, hnodup, hwf, href, ?_⟩
  · rw [t.files]
    exact h.file
  · intro q
    by_cases hq : q = p
    · rw [hq, t.place_self]
      exact hrel
    rw [t.place_of_ne hq]
    refine Relies.of_slots (h.relies q) (fun i _ => ⟨hp i, fun hi => (hst i).trans hi⟩) ?_
    intro c hc
    obtain ⟨hs, hw⟩ := hkeep q c hq hc
    exact ⟨hp c, hs, t.waits (h.of_held hc).2 hw⟩
  · intro i hi hu
    rw [t.files] at hi
    rw [hst i] at hu
    rw [hp i]
    exact h.unconnected i hi hu
  · intro i hi hn
    rw [t.files] at hi
    rw [hp i] at hn
    rw [hsem i hi hn]
    exact h.sem i hi hn
  · rw [t.wrapped]
    exact h.wrapped

theorem quiet (h : s.Inv) {y : LocalIx} {v : LocalSocket} (hv : Core v (s.tab y)) (hx : x.Like (s.place p))
    (hrel : s.Relies (s.place p) → s.Relies x) : ((s.set y v).move p x).Inv := by
  have hc : ∀ i, Core ((s.set y v).tab i) (s.tab i) := fun i =>
    ⟨set_field _ s hv.ref i, set_field _ s hv.state i, set_field _ s hv.list i, set_field _ s hv.peer i,
      set_field _ s hv.sem i⟩
  have t : Steps s ((s.set y v).move p x) p x := ⟨rfl, rfl, rfl, Or.inr hx.own, Or.inr hx.listener⟩
  have hs := t.pairs_same (fun i => (hc i).peer) hx.uncounted
  have hw : ∀ {c y}, (s.place p).waiting = some (c, y) → x.waiting = some (c, y) := fun hy => hx.waiting.trans hy
  refine h.advance t (fun i => (hc i).peer) (fun i => (hc i).state) (fun c hcx => Or.inl (hx.held.symm.trans hcx)) ?_
    (fun q c _ _ => ⟨(hc c).sem, fun y => hw⟩) (fun i _ _ => (hc i).sem) ?_ ?_ (hs.wf h.wf)
    (h.ref_same (fun i => (hc i).ref) hs)
  · refine Relies.of_slots (hrel (h.relies p)) (fun i _ => ⟨(hc i).peer, fun hi => (hc i).state.trans hi⟩) ?_
    exact fun c hcx => ⟨(hc c).peer, (hc c).sem, t.waits (h.of_held (hx.held.symm.trans hcx)).2 fun y => hw⟩
  · intro z c hz hcz
    exact h.queue_of t (fun i => (hc i).peer) hz ((hc z).list ▸ hcz) (fun hxc => hx.held.symm.trans hxc) fun _ => hw
  · intro z hz
    change ((s.set y v).tab z).connectingList.Nodup
    rw [(hc z).list]
    exact h.nodup z hz

end Inv

end LocalSys

end BabyOS
