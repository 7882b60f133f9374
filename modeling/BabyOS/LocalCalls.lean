import BabyOS.LocalInv

open Function

namespace BabyOS

namespace LocalSys

variable {Proc : Type} [DecidableEq Proc]

section

variable {t : LocalTable} {a c i : LocalIx}

theorem link_left (h : a ≠ c) : t.link a c a = { t a with connectedSocket := some c, state := .connected } := by
  simp [LocalTable.link, h]

theorem link_right (h : a ≠ c) : t.link a c c = { t c with connectedSocket := some a, state := .connected } := by
  simp [LocalTable.link, h.symm]

theorem link_of_ne (ha : i ≠ a) (hc : i ≠ c) : t.link a c i = t i := by
  simp [LocalTable.link, ha, hc]

theorem link_field {β : Type} (f : LocalSocket → β) (h : a ≠ c)
    (hf : ∀ v peer state, f { v with connectedSocket := peer, state } = f v) : f (t.link a c i) = f (t i) := by
  by_cases ha : i = a
  · rw [ha, link_left h, hf]
  by_cases hc : i = c
  · rw [hc, link_right h, hf]
  · rw [link_of_ne ha hc]

end

namespace Inv

variable {s s' : LocalSys Proc} {p : Proc} {x : LocalPlace}

variable {y c a : LocalIx}

section

variable (h : s.Inv)
include h

theorem nodup_set {v : LocalSocket} (hv : s.files y ≠ [] → v.connectingList.Nodup)
    {z : LocalIx} (hz : s.files z ≠ []) : ((s.set y v).tab z).connectingList.Nodup := by
  by_cases hzy : z = y
  · subst hzy
    rw [set_tab_self]
    exact hv hz
  · rw [set_tab_of_ne s v hzy]
    exact h.nodup z hz

theorem connectAdd {addr : SockAddrLocal} (hpl : s.place p = .connectAdd c y addr) :
    ((s.set y { s.tab y with connectingList := (s.tab y).connectingList ++ [c] }).move p (.connectUp c y)).Inv := by
  set v := { s.tab y with connectingList := (s.tab y).connectingList ++ [c] }
  have hown : (s.place p).own = some c := by rw [hpl]; rfl
  have hnw : (s.place p).waiting = none := by rw [hpl]; rfl
  have hpc : (s.tab c).connectedSocket = none := by
    have := h.relies p
    rwa [hpl] at this
  have hf := fun {β : Type} (f : LocalSocket → β) => set_field (i := y) (v := v) f s
  have t : Steps s ((s.set y v).move p (.connectUp c y)) p (.connectUp c y) :=
    ⟨rfl, rfl, rfl, Or.inr hown.symm, Or.inl rfl⟩
  have hs := t.pairs_same (hf _ rfl) (by rw [hpl]; rfl)
  have hlist : ∀ z d, d ∈ ((s.set y v).tab z).connectingList → d ∈ (s.tab z).connectingList ∨ z = y ∧ d = c := by
    intro z d hd
    by_cases hz : z = y
    · subst hz
      rw [set_tab_self] at hd
      rcases List.mem_append.mp hd with hd | hd
      · exact Or.inl hd
      · exact Or.inr ⟨rfl, List.mem_singleton.mp hd⟩
    · rw [set_tab_of_ne s v hz] at hd
      exact Or.inl hd
  refine h.advance t (hf _ rfl) (hf _ rfl) (fun d hd => by cases hd) ?_ ?_ (fun i _ _ => hf _ rfl i) ?_ ?_
    (hs.wf h.wf) (h.ref_same (hf _ rfl) hs)
  · intro hn
    exact absurd ((hf _ rfl c).trans hpc) hn
  · intro q d _ _
    refine ⟨hf _ rfl d, ?_⟩
    intro z hz
    rw [hnw] at hz
    cases hz
  · intro z d hz hd
    rcases hlist z d hd with hd | ⟨rfl, rfl⟩
    · refine h.queue_of t (hf _ rfl) hz hd (fun hx => by cases hx) ?_
      intro _ hw
      rw [hnw] at hw
      cases hw
    · refine ⟨(hf _ rfl d).trans hpc, ⟨p, by rw [t.place_self]; rfl⟩, ?_⟩
      intro q hq
      obtain ⟨_, r, _, hr⟩ := h.of_held (t.held_of (fun hx => by cases hx) hq)
      rw [← h.own_waiting hown hr, hnw] at hr
      cases hr
  · refine fun z => h.nodup_set fun hy => (h.nodup y hy).append (List.nodup_singleton c)
      (List.disjoint_singleton.mpr fun hc => ?_)
    obtain ⟨_, ⟨r, hr⟩, _⟩ := h.queue y c hy hc
    rw [← h.own_waiting hown hr, hnw] at hr
    cases hr

theorem connectDown (hpl : s.place p = .connectDown c y) (hn : (s.tab c).waitAcceptSem ≠ 0) :
    (s.tab c).state = .connected ∧
    ((s.set c { s.tab c with waitAcceptSem := (s.tab c).waitAcceptSem - 1 }).move p (.connectInc c)).Inv := by
  set v := { s.tab c with waitAcceptSem := (s.tab c).waitAcceptSem - 1 }
  have hown : (s.place p).own = some c := by rw [hpl]; rfl
  have hpc : (s.tab c).connectedSocket ≠ none := fun h0 => hn (h.sem c (h.open_own hown) h0)
  have hf := fun {β : Type} (f : LocalSocket → β) => set_field (i := c) (v := v) f s
  have t : Steps s ((s.set c v).move p (.connectInc c)) p (.connectInc c) :=
    ⟨rfl, rfl, rfl, Or.inr hown.symm, Or.inl rfl⟩
  have hs := t.pairs_same (hf _ rfl) (by rw [hpl]; rfl)
  refine ⟨?_, ?_⟩
  · have := h.relies p
    rw [hpl] at this
    exact this hpc
  refine h.advance t (hf _ rfl) (hf _ rfl) (fun d hd => by cases hd) ?_ ?_ ?_ ?_ ?_ (hs.wf h.wf)
    (h.ref_same (hf _ rfl) hs)
  · exact fun h0 => hpc ((hf _ rfl c).symm.trans h0)
  · intro q d _ hd
    have hdc : d ≠ c := fun e => hn (e ▸ (h.of_held hd).1)
    refine ⟨?_, ?_⟩
    · change ((s.set c v).tab d).waitAcceptSem = _
      rw [set_tab_of_ne s v hdc]
    · intro z hz
      rw [hpl] at hz
      cases hz
      exact absurd rfl hdc
  · intro i _ h0
    have hic : i ≠ c := fun e => hpc (e ▸ h0)
    change ((s.set c v).tab i).waitAcceptSem = _
    rw [set_tab_of_ne s v hic]
  · intro z d hz hd
    have hl := hf LocalSocket.connectingList rfl z
    refine h.queue_of t (hf _ rfl) hz (hl ▸ hd) (fun hx => by cases hx) ?_
    intro h0 hw
    rw [hpl] at hw
    cases hw
    exact absurd h0 hpc
  · intro z hz
    have hl := hf LocalSocket.connectingList rfl z
    exact hl ▸ h.nodup z hz

theorem counts {d : LocalIx} (t : Steps s ((s.set c { s.tab c with ref := (s.tab c).ref + 1 }).move p x) p x)
    (hu : (s.place p).uncounted = some c) (hx : x.uncounted = none) (hd : (s.tab c).connectedSocket = some d)
    (hw : (s.place p).waiting = none) (hheld : x.held = (s.place p).held)
    (hrel : ((s.set c { s.tab c with ref := (s.tab c).ref + 1 }).move p x).Relies x) :
    ((s.set c { s.tab c with ref := (s.tab c).ref + 1 }).move p x).Inv := by
  set v := { s.tab c with ref := (s.tab c).ref + 1 }
  have hf := fun {β : Type} (f : LocalSocket → β) => set_field (i := c) (v := v) f s
  have hl := hf LocalSocket.connectingList rfl
  have hs := t.pairs_lend h (hf _ rfl) hu hx
  have hopen := h.open_own (LocalPlace.own_of_uncounted hu)
  have hnc : c ∉ s.pairs.counted := fun hc => hc p hu
  refine h.advance t (hf _ rfl) (hf _ rfl) ?_ hrel ?_ (fun i _ _ => hf _ rfl i) ?_ ?_ (hs.wf (h.wf.lend c)) ?_
  · exact fun d hd => Or.inl (hheld.symm.trans hd)
  · refine fun q d _ _ => ⟨hf _ rfl d, ?_⟩
    intro z hz
    rw [hw] at hz
    cases hz
  · intro z d hz hd
    refine h.queue_of t (hf _ rfl) hz (hl z ▸ hd) hheld.symm.trans ?_
    intro _ hz
    rw [hw] at hz
    cases hz
  · exact fun z hz => hl z ▸ h.nodup z hz
  · intro i
    rw [hs.refs]
    by_cases hi : i = c
    · subst hi
      rw [h.wf.refs_lend_self hopen hd hnc, BitVec.ofNat_add, ← h.ref i]
      exact congrArg LocalSocket.ref (set_tab_self s i v)
    · rw [Pairs.refs_lend_of_ne hi, ← h.ref i]
      exact congrArg LocalSocket.ref (set_tab_of_ne s v hi)

theorem connectInc (hpl : s.place p = .connectInc c) :
    ((s.set c { s.tab c with ref := (s.tab c).ref + 1 }).move p .outside).Inv := by
  have hr := h.relies p
  rw [hpl] at hr
  obtain ⟨d, hd⟩ := Option.ne_none_iff_exists'.mp hr
  exact h.counts ⟨rfl, rfl, rfl, Or.inl rfl, Or.inl rfl⟩ (by rw [hpl]; rfl) rfl hd (by rw [hpl]; rfl)
    (by rw [hpl]; rfl) trivial

theorem acceptInc (hpl : s.place p = .acceptInc y a c) :
    ((s.set a { s.tab a with ref := (s.tab a).ref + 1 }).move p (.acceptUp y a c)).Inv := by
  have hr := h.relies p
  rw [hpl] at hr
  obtain ⟨hd, hsem, hw⟩ := hr
  set v := { s.tab a with ref := (s.tab a).ref + 1 }
  have hf := fun {β : Type} (f : LocalSocket → β) => set_field (i := a) (v := v) f s
  have t : Steps s ((s.set a v).move p (.acceptUp y a c)) p (.acceptUp y a c) :=
    ⟨rfl, rfl, rfl, Or.inr (by rw [hpl]; rfl), Or.inr (by rw [hpl]; rfl)⟩
  refine h.counts t (by rw [hpl]; rfl) rfl hd (by rw [hpl]; rfl) (by rw [hpl]; rfl) ?_
  refine ⟨(hf _ rfl a).trans hd, (hf _ rfl c).trans hsem, t.waits hw ?_⟩
  intro z hz
  rw [hpl] at hz
  cases hz

theorem acceptPop {cs : List LocalIx} (hpl : s.place p = .acceptPop y a) (hl : (s.tab y).connectingList = c :: cs) :
    ((s.set y { s.tab y with connectingList := cs }).move p (.acceptLink y a c)).Inv := by
  set v := { s.tab y with connectingList := cs }
  have hown : (s.place p).own = some a := by rw [hpl]; rfl
  have hnw : (s.place p).waiting = none := by rw [hpl]; rfl
  have hy : s.files y ≠ [] := files_ne_of_holds (h.uses p y (Or.inr (by rw [hpl]; rfl)))
  have hpa : (s.tab a).connectedSocket = none := by
    have := h.relies p
    rwa [hpl] at this
  obtain ⟨hpc, ⟨r, hr⟩, hnh⟩ := h.queue y c hy (hl ▸ List.mem_cons_self)
  have hoc := h.open_own (LocalPlace.own_of_client (LocalPlace.client_of_waiting hr))
  have hnd := List.nodup_cons.mp (hl ▸ h.nodup y hy)
  have hf := fun {β : Type} (f : LocalSocket → β) => set_field (i := y) (v := v) f s
  have t : Steps s ((s.set y v).move p (.acceptLink y a c)) p (.acceptLink y a c) :=
    ⟨rfl, rfl, rfl, Or.inr hown.symm, Or.inr (by rw [hpl]; rfl)⟩
  have hs := t.pairs_same (hf _ rfl) (by rw [hpl]; rfl)
  have hnw' : ∀ {d z}, (s.place p).waiting = some (d, z) → (LocalPlace.acceptLink y a c).waiting = some (d, z) := by
    intro d z hz
    rw [hnw] at hz
    cases hz
  have hlist : ∀ z d, s.files z ≠ [] → d ∈ ((s.set y v).tab z).connectingList →
      d ∈ (s.tab z).connectingList ∧ d ≠ c := by
    intro z d hz hd
    by_cases hzy : z = y
    · subst hzy
      rw [set_tab_self] at hd
      refine ⟨hl ▸ List.mem_cons_of_mem c hd, ?_⟩
      rintro rfl
      exact hnd.1 hd
    · rw [set_tab_of_ne s v hzy] at hd
      refine ⟨hd, ?_⟩
      rintro rfl
      obtain ⟨_, ⟨q, hq⟩, _⟩ := h.queue z d hz hd
      rw [h.own_waiting (LocalPlace.own_of_client (LocalPlace.client_of_waiting hq)) hr, hr] at hq
      cases hq
      exact hzy rfl
  refine h.advance t (hf _ rfl) (hf _ rfl) ?_ ?_ ?_ (fun i _ _ => hf _ rfl i) ?_ ?_ (hs.wf h.wf)
    (h.ref_same (hf _ rfl) hs)
  · intro d hd
    cases hd
    exact Or.inr hnh
  · exact ⟨(hf _ rfl a).trans hpa, (hf _ rfl c).trans hpc, (hf _ rfl c).trans (h.sem c hoc hpc),
      t.waits ⟨r, y, hr⟩ fun z => hnw'⟩
  · exact fun q d _ _ => ⟨hf _ rfl d, fun z => hnw'⟩
  · intro z d hz hd
    obtain ⟨hd, hdc⟩ := hlist z d hz hd
    refine h.queue_of t (hf _ rfl) hz hd ?_ fun _ => hnw'
    intro hx
    cases hx
    exact absurd rfl hdc
  · exact fun z => h.nodup_set fun _ => hnd.2

theorem acceptUp (hpl : s.place p = .acceptUp y a c) :
    ((s.set c { s.tab c with waitAcceptSem := (s.tab c).waitAcceptSem + 1 }).move p .outside).Inv := by
  set v := { s.tab c with waitAcceptSem := (s.tab c).waitAcceptSem + 1 }
  have hheld : (s.place p).held = some c := by rw [hpl]; rfl
  have hnw : ∀ {d z}, (s.place p).waiting = some (d, z) → LocalPlace.outside.waiting = some (d, z) := by
    intro d z hz
    rw [hpl] at hz
    cases hz
  have hpa : (s.tab a).connectedSocket = some c := by
    have := h.relies p
    rw [hpl] at this
    exact this.1
  have hpc : (s.tab c).connectedSocket = some a :=
    (h.wf.peers a c (h.open_own (by rw [hpl]; rfl)) hpa).1
  have hf := fun {β : Type} (f : LocalSocket → β) => set_field (i := c) (v := v) f s
  have hl := hf LocalSocket.connectingList rfl
  have t : Steps s ((s.set c v).move p .outside) p .outside := ⟨rfl, rfl, rfl, Or.inl rfl, Or.inl rfl⟩
  have hs := t.pairs_same (hf _ rfl) (by rw [hpl]; rfl)
  refine h.advance t (hf _ rfl) (hf _ rfl) (fun d hd => by cases hd) trivial ?_ ?_ ?_ ?_ (hs.wf h.wf)
    (h.ref_same (hf _ rfl) hs)
  · intro q d hq hd
    have hdc : d ≠ c := fun e => hq (h.heldOnce q p c (e ▸ hd) hheld)
    exact ⟨congrArg LocalSocket.waitAcceptSem (set_tab_of_ne s v hdc), fun z => hnw⟩
  · intro i _ h0
    have hic : i ≠ c := by
      rintro rfl
      rw [hpc] at h0
      cases h0
    exact congrArg LocalSocket.waitAcceptSem (set_tab_of_ne s v hic)
  · intro z d hz hd
    exact h.queue_of t (hf _ rfl) hz (hl z ▸ hd) (fun hx => by cases hx) fun _ => hnw
  · exact fun z hz => hl z ▸ h.nodup z hz

section

variable (hpl : s.place p = .acceptLink y a c)
include hpl

theorem free : s.pairs.Free a c := by
  have hr := h.relies p
  rw [hpl] at hr
  obtain ⟨hpa, hpc, _, q, z, hq⟩ := hr
  have hown : (s.place p).own = some a := by rw [hpl]; rfl
  refine ⟨h.open_own hown, h.open_own (LocalPlace.own_of_client (LocalPlace.client_of_waiting hq)), ?_, hpa, hpc⟩
  rintro rfl
  rw [← h.own_waiting hown hq, hpl] at hq
  cases hq

theorem pairs_link :
    Pairs.Same ({ s with tab := s.tab.link a c }.move p (.acceptInc y a c)).pairs (s.pairs.link a c) := by
  have hfree := h.free hpl
  obtain ⟨_, q, z, hq⟩ := h.of_held (p := p) (c := c) (by rw [hpl]; rfl)
  have hqp : q ≠ p := by
    rintro rfl
    rw [hpl] at hq
    cases hq
  refine ⟨rfl, ?_, ?_⟩
  · funext i
    change (s.tab.link a c i).connectedSocket = _
    by_cases ha : i = a
    · rw [ha, link_left hfree.ne, Pairs.link_peer_left]
    by_cases hc : i = c
    · rw [hc, link_right hfree.ne, Pairs.link_peer_right hfree.ne]
    · rw [link_of_ne ha hc, Pairs.link_peer_of_ne ha hc]
      rfl
  · intro i _
    constructor
    · intro hi
      have hia : i ≠ a := fun e => hi p (by rw [e]; simp [move, LocalPlace.uncounted])
      have hic : i ≠ c := by
        rintro rfl
        refine hi q ?_
        simp only [move, update_of_ne hqp]
        exact LocalPlace.uncounted_of_client (LocalPlace.client_of_waiting hq)
      refine ⟨fun r hr => ?_, by simp [hia, hic]⟩
      by_cases hrp : r = p
      · rw [hrp, hpl] at hr
        cases hr
      · exact hi r (by simpa only [move, update_of_ne hrp] using hr)
    · intro hm r hr
      obtain ⟨hi, hn⟩ := hm
      by_cases hrp : r = p
      · simp only [hrp, move, update_self] at hr
        cases hr
        exact hn (Or.inl rfl)
      · exact hi r (by simpa only [move, update_of_ne hrp] using hr)

theorem acceptLink : ({ s with tab := s.tab.link a c }.move p (.acceptInc y a c)).Inv := by
  have hfree := h.free hpl
  have hs := h.pairs_link hpl
  have hheld : (s.place p).held = some c := by rw [hpl]; rfl
  have hown : (s.place p).own = some a := by rw [hpl]; rfl
  obtain ⟨hsem, hw⟩ := h.of_held hheld
  have hf := fun {β : Type} (f : LocalSocket → β)
    (hf : ∀ v peer state, f { v with connectedSocket := peer, state } = f v) (i : LocalIx) =>
      link_field (t := s.tab) (i := i) f hfree.ne hf
  have t : Steps s ({ s with tab := s.tab.link a c }.move p (.acceptInc y a c)) p (.acceptInc y a c) :=
    ⟨rfl, rfl, rfl, Or.inr hown.symm, Or.inr (by rw [hpl]; rfl)⟩
  have hnw : ∀ {d z}, (s.place p).waiting = some (d, z) → (LocalPlace.acceptInc y a c).waiting = some (d, z) := by
    intro d z hz
    rw [hpl] at hz
    cases hz
  have hw' : ∀ {d}, s.Waits d → ({ s with tab := s.tab.link a c }.move p (.acceptInc y a c)).Waits d :=
    fun hd => t.waits hd fun z => hnw
  have hna : ∀ {q d z}, (s.place q).waiting = some (d, z) → d ≠ a := by
    rintro q d z hq rfl
    rw [← h.own_waiting hown hq, hpl] at hq
    cases hq
  have hna' : ∀ {q d}, (s.place q).held = some d → d ≠ a := by
    intro q d hq
    obtain ⟨_, r, z, hr⟩ := h.of_held hq
    exact hna hr
  have hne : ∀ {i}, (s.tab.link a c i).connectedSocket = none ∨ (s.tab.link a c i).state = .unconnected →
      i ≠ a ∧ i ≠ c := by
    intro i hi
    refine ⟨?_, ?_⟩
    · rintro rfl
      rw [link_left hfree.ne] at hi
      exact hi.elim (fun h => by cases h) (fun h => by cases h)
    · rintro rfl
      rw [link_right hfree.ne] at hi
      exact hi.elim (fun h => by cases h) (fun h => by cases h)
  refine ⟨h.file, t.uses h, t.once h, t.heldOnce h ?_, ?_, ?_, ?_, ?_, ?_, hs.wf (h.wf.link hfree), ?_, h.wrapped⟩
  · intro d hd
    cases hd
    exact Or.inl hheld
  · intro q
    by_cases hq : q = p
    · rw [hq, t.place_self]
      exact ⟨congrArg _ (link_left hfree.ne), (hf _ (fun _ _ _ => rfl) c).trans hsem, hw' hw⟩
    rw [t.place_of_ne hq]
    by_cases hqc : (s.place q).own = some c
    · obtain ⟨r, z, hr⟩ := hw
      have hqr := h.own_waiting hqc hr
      rw [← hqr] at hr
      cases hx : s.place q with
      | connectUp d u | connectDown d u =>
        rw [hx] at hr
        cases hr
        exact fun _ => congrArg LocalSocket.state (link_right hfree.ne)
      | _ =>
        rw [hx] at hr
        cases hr
    · refine Relies.of_slots (h.relies q) ?_ ?_
      · intro i hi
        have hia : i ≠ a := fun e => hq (h.once q p a (e ▸ hi) hown)
        have hic : i ≠ c := fun e => hqc (e ▸ hi)
        refine ⟨congrArg LocalSocket.connectedSocket (link_of_ne hia hic), ?_⟩
        exact fun hst => (congrArg LocalSocket.state (link_of_ne hia hic)).trans hst
      · intro d hd
        have hdc : d ≠ c := fun e => hq (h.heldOnce q p c (e ▸ hd) hheld)
        exact ⟨congrArg LocalSocket.connectedSocket (link_of_ne (hna' hd) hdc), hf _ (fun _ _ _ => rfl) d,
          hw' (h.of_held hd).2⟩
  · intro i hi hu
    obtain ⟨hia, hic⟩ := hne (Or.inr hu)
    have hl : s.tab.link a c i = s.tab i := link_of_ne hia hic
    change (s.tab.link a c i).state = _ at hu
    change (s.tab.link a c i).connectedSocket = _
    rw [hl] at hu ⊢
    exact h.unconnected i hi hu
  · intro i hi hu
    obtain ⟨hia, hic⟩ := hne (Or.inl hu)
    have hl : s.tab.link a c i = s.tab i := link_of_ne hia hic
    change (s.tab.link a c i).connectedSocket = _ at hu
    change (s.tab.link a c i).waitAcceptSem = _
    rw [hl] at hu ⊢
    exact h.sem i hi hu
  · intro z d hz hd
    have hd' : d ∈ (s.tab z).connectingList := hf LocalSocket.connectingList (fun _ _ _ => rfl) z ▸ hd
    obtain ⟨h1, ⟨q, h2⟩, h3⟩ := h.queue z d hz hd'
    have hdc : d ≠ c := by
      rintro rfl
      exact h3 p hheld
    refine ⟨(congrArg LocalSocket.connectedSocket (link_of_ne (hna h2) hdc)).trans h1, ⟨q, ?_⟩, ?_⟩
    · have hqp : q ≠ p := by
        rintro rfl
        rw [hpl] at h2
        cases h2
      rwa [t.place_of_ne hqp]
    · intro q hq
      refine h3 q (t.held_of (fun hx => ?_) hq)
      cases hx
      exact hheld
  · intro z hz
    exact hf LocalSocket.connectingList (fun _ _ _ => rfl) z ▸ h.nodup z hz
  · intro i
    rw [hs.refs, hfree.refs_link, ← h.ref i]
    exact hf _ (fun _ _ _ => rfl) i

end

end

end Inv

end LocalSys

end BabyOS
