import BabyOS.LocalRef

open Function Option

namespace BabyOS

namespace LocalSocket

variable (s : LocalSocket)

theorem acceptCon_or_waitData : acceptCon { s with flags := s.flags ||| sfWaitData } = s.acceptCon := by
  have h : sfAcceptCon &&& sfWaitData = 0 := by decide
  rw [acceptCon, acceptCon, BitVec.and_comm, BitVec.and_or_distrib_left, h, BitVec.and_comm]
  simp

theorem acceptCon_and_not_waitData : acceptCon { s with flags := s.flags &&& ~~~sfWaitData } = s.acceptCon := by
  have h : ~~~sfWaitData &&& sfAcceptCon = sfAcceptCon := by decide
  rw [acceptCon, acceptCon, BitVec.and_assoc, h]

theorem acceptCon_or_self : acceptCon { s with flags := s.flags ||| sfAcceptCon } = true := by
  rw [acceptCon, bne_iff_ne, BitVec.and_comm, BitVec.and_or_distrib_left, BitVec.and_self]
  intro h
  have hb := congrArg (fun w : Word => w.getLsbD 16) h
  simp [sfAcceptCon] at hb

end LocalSocket

namespace LocalSys

variable {Proc : Type} [DecidableEq Proc]

/-- A socket in use, bound to the address and listened on since its slot was last allocated. -/
def Live (s : LocalSys Proc) (x : LocalIx) (addr : SockAddrLocal) : Prop :=
  (s.tab x).ref ≠ 0 ∧ addr ∈ s.bound x ∧ s.listened x = true

/-- `release` of a socket leaves no slot that was listened on free. -/
def Spares (t : LocalTable) (x : LocalIx) (old : SockState) : Prop :=
  ∀ i, (t i).acceptCon → (t.drop x old i).ref ≠ 0

/-- A connect names a path, a slot is listened on only while it is counted as used, no release frees a slot that
was listened on, and no count of one wraps. -/
def Guarded (s : LocalSys Proc) : LocalAct Proc → Prop
  | .connect _ _ addr => addr.path ≠ []
  | .listen _ x => (s.tab x).ref ≠ 0
  | .close p x k => (s.files x)[k]? = some [p] → Spares (s.tab.leave x) x (s.tab x).state
  | .go p =>
    match s.place p with
    | .releaseLoop x old => Spares s.tab x old
    | .connectInc c | .acceptInc _ c _ => (s.tab c).acceptCon → (s.tab c).ref ≠ -1
    | _ => True
  | _ => True

structure Named (s : LocalSys Proc) : Prop where
  flag : ∀ i, (s.tab i).acceptCon → (s.tab i).ref ≠ 0 ∧ s.listened i = true ∧
    ((s.tab i).addr.path ≠ [] → (s.tab i).addr ∈ s.bound i)
  file : ∀ i, s.files i ≠ [] → (s.tab i).addr.path ≠ [] → (s.tab i).addr ∈ s.bound i
  adding : ∀ p c x addr, s.place p = .connectAdd c x addr → (s.tab x).acceptCon ∧ addr ∈ s.bound x

/-- A step that binds, listens on and allocates nothing, and frees no slot that was listened on. -/
structure Plain (s s' : LocalSys Proc) : Prop where
  flag : ∀ i, (s'.tab i).acceptCon = (s.tab i).acceptCon
  addr : ∀ i, (s'.tab i).addr = (s.tab i).addr
  ref : ∀ i, (s.tab i).acceptCon → (s.tab i).ref ≠ 0 → (s'.tab i).ref ≠ 0
  bound : s'.bound = s.bound
  listened : s'.listened = s.listened
  files : ∀ i, s'.files i ≠ [] → s.files i ≠ []
  place : ∀ p c x addr, s'.place p = .connectAdd c x addr → s.place p = .connectAdd c x addr

omit [DecidableEq Proc] in
theorem Named.plain {s s' : LocalSys Proc} (h : s.Named) (hp : Plain s s') : s'.Named := by
  refine ⟨?_, ?_, ?_⟩
  · intro i hi
    rw [hp.flag] at hi
    obtain ⟨hr, hl, hb⟩ := h.flag i hi
    rw [hp.addr, hp.bound, hp.listened]
    exact ⟨hp.ref i hi hr, hl, hb⟩
  · intro i hi
    rw [hp.addr, hp.bound]
    exact h.file i (hp.files i hi)
  · intro p c x addr hx
    rw [hp.flag, hp.bound]
    exact h.adding p c x addr (hp.place p c x addr hx)

namespace Plain

variable {s s' s'' : LocalSys Proc} {p : Proc}

section

omit [DecidableEq Proc]

theorem trans (h : Plain s s') (h' : Plain s' s'') : Plain s s'' where
  flag i := (h'.flag i).trans (h.flag i)
  addr i := (h'.addr i).trans (h.addr i)
  ref i hi hr := h'.ref i ((h.flag i).trans hi) (h.ref i hi hr)
  bound := h'.bound.trans h.bound
  listened := h'.listened.trans h.listened
  files i hi := h.files i (h'.files i hi)
  place p c x addr hx := h.place p c x addr (h'.place p c x addr hx)

theorem set (s : LocalSys Proc) {y : LocalIx} {v : LocalSocket} (hf : v.acceptCon = (s.tab y).acceptCon)
    (ha : v.addr = (s.tab y).addr) (hr : (s.tab y).acceptCon → (s.tab y).ref ≠ 0 → v.ref ≠ 0) :
    Plain s (s.set y v) := by
  refine ⟨set_field _ s hf, set_field _ s ha, ?_, rfl, rfl, fun _ => id, fun _ _ _ _ => id⟩
  intro i hi h0
  by_cases hy : i = y
  · subst hy
    rw [set_tab_self]
    exact hr hi h0
  · rwa [set_tab_of_ne s v hy]

theorem drop (s : LocalSys Proc) {x : LocalIx} {old : SockState} (h : Spares s.tab x old) :
    Plain s (s.drop x old) := by
  refine ⟨?_, ?_, fun i hi _ => h i hi, rfl, rfl, fun _ => id, fun _ _ _ _ => id⟩
  · exact fun i => drop_field LocalSocket.acceptCon (fun _ _ => rfl) (fun _ _ => rfl) old
  · exact fun i => drop_field LocalSocket.addr (fun _ _ => rfl) (fun _ _ => rfl) old

theorem leave (s : LocalSys Proc) (x : LocalIx) : Plain s { s with tab := s.tab.leave x } := by
  refine ⟨?_, ?_, ?_, rfl, rfl, fun _ => id, fun _ _ _ _ => id⟩
  · exact fun i => leave_field LocalSocket.acceptCon fun _ _ => rfl
  · exact fun i => leave_field LocalSocket.addr fun _ _ => rfl
  · intro i _ hr
    change (s.tab.leave x i).ref ≠ 0
    rwa [leave_field LocalSocket.ref fun _ _ => rfl]

theorem link (s : LocalSys Proc) (a c : LocalIx) : Plain s { s with tab := s.tab.link a c } := by
  have hf : ∀ {β : Type} (f : LocalSocket → β), (∀ v peer state, f { v with connectedSocket := peer, state } = f v) →
      ∀ i, f (s.tab.link a c i) = f (s.tab i) := by
    intro β f hf i
    by_cases hac : a = c
    · subst hac
      by_cases hi : i = a
      · simp [LocalTable.link, hi, hf]
      · simp [LocalTable.link, hi]
    · exact link_field f hac hf
  refine ⟨hf _ fun _ _ _ => rfl, hf _ fun _ _ _ => rfl, ?_, rfl, rfl, fun _ => id, fun _ _ _ _ => id⟩
  intro i _ hr
  exact fun h0 => hr ((hf LocalSocket.ref (fun _ _ _ => rfl) i).symm.trans h0)

end

theorem move (s : LocalSys Proc) (p : Proc) {z : LocalPlace} (hz : ∀ c x addr, z ≠ .connectAdd c x addr) :
    Plain s (s.move p z) := by
  refine ⟨fun _ => rfl, fun _ => rfl, fun _ _ => id, rfl, rfl, fun _ => id, ?_⟩
  intro q c x addr hq
  by_cases hqp : q = p
  · simp only [LocalSys.move, hqp, update_self] at hq
    exact absurd hq (hz c x addr)
  · simpa only [LocalSys.move, update_of_ne hqp] using hq

theorem setMove {y : LocalIx} {v : LocalSocket} {z : LocalPlace} (hf : v.acceptCon = (s.tab y).acceptCon)
    (ha : v.addr = (s.tab y).addr) (hr : (s.tab y).acceptCon → (s.tab y).ref ≠ 0 → v.ref ≠ 0)
    (hz : ∀ c x addr, z ≠ .connectAdd c x addr) : Plain s ((s.set y v).move p z) :=
  (set s hf ha hr).trans (move _ p hz)

theorem release (s : LocalSys Proc) {x : LocalIx} (h : Spares (s.tab.leave x) x (s.tab x).state) :
    Plain s (s.release p x) := by
  rw [LocalSys.release]
  split
  · exact (leave s x).trans (drop _ h)
  · refine (leave s x).trans ((move _ p (z := .releaseLoop x (s.tab x).state) ?_).trans ?_)
    · exact fun c y addr hz => by cases hz
    · exact ⟨fun _ => rfl, fun _ => rfl, fun _ _ => id, rfl, rfl, fun _ => id, fun _ _ _ _ => id⟩

theorem go {s s' : LocalSys Proc} (hG : s.Guarded (.go p)) (hg : s.go p = some s') : Plain s s' := by
  rw [Guarded] at hG
  cases hpl : s.place p <;> simp only [LocalSys.go, hpl] at hg
  case outside => cases hg
  case connectAdd c y addr =>
    obtain ⟨_, he⟩ := ite_none_left_eq_some.mp hg
    cases he
    exact setMove rfl rfl (fun _ => id) fun _ _ _ hz => by cases hz
  case connectUp | acceptUp =>
    cases hg
    exact setMove rfl rfl (fun _ => id) fun _ _ _ hz => by cases hz
  case connectDown c y =>
    obtain ⟨_, he⟩ := ite_none_left_eq_some.mp hg
    cases he
    refine setMove rfl rfl (fun _ => id) fun d x addr hz => ?_
    split at hz
    · cases hz
    · cases hz
  case connectInc | acceptInc =>
    cases hg
    rw [hpl] at hG
    exact setMove rfl rfl (fun hc _ h0 => hG hc (eq_neg_of_add_eq_zero_left h0)) fun _ _ _ hz => by cases hz
  case acceptCheck y a =>
    split at hg
    · cases hg
      exact setMove (LocalSocket.acceptCon_or_waitData _) rfl (fun _ => id) fun _ _ _ hz => by cases hz
    · cases hg
      exact move s p fun _ _ _ hz => by cases hz
  case acceptDown y a =>
    obtain ⟨_, he⟩ := ite_none_left_eq_some.mp hg
    cases he
    exact setMove (LocalSocket.acceptCon_and_not_waitData { s.tab y with
      waitConnectSem := (s.tab y).waitConnectSem - 1 }) rfl (fun _ => id) fun _ _ _ hz => by cases hz
  case acceptPop y a =>
    obtain ⟨_, he⟩ := ite_none_left_eq_some.mp hg
    split at he
    · cases he
    · cases he
      exact setMove rfl rfl (fun _ => id) fun _ _ _ hz => by cases hz
  case acceptLink y a c =>
    cases hg
    exact (link s a c).trans (move _ p fun _ _ _ hz => by cases hz)
  case releaseLoop y old =>
    rw [hpl] at hG
    split at hg
    · cases hg
      refine (drop s hG).trans ((move _ p (z := .outside) fun _ _ _ hz => by cases hz).trans ?_)
      exact ⟨fun _ => rfl, fun _ => rfl, fun _ _ => id, rfl, rfl, fun _ => id, fun _ _ _ _ => id⟩
    · cases hg
      exact set s rfl rfl fun _ => id

end Plain

theorem step_connect {s s' : LocalSys Proc} {p : Proc} {c : LocalIx} {addr : SockAddrLocal}
    (h : s.step (.connect p c addr) = some s') :
    s' = s ∨ ∃ x, findServer s.tab addr = some x ∧ s' = s.move p (.connectAdd c x addr) := by
  obtain ⟨_, he⟩ := ite_none_right_eq_some.mp h
  split at he
  · split at he
    · exact Or.inl (some.inj he).symm
    · next x hx => exact Or.inr ⟨x, hx, (some.inj he).symm⟩
  · exact Or.inl (some.inj he).symm

namespace Named

variable {s s' : LocalSys Proc} {p : Proc} {i x : LocalIx}

section

omit [DecidableEq Proc]

theorem create (h : s.Named) (h0 : (s.tab i).ref = 0) : (s.create i).Named := by
  have hn : (s.tab i).acceptCon ≠ true := fun hi => (h.flag i hi).1 h0
  have hself : (s.create i).tab i = (s.tab i).create := set_tab_self s i _
  have hne : ∀ {j}, j ≠ i → (s.create i).tab j = s.tab j := fun hj => set_tab_of_ne s _ hj
  have hb : ∀ {j}, j ≠ i → (s.create i).bound j = s.bound j := fun hj => by simp [LocalSys.create, hj]
  have hl : ∀ {j}, j ≠ i → (s.create i).listened j = s.listened j := fun hj => by simp [LocalSys.create, hj]
  refine ⟨?_, ?_, ?_⟩
  · intro j hj
    by_cases hji : j = i
    · rw [hji, hself] at hj
      exact absurd hj hn
    · rw [hne hji] at hj ⊢
      rw [hb hji, hl hji]
      exact h.flag j hj
  · intro j hj hp
    by_cases hji : j = i
    · rw [hji, hself] at hp
      exact absurd rfl hp
    · rw [hne hji] at hp ⊢
      rw [hb hji]
      exact h.file j hj hp
  · intro p c y addr hy
    obtain ⟨hf, ha⟩ := h.adding p c y addr hy
    have hyi : y ≠ i := fun e => hn (e ▸ hf)
    rw [hne hyi, hb hyi]
    exact ⟨hf, ha⟩

theorem bind (h : s.Named) (x : LocalIx) (addr : SockAddrLocal) :
    { s with
      tab := update s.tab x { s.tab x with addr }
      bound := update s.bound x (addr :: s.bound x) }.Named := by
  have hf := fun {β : Type} (f : LocalSocket → β) (hf : f { s.tab x with addr } = f (s.tab x)) (i : LocalIx) =>
    set_field f s hf i
  have hcon := hf LocalSocket.acceptCon rfl
  have hnamed : ∀ i, ((s.tab i).addr.path ≠ [] → (s.tab i).addr ∈ s.bound i) →
      (update s.tab x { s.tab x with addr } i).addr.path ≠ [] →
      (update s.tab x { s.tab x with addr } i).addr ∈ update s.bound x (addr :: s.bound x) i := by
    intro i hi hp
    by_cases hix : i = x
    · subst hix
      rw [update_self, update_self]
      exact List.mem_cons_self
    · rw [update_of_ne hix] at hp
      rw [update_of_ne hix, update_of_ne hix]
      exact hi hp
  refine ⟨?_, fun i hi => hnamed i (h.file i hi), ?_⟩
  · intro i hi
    obtain ⟨hr, hl, hb⟩ := h.flag i ((hcon i).symm.trans hi)
    exact ⟨fun h0 => hr ((hf _ rfl i).symm.trans h0), hl, hnamed i hb⟩
  · intro p c y addr' hy
    obtain ⟨h1, h2⟩ := h.adding p c y addr' hy
    refine ⟨(hcon y).trans h1, ?_⟩
    by_cases hyx : y = x
    · subst hyx
      simp only [update_self]
      exact List.mem_cons_of_mem _ h2
    · simpa only [update_of_ne hyx] using h2

theorem listen (h : s.Named) (h0 : (s.tab x).ref ≠ 0) (hx : s.files x ≠ []) :
    { s.set x { s.tab x with flags := (s.tab x).flags ||| sfAcceptCon } with
      listened := update s.listened x true }.Named := by
  set v := { s.tab x with flags := (s.tab x).flags ||| sfAcceptCon } with hv
  have haddr := set_field LocalSocket.addr s (i := x) (v := v) rfl
  have hlive : ∀ i, i ≠ x → (s.set x v).tab i = s.tab i := fun i hi => set_tab_of_ne s v hi
  refine ⟨?_, ?_, ?_⟩
  · intro i hi
    by_cases hix : i = x
    · subst hix
      refine ⟨?_, update_self i true s.listened, ?_⟩
      · change ((s.set i v).tab i).ref ≠ 0
        rwa [set_tab_self]
      · rw [haddr i]
        exact h.file i hx
    · rw [hlive i hix] at hi ⊢
      obtain ⟨h1, h2, h3⟩ := h.flag i hi
      exact ⟨h1, (update_of_ne hix true s.listened).trans h2, h3⟩
  · intro i hi
    rw [haddr i]
    exact h.file i hi
  · intro p c y addr hy
    obtain ⟨h1, h2⟩ := h.adding p c y addr hy
    refine ⟨?_, h2⟩
    by_cases hyx : y = x
    · rw [hyx, set_tab_self]
      exact LocalSocket.acceptCon_or_self _
    · rwa [hlive y hyx]

theorem found (h : s.Named) {addr : SockAddrLocal} (hp : addr.path ≠ []) (hx : findServer s.tab addr = some x) :
    (s.tab x).acceptCon ∧ addr ∈ s.bound x := by
  obtain ⟨_, hx⟩ := ite_none_right_eq_some.mp hx
  obtain ⟨hl, hf⟩ := filter_eq_some_iff.mp hx
  have ha := eq_of_beq (List.find?_some (p := fun i => (s.tab i).addr == addr) hl)
  subst ha
  have hflag := (Bool.and_eq_true_iff.mp hf).2
  exact ⟨hflag, (h.flag x hflag).2.2 hp⟩

theorem live (h : s.Named) {addr : SockAddrLocal} (hf : (s.tab x).acceptCon) (hb : addr ∈ s.bound x) :
    s.Live x addr :=
  ⟨(h.flag x hf).1, hb, (h.flag x hf).2.1⟩

end

theorem release (h : s.Named) (hf : (s.tab x).acceptCon = false) (hp : (s.tab x).connectedSocket = none) :
    (s.release p x).Named := by
  have hl := h.plain (Plain.leave s x)
  refine h.plain (Plain.release s fun i hi => ?_)
  have hix : i ≠ x := by
    rintro rfl
    rw [leave_field LocalSocket.acceptCon fun _ _ => rfl, hf] at hi
    cases hi
  rw [drop_none _ ((leave_field LocalSocket.connectedSocket fun _ _ => rfl).trans hp), decRef_ref, if_neg hix]
  exact (hl.flag i hi).1

theorem release_tab {β : Type} (f : LocalSocket → β) (hs : ∀ v state, f { v with state } = f v)
    (hr : ∀ v ref, f { v with ref } = f v) (i : LocalIx) : f ((s.release p x).tab i) = f (s.tab i) := by
  rw [LocalSys.release]
  split
  · exact (drop_field f hs hr _).trans (leave_field f hs)
  · exact leave_field f hs

theorem install (h : s.Named) (ha : s.tab.allocLocalSocket = some i) (file fd : Bool) {z : LocalPlace}
    (hz : ∀ c x addr, z ≠ .connectAdd c x addr) : ((s.create i).install p i file fd z).Named := by
  have h0 := ref_of_alloc ha
  have hc := h.create h0
  have hself : (s.create i).tab i = (s.tab i).create := set_tab_self s i _
  have hf : ((s.create i).tab i).acceptCon = false := by
    rw [hself]
    by_contra hn
    exact (h.flag i (Bool.eq_true_of_not_eq_false hn)).1 h0
  have hp : ((s.create i).tab i).connectedSocket = none := by
    rw [hself]
    rfl
  have hr := hc.release (p := p) hf hp
  cases file with
  | false => exact hr
  | true =>
    cases fd with
    | false =>
      refine hr.release ?_ ?_
      · exact (release_tab LocalSocket.acceptCon (fun _ _ => rfl) (fun _ _ => rfl) i).trans hf
      · exact (release_tab LocalSocket.connectedSocket (fun _ _ => rfl) (fun _ _ => rfl) i).trans hp
    | true =>
      have hm := hc.plain (Plain.move (s.create i) p hz)
      refine ⟨hm.flag, ?_, hm.adding⟩
      intro j hj hpath
      have hji : j ≠ i := by
        rintro rfl
        refine hpath ?_
        change ((s.create j).tab j).addr.path = []
        rw [hself]
        rfl
      refine hm.file j ?_ hpath
      change update s.files i _ j ≠ [] at hj
      rwa [update_of_ne hji] at hj

theorem step (h : s.Named) {a : LocalAct Proc} (hG : s.Guarded a) (hs : s.step a = some s') : s'.Named := by
  cases a with
  | fork p q =>
    obtain ⟨_, he⟩ := ite_none_right_eq_some.mp hs
    cases he
    refine h.plain ⟨fun _ => rfl, fun _ => rfl, fun _ _ => id, rfl, rfl, ?_, fun _ _ _ _ => id⟩
    exact fun i hi h0 => hi (List.map_eq_nil_iff.mpr h0)
  | socket p file fd =>
    obtain ⟨_, he⟩ := ite_none_right_eq_some.mp hs
    split at he
    · cases he
      exact h
    · next i ha =>
      cases he
      exact h.install ha file fd fun _ _ _ hz => by cases hz
  | bind p x addr =>
    obtain ⟨_, he⟩ := ite_none_right_eq_some.mp hs
    split at he
    · cases he
      exact h
    · next tab htab =>
      cases he
      obtain ⟨_, ht⟩ := ite_none_left_eq_some.mp htab
      cases ht
      exact h.bind x addr
  | listen p x =>
    obtain ⟨⟨_, hh⟩, he⟩ := ite_none_right_eq_some.mp hs
    split at he
    · cases he
      exact h.listen hG (files_ne_of_holds hh)
    · cases he
      exact h
  | accept p server file fd =>
    obtain ⟨_, he⟩ := ite_none_right_eq_some.mp hs
    split at he
    · split at he
      · cases he
        exact h
      · next a ha =>
        cases he
        exact h.install ha file fd fun _ _ _ hz => by cases hz
    · cases he
      exact h
  | connect p c addr =>
    rcases step_connect hs with rfl | ⟨y, hy, rfl⟩
    · exact h
    obtain ⟨hf, hb⟩ := h.found hG hy
    refine ⟨h.flag, h.file, ?_⟩
    intro q d z addr' hq
    by_cases hqp : q = p
    · simp only [move, hqp, update_self] at hq
      cases hq
      exact ⟨hf, hb⟩
    · simp only [move, update_of_ne hqp] at hq
      exact h.adding q d z addr' hq
  | close p x k =>
    have hfiles : ∀ {f : List (List Proc)} {j}, (f ≠ [] → s.files x ≠ []) → update s.files x f j ≠ [] →
        s.files j ≠ [] := by
      intro f j hf hj
      by_cases hjx : j = x
      · subst hjx
        rw [update_self] at hj
        exact hf hj
      · rwa [update_of_ne hjx] at hj
    cases hk : (s.files x)[k]? with
    | none =>
      simp only [LocalSys.step, hk] at hs
      cases hs
    | some ps =>
      simp only [LocalSys.step, hk] at hs
      obtain ⟨⟨_, hps⟩, he⟩ := ite_none_right_eq_some.mp hs
      have hx : s.files x ≠ [] := by
        intro h0
        rw [h0] at hk
        cases hk
      split at he
      · next hq =>
        cases he
        obtain rfl := Inv.eq_singleton_of_erase hps hq
        refine h.plain (Plain.trans ?_ (Plain.release _ (hG hk)))
        exact ⟨fun _ => rfl, fun _ => rfl, fun _ _ => id, rfl, rfl, fun _ => hfiles fun _ => hx, fun _ _ _ _ => id⟩
      · cases he
        refine h.plain ?_
        exact ⟨fun _ => rfl, fun _ => rfl, fun _ _ => id, rfl, rfl, fun _ => hfiles fun _ => hx, fun _ _ _ _ => id⟩
  | go p => exact h.plain (Plain.go hG hs)

end Named

/-- In every guarded run from a table with no listener, a connect that names a path returns at once or goes to a
live listener, which is still live when the caller is put on its list. -/
theorem connect_reaches_live {s s' : LocalSys Proc} {as : List (LocalAct Proc)} (hs : s.Start)
    (hf : ∀ i, (s.tab i).acceptCon = false) (ha : Along step Guarded s as) (hr : run step s as = some s') :
    (∀ p c addr s'', addr.path ≠ [] → s'.step (.connect p c addr) = some s'' →
      s'' = s' ∨ ∃ x, s'' = s'.move p (.connectAdd c x addr) ∧ s'.Live x addr) ∧
    ∀ p c x addr, s'.place p = .connectAdd c x addr → s'.Live x addr := by
  have hnamed : s.Named := by
    refine ⟨fun i hi => ?_, fun i hi => absurd (hs.files i) hi, fun p c x addr hp => ?_⟩
    · rw [hf] at hi
      cases hi
    · rw [hs.place] at hp
      cases hp
  have h := run_invariant (fun _ _ _ h hG ht => h.step hG ht) hnamed ha hr
  refine ⟨?_, ?_⟩
  · intro p c addr s'' hp hst
    rcases step_connect hst with he | ⟨x, hx, he⟩
    · exact Or.inl he
    · obtain ⟨h1, h2⟩ := h.found hp hx
      exact Or.inr ⟨x, he, h.live h1 h2⟩
  · intro p c x addr hp
    obtain ⟨h1, h2⟩ := h.adding p c x addr hp
    exact h.live h1 h2

end LocalSys

namespace LocalDemo

open LocalSys

theorem boot_unlistened (i : LocalIx) : (boot.tab i).acceptCon = false := by
  simp [boot, LocalSocket.acceptCon]

def serve : List (LocalAct Bool) :=
  [.socket false true true, .bind false 0 path, .listen false 0, .socket true true true]

theorem connect_reaches_live_serve :
    ∃ s s', run step boot serve = some s ∧ s.step (.connect true 1 path) = some s' ∧
      s'.place true = .connectAdd 1 0 path ∧ s.Live 0 path := by
  obtain ⟨s, hs⟩ : ∃ s, run step boot serve = some s := ⟨_, rfl⟩
  have ha : Along step Guarded boot serve := by
    iterate 2 refine along_cons trivial rfl ?_
    refine along_cons (fun h => by cases h) rfl ?_
    refine along_cons trivial rfl ?_
    trivial
  have hp : path.path ≠ [] := fun h => by cases h
  obtain ⟨hreach, _⟩ := connect_reaches_live boot_start boot_unlistened ha hs
  obtain ⟨s', hs'⟩ : ∃ s', s.step (.connect true 1 path) = some s' := by
    cases hs
    exact ⟨_, rfl⟩
  have hpl : s'.place true = .connectAdd 1 0 path := by
    cases hs
    cases hs'
    rfl
  refine ⟨s, s', hs, hs', hpl, ?_⟩
  rcases hreach true 1 path s' hp hs' with rfl | ⟨x, rfl, hl⟩
  · cases hs
    cases hpl
  · simp only [move, update_self, LocalPlace.connectAdd.injEq] at hpl
    exact hpl.2.1 ▸ hl

/-- A connect reaches a listener that was closed, a slot whose new owner never listened, and with an
empty path a listener that was never bound. -/
theorem connect_reaches_stale :
    (∃ s, run step boot (serve ++ [.close false 0 0, .connect true 1 path]) = some s ∧
      s.place true = .connectAdd 1 0 path ∧ (s.tab 0).ref = 0) ∧
    (∃ s, run step boot (serve ++ [.close false 0 0, .socket false true true, .bind false 0 path,
        .connect true 1 path]) = some s ∧
      s.place true = .connectAdd 1 0 path ∧ s.listened 0 = false) ∧
    ∃ s, run step boot (serve ++ [.close false 0 0, .socket false true true, .listen false 0,
        .connect true 1 ⟨afLocal, []⟩]) = some s ∧
      s.place true = .connectAdd 1 0 ⟨afLocal, []⟩ ∧ s.bound 0 = [] := by
  refine ⟨⟨_, rfl, rfl, rfl⟩, ⟨_, rfl, rfl, rfl⟩, ⟨_, rfl, rfl, rfl⟩⟩

end LocalDemo

end BabyOS
