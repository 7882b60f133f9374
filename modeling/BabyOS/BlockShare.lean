import BabyOS.BlockDev

open Function

namespace BabyOS

inductive BlockPhase
  | idle
  | waiting (b : Nat) (lba : Word)
  | releasing (b : Nat)

structure BlockUser where
  held : List Nat
  phase : BlockPhase

structure SharedCache where
  dev : BlockDev
  users : Nat → BlockUser

/-- The critical sections of `get_block` and `release_block`, and the operations on the semaphore of the buffer.
-/
inductive BlockAct
  | lookup (p : Nat) (lba : Word)
  | lock (p : Nat)
  | putBack (p b : Nat)
  | unlock (p : Nat)

namespace SharedCache

def setUser (s : SharedCache) (p : Nat) (dev : BlockDev) (u : BlockUser) : SharedCache :=
  ⟨dev, update s.users p u⟩

def step (s : SharedCache) : BlockAct → Option SharedCache
  | .lookup p lba =>
    match (s.users p).phase with
    | .idle => (s.dev.lookup lba).map fun r => s.setUser p r.2 { s.users p with phase := .waiting r.1 lba }
    | _ => none
  | .lock p =>
    match (s.users p).phase with
    | .waiting b _ => (s.dev.lock b).map fun dev => s.setUser p dev ⟨b :: (s.users p).held, .idle⟩
    | _ => none
  | .putBack p b =>
    match (s.users p).phase with
    | .idle =>
      if b ∈ (s.users p).held then some (s.setUser p (s.dev.putBack b) { s.users p with phase := .releasing b })
      else none
    | _ => none
  | .unlock p =>
    match (s.users p).phase with
    | .releasing b => some (s.setUser p (s.dev.unlock b) ⟨(s.users p).held.erase b, .idle⟩)
    | _ => none

def init (bufNum : Nat) (mem : Nat → Block) : SharedCache := ⟨BlockDev.init bufNum mem, fun _ => ⟨[], .idle⟩⟩

def Held (s : SharedCache) (b : Nat) : Prop := ∃ p, b ∈ (s.users p).held

/-- A process has the buffer's lock, or `get_block` has picked the buffer for it. -/
def InUse (s : SharedCache) (b : Nat) : Prop := s.Held b ∨ ∃ p lba, (s.users p).phase = .waiting b lba

/-- No two of the buffers that are held or cached are associated with the same block. -/
def Exclusive (s : SharedCache) : Prop :=
  ∀ b c, b ∈ s.dev.usedList ∨ s.Held b → c ∈ s.dev.usedList ∨ s.Held c →
    (s.dev.bufs b).lba = (s.dev.bufs c).lba → b = c

/-- A block outside the used list is looked up only while no process uses a buffer for it and, where no buffer
is free, none uses the front of the used list. -/
def Careful (s : SharedCache) : BlockAct → Prop
  | .lookup _ lba => s.dev.hit lba = none → (∀ b, s.InUse b → (s.dev.bufs b).lba ≠ lba) ∧
      (s.dev.freeList = [] → ∀ b, s.dev.usedList.head? = some b → ¬s.InUse b)
  | _ => True

section

variable {s s' : SharedCache} {p b c : Nat} {lba : Word}

def Live (s : SharedCache) (b : Nat) : Prop := b ∈ s.dev.usedList ∨ s.InUse b

structure Inv (s : SharedCache) : Prop where
  once : ∀ b c, s.Live b → s.Live c → (s.dev.bufs b).lba = (s.dev.bufs c).lba → b = c
  nodup : s.dev.freeList.Nodup
  free : ∀ b ∈ s.dev.freeList, ¬s.Live b
  waiting : ∀ p b lba, (s.users p).phase = .waiting b lba → (s.dev.bufs b).lba = lba
  releasing : ∀ p b, (s.users p).phase = .releasing b → b ∈ (s.users p).held

theorem inv_init (bufNum : Nat) (mem : Nat → Block) : Inv (init bufNum mem) where
  once := by simp [Live, InUse, Held, init, BlockDev.init]
  nodup := List.nodup_range
  free := by simp [Live, InUse, Held, init, BlockDev.init]
  waiting := by simp [init]
  releasing := by simp [init]

theorem setUser_self {dev : BlockDev} {u : BlockUser} : (s.setUser p dev u).users p = u := update_self _ _ _

variable {dev : BlockDev} {u : BlockUser}

theorem setUser_of_ne {q : Nat} (h : q ≠ p) : (s.setUser p dev u).users q = s.users q :=
  update_of_ne h _ _

theorem inUse_setUser (h : (s.setUser p dev u).InUse b) :
    s.InUse b ∨ b ∈ u.held ∨ ∃ lba, u.phase = .waiting b lba := by
  rcases h with ⟨q, hq⟩ | ⟨q, lba, hq⟩
  · by_cases hqp : q = p
    · rw [hqp, setUser_self] at hq
      exact Or.inr (Or.inl hq)
    · rw [setUser_of_ne hqp] at hq
      exact Or.inl (Or.inl ⟨q, hq⟩)
  · by_cases hqp : q = p
    · rw [hqp, setUser_self] at hq
      exact Or.inr (Or.inr ⟨lba, hq⟩)
    · rw [setUser_of_ne hqp] at hq
      exact Or.inl (Or.inr ⟨q, lba, hq⟩)

theorem Inv.setUser (h : Inv s) (hlba : ∀ b, (dev.bufs b).lba = (s.dev.bufs b).lba)
    (hfree : dev.freeList = s.dev.freeList) (hused : ∀ b ∈ dev.usedList, s.Live b) (hheld : ∀ b ∈ u.held, s.Live b)
    (hwait : ∀ b lba, u.phase = .waiting b lba → s.Live b ∧ (s.dev.bufs b).lba = lba)
    (hrel : ∀ b, u.phase = .releasing b → b ∈ u.held) : Inv (s.setUser p dev u) := by
  have hlive : ∀ b, (s.setUser p dev u).Live b → s.Live b := by
    rintro b (hb | hb)
    · exact hused b hb
    · rcases inUse_setUser hb with hb | hb | ⟨lba, hb⟩
      · exact Or.inr hb
      · exact hheld b hb
      · exact (hwait b lba hb).1
  refine ⟨fun b c hb hc he => ?_, ?_, fun b hb hl => ?_, fun q b lba hq => ?_, fun q b hq => ?_⟩
  · exact h.once b c (hlive b hb) (hlive c hc) ((hlba b).symm.trans (he.trans (hlba c)))
  · exact hfree ▸ h.nodup
  · exact h.free b (hfree ▸ hb) (hlive b hl)
  · refine (hlba b).trans ?_
    by_cases hqp : q = p
    · rw [hqp, setUser_self] at hq
      exact (hwait b lba hq).2
    · rw [setUser_of_ne hqp] at hq
      exact h.waiting q b lba hq
  · by_cases hqp : q = p
    · rw [hqp, setUser_self] at hq ⊢
      exact hrel b hq
    · rw [setUser_of_ne hqp] at hq ⊢
      exact h.releasing q b hq

theorem Inv.recycled (h : Inv s) (hlook : s.dev.lookup lba = some (b, dev)) (hmiss : s.dev.hit lba = none)
    (hcare : s.Careful (.lookup p lba)) : ¬s.InUse b ∧ (∀ c ≠ b, dev.bufs c = s.dev.bufs c) ∧
      Inv (s.setUser p dev { s.users p with phase := .waiting b lba }) := by
  obtain ⟨hother, hfront⟩ := hcare hmiss
  have hcached := BlockDev.hit_none hmiss
  rcases BlockDev.lookup_cases hlook with ⟨hhit, -⟩ | ⟨-, used, free, hdev, hfrom⟩
  · rw [hmiss] at hhit
    simp at hhit
  dsimp only at hdev hfrom
  have hself : (dev.bufs b).lba = lba := by rw [hdev, BlockDev.mapBuf_self]
  have hkeep : ∀ c ≠ b, dev.bufs c = s.dev.bufs c := fun c hc => by rw [hdev, BlockDev.mapBuf_of_ne hc]
  have hlists : dev.usedList = used ∧ dev.freeList = free := by rw [hdev]; exact ⟨rfl, rfl⟩
  have hin : (∀ c ∈ used, c ∈ s.dev.usedList) ∧ free.Nodup ∧ (∀ c ∈ free, c ∈ s.dev.freeList) ∧ b ∉ free ∧
      ¬s.InUse b := by
    have hnodup := h.nodup
    rcases hfrom with ⟨hf, hu⟩ | ⟨hf, hfree, hu⟩
    · have hb : b ∈ s.dev.freeList := by rw [hf]; exact List.mem_cons_self
      rw [hf, List.nodup_cons] at hnodup
      rw [hu, hf]
      exact ⟨fun _ hc => hc, hnodup.2, fun c hc => List.mem_cons_of_mem b hc, hnodup.1,
        fun hb' => h.free b hb (Or.inr hb')⟩
    · rw [hfree, hu]
      exact ⟨fun c hc => List.mem_cons_of_mem b hc, List.nodup_nil, by simp, by simp, hfront hf b (by rw [hu]; rfl)⟩
  obtain ⟨hused, hnodup, hfree, hb, hnot⟩ := hin
  have hlive : ∀ c, (s.setUser p dev { s.users p with phase := .waiting b lba }).Live c → c ≠ b → s.Live c := by
    rintro c (hc | hc) hcb
    · rw [show (s.setUser p dev _).dev = dev from rfl, hlists.1] at hc
      exact Or.inl (hused c hc)
    · rcases inUse_setUser hc with hc | hc | ⟨l, hc⟩
      · exact Or.inr hc
      · exact Or.inr (Or.inl ⟨p, hc⟩)
      · cases hc
        exact absurd rfl hcb
  have hne : ∀ c, s.Live c → (s.dev.bufs c).lba ≠ lba := by
    rintro c (hc | hc)
    · exact hcached c hc
    · exact hother c hc
  refine ⟨hnot, hkeep, fun c e hc he heq => ?_, ?_, fun c hc hl => ?_, fun q c l hq => ?_, fun q c hq => ?_⟩
  · have heq : (dev.bufs c).lba = (dev.bufs e).lba := heq
    by_cases hcb : c = b
    · by_cases heb : e = b
      · rw [hcb, heb]
      · rw [hcb, hself, hkeep e heb] at heq
        exact absurd heq.symm (hne e (hlive e he heb))
    · by_cases heb : e = b
      · rw [heb, hself, hkeep c hcb] at heq
        exact absurd heq (hne c (hlive c hc hcb))
      · rw [hkeep c hcb, hkeep e heb] at heq
        exact h.once c e (hlive c hc hcb) (hlive e he heb) heq
  · exact hlists.2 ▸ hnodup
  · have hc : c ∈ free := hlists.2 ▸ hc
    have hcb : c ≠ b := fun he => hb (he ▸ hc)
    exact h.free c (hfree c hc) (hlive c hl hcb)
  · by_cases hqp : q = p
    · rw [hqp, setUser_self] at hq
      cases hq
      exact hself
    · rw [setUser_of_ne hqp] at hq
      have hcb : c ≠ b := fun he => hnot (Or.inr ⟨q, l, he ▸ hq⟩)
      exact (congrArg IoBuffer.lba (hkeep c hcb)).trans (h.waiting q c l hq)
  · by_cases hqp : q = p
    · rw [hqp, setUser_self] at hq
      cases hq
    · rw [setUser_of_ne hqp] at hq ⊢
      exact h.releasing q c hq

theorem Inv.step (h : Inv s) {a : BlockAct} (hcare : s.Careful a) (hs : s.step a = some s') :
    Inv s' ∧ ∀ b, s.InUse b → (s'.dev.bufs b).lba = (s.dev.bufs b).lba := by
  cases a with
  | lookup p lba =>
    simp only [SharedCache.step] at hs
    split at hs
    next =>
      obtain ⟨⟨b, dev⟩, hlook, hr⟩ := Option.map_eq_some_iff.mp hs
      cases hr
      cases hhit : s.dev.hit lba with
      | some c =>
        rcases BlockDev.lookup_cases hlook with ⟨hb, hdev⟩ | ⟨hmiss, -⟩
        · obtain ⟨hmem, hlba⟩ := BlockDev.hit_some hb
          subst hdev
          refine ⟨h.setUser (fun _ => rfl) rfl (fun c hc => Or.inl hc) (fun c hc => Or.inr (Or.inl ⟨p, hc⟩))
            (fun c l hc => ?_) (fun c hc => ?_), fun _ _ => rfl⟩
          · cases hc
            exact ⟨Or.inl hmem, hlba⟩
          · cases hc
        · rw [hhit] at hmiss
          simp at hmiss
      | none =>
        obtain ⟨hnot, hkeep, hinv⟩ := h.recycled hlook hhit hcare
        exact ⟨hinv, fun c hc => congrArg IoBuffer.lba (hkeep c fun he => hnot (he ▸ hc))⟩
    next => simp at hs
  | lock p =>
    simp only [SharedCache.step] at hs
    split at hs
    next b lba hwait =>
      obtain ⟨dev, hlock, hr⟩ := Option.map_eq_some_iff.mp hs
      cases hr
      unfold BlockDev.lock at hlock
      split_ifs at hlock
      cases hlock
      have hlba := BlockDev.mapBuf_field (d := s.dev) (b := b) (f := fun e => { e with sem := e.sem - 1 }) IoBuffer.lba rfl
      refine ⟨h.setUser hlba rfl (fun c hc => Or.inl hc) (fun c hc => ?_) (by simp) (by simp), fun c _ => hlba c⟩
      rcases List.mem_cons.mp hc with rfl | hc
      · exact Or.inr (Or.inr ⟨p, lba, hwait⟩)
      · exact Or.inr (Or.inl ⟨p, hc⟩)
    next => simp at hs
  | putBack p b =>
    simp only [SharedCache.step] at hs
    split at hs
    next =>
      split_ifs at hs with hmem
      cases hs
      refine ⟨h.setUser (fun _ => rfl) rfl (fun c hc => ?_) (fun c hc => Or.inr (Or.inl ⟨p, hc⟩)) (by simp)
        (fun c hc => ?_), fun _ _ => rfl⟩
      · rcases List.mem_append.mp hc with hc | hc
        · exact Or.inl hc
        · exact Or.inr (Or.inl ⟨p, List.mem_singleton.mp hc ▸ hmem⟩)
      · cases hc
        exact hmem
    next => simp at hs
  | unlock p =>
    simp only [SharedCache.step] at hs
    split at hs
    next b hrel =>
      cases hs
      have hlba := BlockDev.mapBuf_field (d := s.dev) (b := b) (f := fun e => { e with sem := e.sem + 1 }) IoBuffer.lba rfl
      exact ⟨h.setUser hlba rfl (fun c hc => Or.inl hc) (fun c hc => Or.inr (Or.inl ⟨p, List.mem_of_mem_erase hc⟩))
        (by simp) (by simp), fun c _ => hlba c⟩
    next => simp at hs

/-- In every run of careful lookups the buffers held or cached are of different blocks, no held buffer gets a
new block, and `get_block` returns a buffer of the block asked for. -/
theorem block_run_exclusive {bufNum : Nat} {mem : Nat → Block} {acts : List BlockAct}
    (hcare : Along SharedCache.step Careful (init bufNum mem) acts)
    (hrun : run SharedCache.step (init bufNum mem) acts = some s) :
    s.Exclusive ∧
    (∀ a s', s.Careful a → s.step a = some s' → ∀ b, s.Held b → (s'.dev.bufs b).lba = (s.dev.bufs b).lba) ∧
    ∀ p b lba s', (s.users p).phase = .waiting b lba → s.step (.lock p) = some s' →
      b ∈ (s'.users p).held ∧ (s'.dev.bufs b).lba = lba := by
  have h : Inv s := run_invariant (fun _ _ _ hi hc hs => (hi.step hc hs).1) (inv_init bufNum mem) hcare hrun
  have hlive : ∀ b, b ∈ s.dev.usedList ∨ s.Held b → s.Live b := fun b hb => hb.imp_right Or.inl
  refine ⟨fun b c hb hc => h.once b c (hlive b hb) (hlive c hc),
    fun a s' hc hs b hb => (h.step hc hs).2 b (Or.inl hb), fun p b lba s' hwait hs => ⟨?_, ?_⟩⟩
  · simp only [SharedCache.step, hwait] at hs
    obtain ⟨dev, -, hr⟩ := Option.map_eq_some_iff.mp hs
    cases hr
    rw [setUser_self]
    exact List.mem_cons_self
  · rw [(h.step (a := .lock p) trivial hs).2 b (Or.inr ⟨p, lba, hwait⟩)]
    exact h.waiting p b lba hwait

end

theorem not_inUse_init {bufNum b : Nat} {mem : Nat → Block} : ¬(init bufNum mem).InUse b := by
  simp [InUse, Held, init]

theorem block_run_exclusive_two :
    Along SharedCache.step Careful (init 2 fun _ _ => 0) [.lookup 0 5, .lock 0, .lookup 0 6] ∧
      (run SharedCache.step (init 2 fun _ _ => 0) [.lookup 0 5, .lock 0, .lookup 0 6]).isSome ∧
      ∀ s, run SharedCache.step (init 2 fun _ _ => 0) [.lookup 0 5, .lock 0, .lookup 0 6] = some s → s.Exclusive := by
  have hcare : Along SharedCache.step Careful (init 2 fun _ _ => 0) [.lookup 0 5, .lock 0, .lookup 0 6] := by
    refine ⟨fun _ => ⟨fun b hb => absurd hb not_inUse_init, fun hnil => by simp [init, BlockDev.init] at hnil⟩,
      fun s1 hs1 => ⟨trivial, fun s2 hs2 => ⟨fun _ => ?_, fun _ _ => trivial⟩⟩⟩
    cases hs1
    cases hs2
    refine ⟨fun b hb => ?_, fun hnil => absurd hnil (by decide)⟩
    rcases inUse_setUser hb with hb | hb | ⟨lba, hb⟩
    · rcases inUse_setUser hb with hb | hb | ⟨lba, hb⟩
      · exact absurd hb not_inUse_init
      · simp [init] at hb
      · cases hb
        decide
    · cases List.mem_singleton.mp hb
      decide
    · simp at hb
  exact ⟨hcare, by decide, fun s hs => (block_run_exclusive hcare hs).1⟩

/-- Two processes get a buffer each for the same block, and a buffer is given away under the process
that holds it. -/
theorem block_cached_twice :
    (∃ s, run SharedCache.step (init 256 fun _ _ => 0) [.lookup 0 5, .lock 0, .lookup 1 5, .lock 1] = some s ∧
      ¬s.Exclusive) ∧
    ∃ s s', run SharedCache.step (init 1 fun _ _ => 0)
        [.lookup 0 5, .lock 0, .putBack 0 0, .unlock 0, .lookup 0 5, .lock 0] = some s ∧
      s.Held 0 ∧ (s.dev.bufs 0).lba = 5 ∧ s.step (.lookup 1 6) = some s' ∧ (s'.dev.bufs 0).lba = 6 := by
  refine ⟨⟨_, rfl, fun h => ?_⟩, _, _, rfl, ⟨0, by decide⟩, by decide, rfl, by decide⟩
  exact absurd (h 0 1 (Or.inr ⟨0, by decide⟩) (Or.inr ⟨1, by decide⟩) (by decide)) (by decide)

end SharedCache

end BabyOS
