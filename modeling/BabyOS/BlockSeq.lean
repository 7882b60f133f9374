import BabyOS.BlockDev

open Function

namespace BabyOS

open BlockDev

/-- A client reads a block, changes its contents, writes them and releases the buffer. -/
inductive BlockOp
  | read (lba : Word)
  | modify (data : Block)
  | write
  | release

/-- A client that holds at most one buffer, and whether that is still to be written. -/
structure BlockClient where
  disk : CachedDisk
  held : Option Nat
  dirty : Bool

namespace BlockClient

def step (s : BlockClient) : BlockOp → Option (BlockClient × Option Block)
  | .read lba =>
    match s.held with
    | some _ => none
    | none => (s.disk.read lba).map fun r => (⟨r.2, some r.1, false⟩, some (r.2.dev.bufs r.1).data)
  | .modify data =>
    s.held.map fun b =>
      (⟨{ s.disk with dev := s.disk.dev.mapBuf b fun e => { e with data := data } }, some b, true⟩, none)
  | .write => s.held.bind fun b => (s.disk.write b).map fun disk => (⟨disk, some b, false⟩, none)
  | .release =>
    s.held.bind fun b =>
      if s.dirty then none
      else some (⟨{ s.disk with dev := s.disk.dev.releaseBlock b }, none, false⟩, none)

def init (bufNum : Nat) (mem : Nat → Block) (sectors : Word → Block) : BlockClient :=
  ⟨⟨BlockDev.init bufNum mem, ⟨none, [], sectors⟩⟩, none, false⟩

end BlockClient

/-- A disk without a cache, and the copy of a block that its client works on. -/
structure PlainDisk where
  sectors : Word → Block
  copy : Option (Word × Block)
  dirty : Bool

namespace PlainDisk

def step (s : PlainDisk) : BlockOp → Option (PlainDisk × Option Block)
  | .read lba =>
    match s.copy with
    | some _ => none
    | none => some ({ s with copy := some (lba, s.sectors lba) }, some (s.sectors lba))
  | .modify data => s.copy.map fun c => ({ s with copy := some (c.1, data), dirty := true }, none)
  | .write => s.copy.map fun c => ({ s with sectors := update s.sectors c.1 c.2, dirty := false }, none)
  | .release => s.copy.bind fun _ => if s.dirty then none else some ({ s with copy := none }, none)

end PlainDisk

namespace BlockClient

variable {s : BlockClient} {t : PlainDisk} {b c : Nat} {lba : Word}

def Live (s : BlockClient) (b : Nat) : Prop := b ∈ s.disk.dev.usedList ∨ s.held = some b

/-- Every cached copy is that of its block, no block has two, and the client's copy is in the buffer that it
holds. -/
structure Mirrors (s : BlockClient) (t : PlainDisk) : Prop where
  current : s.disk.hd.current = none
  reqList : s.disk.hd.reqList = []
  sectors : s.disk.hd.sectors = t.sectors
  dirty : s.dirty = t.dirty
  cached : ∀ b ∈ s.disk.dev.usedList, s.held ≠ some b →
    (s.disk.dev.bufs b).done = true ∧ (s.disk.dev.bufs b).data = t.sectors (s.disk.dev.bufs b).lba
  once : ∀ b c, s.Live b → s.Live c → (s.disk.dev.bufs b).lba = (s.disk.dev.bufs c).lba → b = c
  nodup : s.disk.dev.freeList.Nodup
  free : ∀ b ∈ s.disk.dev.freeList, ¬s.Live b
  room : s.disk.dev.freeList ≠ [] ∨ ∃ b, s.Live b
  sem : ∀ b, (s.disk.dev.bufs b).sem = if s.held = some b then 0 else 1
  semWaitDone : ∀ b, (s.disk.dev.bufs b).semWaitDone = 0
  idle : s.held = none → s.dirty = false
  copy : t.copy = s.held.map fun b => ((s.disk.dev.bufs b).lba, (s.disk.dev.bufs b).data)
  held : ∀ b, s.held = some b → (s.disk.dev.bufs b).done = true ∧
    (s.dirty = false → (s.disk.dev.bufs b).data = t.sectors (s.disk.dev.bufs b).lba)

theorem mirrors_init {bufNum : Nat} (h : 0 < bufNum) (mem : Nat → Block) (sectors : Word → Block) :
    Mirrors (init bufNum mem sectors) ⟨sectors, none, false⟩ where
  current := rfl
  reqList := rfl
  sectors := rfl
  dirty := rfl
  cached := by simp [init, BlockDev.init]
  once := by simp [init, BlockDev.init, Live]
  nodup := List.nodup_range
  free := by simp [init, BlockDev.init, Live]
  room := by
    refine Or.inl fun hnil => ?_
    have := List.range_eq_nil.mp hnil
    omega
  sem _ := rfl
  semWaitDone _ := rfl
  idle _ := rfl
  copy := rfl
  held := by simp [init]

section

variable (h : Mirrors s t)
include h

theorem Mirrors.acquired (hheld : s.held = none) {d : BlockDev}
    (hself : d.bufs b = ⟨lba, true, 0, 0, t.sectors lba⟩) (hbufs : ∀ c ≠ b, d.bufs c = s.disk.dev.bufs c)
    (hused : ∀ c ∈ d.usedList, c ∈ s.disk.dev.usedList) (hnodup : d.freeList.Nodup)
    (hfree : ∀ c ∈ d.freeList, c ∈ s.disk.dev.freeList) (hb : b ∉ d.freeList)
    (honce : ∀ c ∈ d.usedList, c ≠ b → (s.disk.dev.bufs c).lba ≠ lba) :
    Mirrors ⟨{ s.disk with dev := d }, some b, false⟩ { t with copy := some (lba, t.sectors lba) } := by
  have hne : ∀ c, some b ≠ some c → c ≠ b := fun c hc he => hc (by rw [he])
  have hlive : ∀ c, Live ⟨{ s.disk with dev := d }, some b, false⟩ c → c ≠ b → c ∈ d.usedList := by
    rintro c (hc | hc) hcb
    · exact hc
    · exact absurd (Option.some.inj hc).symm hcb
  refine ⟨h.current, h.reqList, h.sectors, (h.idle hheld).symm.trans h.dirty, fun c hc hcb => ?_, fun c e hc he heq => ?_,
    hnodup, fun c hc hl => ?_, Or.inr ⟨b, Or.inr rfl⟩, fun c => ?_, fun c => ?_, fun hx => ?_, ?_, fun c hc => ?_⟩
  · dsimp only
    rw [hbufs c (hne c hcb)]
    exact h.cached c (hused c hc) (by simp [hheld])
  · by_cases hcb : c = b
    · by_cases heb : e = b
      · rw [hcb, heb]
      · dsimp only at heq
        rw [hcb, hself, hbufs e heb] at heq
        exact absurd heq.symm (honce e (hlive e he heb) heb)
    · by_cases heb : e = b
      · dsimp only at heq
        rw [heb, hself, hbufs c hcb] at heq
        exact absurd heq (honce c (hlive c hc hcb) hcb)
      · dsimp only at heq
        rw [hbufs c hcb, hbufs e heb] at heq
        exact h.once c e (Or.inl (hused c (hlive c hc hcb))) (Or.inl (hused e (hlive e he heb))) heq
  · by_cases hcb : c = b
    · exact hb (hcb ▸ hc)
    · exact h.free c (hfree c hc) (Or.inl (hused c (hlive c hl hcb)))
  · by_cases hcb : c = b
    · simp [hcb, hself]
    · have hs := h.sem c
      rw [hheld, if_neg (by simp)] at hs
      rw [hbufs c hcb, hs, if_neg fun he => hcb (Option.some.inj he).symm]
  · by_cases hcb : c = b
    · simp [hcb, hself]
    · dsimp only
      rw [hbufs c hcb, h.semWaitDone]
  · simp at hx
  · simp [hself]
  · cases hc
    rw [hself]
    exact ⟨rfl, fun _ => rfl⟩

theorem Mirrors.read (hheld : s.held = none) (lba : Word) :
    ∃ s', step s (.read lba) = some (s', some (t.sectors lba)) ∧
      Mirrors s' { t with copy := some (lba, t.sectors lba) } := by
  have hsem : ∀ c, (s.disk.dev.bufs c).sem = 1 := fun c => by rw [h.sem, hheld, if_neg (by simp)]
  have hroom : s.disk.dev.freeList ≠ [] ∨ s.disk.dev.usedList ≠ [] := by
    rcases h.room with hf | ⟨c, hc | hc⟩
    · exact Or.inl hf
    · exact Or.inr (List.ne_nil_of_mem hc)
    · simp [hheld] at hc
  obtain ⟨⟨b, d⟩, hlook⟩ := lookup_isSome hroom lba
  rcases lookup_cases hlook with ⟨hhit, hd⟩ | ⟨hmiss, used, free, hd, hfrom⟩
  · obtain ⟨hmem, hlba⟩ := hit_some hhit
    obtain ⟨hdone, hdata⟩ := h.cached b hmem (by simp [hheld])
    subst hd
    have hlock := lock_ok (d := s.disk.dev) (b := b) (by rw [hsem]; decide)
    refine ⟨⟨{ s.disk with dev := s.disk.dev.mapBuf b fun e => { e with sem := e.sem - 1 } }, some b, false⟩, ?_,
      h.acquired hheld ?_ (fun c hc => mapBuf_of_ne hc) (fun _ hc => hc) h.nodup (fun _ hc => hc)
        (fun hb => h.free b hb (Or.inl hmem)) fun c hc hcb he => ?_⟩
    · simp [step, CachedDisk.read, getBlock, hheld, hlook, hlock, hdone, hdata, hlba]
    · rw [mapBuf_self, hlba.symm, ← hdata, hsem, h.semWaitDone, hdone]
    · exact hcb (h.once c b (Or.inl hc) (Or.inl hmem) (he.trans hlba.symm))
  · have hone := hit_none hmiss
    have hnodup := h.nodup
    dsimp only at hd hfrom
    have hself : d.bufs b = { s.disk.dev.bufs b with lba := lba, done := false } := by rw [hd, mapBuf_self]
    have hother : ∀ c ≠ b, d.bufs c = s.disk.dev.bufs c := fun c hc => by rw [hd, mapBuf_of_ne hc]
    have hin : (∀ c ∈ d.usedList, c ∈ s.disk.dev.usedList) ∧ d.freeList.Nodup ∧
        (∀ c ∈ d.freeList, c ∈ s.disk.dev.freeList) ∧ b ∉ d.freeList := by
      rw [show d.usedList = used by rw [hd]; rfl, show d.freeList = free by rw [hd]; rfl]
      rcases hfrom with ⟨hf, hu⟩ | ⟨hf, hfree, hu⟩
      · rw [hf, List.nodup_cons] at hnodup
        rw [hu, hf]
        exact ⟨fun _ hc => hc, hnodup.2, fun c hc => List.mem_cons_of_mem b hc, hnodup.1⟩
      · rw [hu, hfree]
        exact ⟨fun c hc => List.mem_cons_of_mem b hc, List.nodup_nil, by simp, by simp⟩
    have hread := CachedDisk.read_fetch hlook (by rw [hself, hsem]; decide) (by rw [hself]) h.current h.reqList
    refine ⟨⟨{ s.disk with dev := d.mapBuf b fun e =>
        { e with sem := e.sem - 1, data := s.disk.hd.sectors lba, done := true } }, some b, false⟩, ?_,
      h.acquired hheld ?_ (fun c hc => ?_) hin.1 hin.2.1 hin.2.2.1 hin.2.2.2 fun c hc _ => hone c (hin.1 c hc)⟩
    · simp [step, hheld, hread, h.sectors]
    · simp [hself, h.sectors, hsem, h.semWaitDone]
    · rw [mapBuf_of_ne hc, hother c hc]

theorem Mirrors.changed (hheld : s.held = some b) {f : IoBuffer → IoBuffer} {dirty : Bool}
    {hd : HardDisk} (hlba : (f (s.disk.dev.bufs b)).lba = (s.disk.dev.bufs b).lba)
    (hsem : (f (s.disk.dev.bufs b)).sem = (s.disk.dev.bufs b).sem)
    (hwait : (f (s.disk.dev.bufs b)).semWaitDone = (s.disk.dev.bufs b).semWaitDone)
    (hdone : (f (s.disk.dev.bufs b)).done = true) (hcurrent : hd.current = none) (hreq : hd.reqList = [])
    (hsectors : ∀ l ≠ (s.disk.dev.bufs b).lba, hd.sectors l = t.sectors l)
    (hclean : dirty = false → (f (s.disk.dev.bufs b)).data = hd.sectors (s.disk.dev.bufs b).lba) :
    Mirrors ⟨⟨s.disk.dev.mapBuf b f, hd⟩, some b, dirty⟩
      ⟨hd.sectors, some ((s.disk.dev.bufs b).lba, (f (s.disk.dev.bufs b)).data), dirty⟩ := by
  have hlive : ∀ c, Live ⟨⟨s.disk.dev.mapBuf b f, hd⟩, some b, dirty⟩ c ↔ s.Live c := by
    intro c
    unfold Live
    rw [hheld]
    exact Iff.rfl
  refine ⟨hcurrent, hreq, rfl, rfl, fun c hc hcb => ?_, fun c e hc he heq => ?_, h.nodup,
    fun c hc hl => h.free c hc ((hlive c).mp hl), Or.inr ⟨b, Or.inr rfl⟩, fun c => ?_, fun c => ?_, fun hx => ?_, ?_,
    fun c hc => ?_⟩
  · have hne : c ≠ b := fun he => hcb (by rw [he])
    have hold := h.cached c hc (by rw [hheld]; exact hcb)
    have hlbas : (s.disk.dev.bufs c).lba ≠ (s.disk.dev.bufs b).lba := fun he =>
      hne (h.once c b (Or.inl hc) (Or.inr hheld) he)
    dsimp only
    rw [mapBuf_of_ne hne, hsectors _ hlbas]
    exact hold
  · dsimp only at heq
    rw [mapBuf_field IoBuffer.lba hlba, mapBuf_field IoBuffer.lba hlba] at heq
    exact h.once c e ((hlive c).mp hc) ((hlive e).mp he) heq
  · rw [mapBuf_field IoBuffer.sem hsem, h.sem, hheld]
  · rw [mapBuf_field IoBuffer.semWaitDone hwait, h.semWaitDone]
  · simp at hx
  · simp [hlba]
  · cases hc
    rw [mapBuf_self, hlba]
    exact ⟨hdone, hclean⟩

theorem Mirrors.released (hheld : s.held = some b) (hclean : s.dirty = false) :
    Mirrors ⟨{ s.disk with dev := s.disk.dev.releaseBlock b }, none, false⟩ { t with copy := none } := by
  obtain ⟨hdone, hdata⟩ := h.held b hheld
  have hfield : ∀ {β : Type} (g : IoBuffer → β), (∀ e, g { e with sem := e.sem + 1 } = g e) → ∀ c,
      g ((s.disk.dev.releaseBlock b).bufs c) = g (s.disk.dev.bufs c) := fun g hg c =>
    mapBuf_field (d := s.disk.dev.putBack b) (b := b) (f := fun e => { e with sem := e.sem + 1 }) g (hg _) c
  have hlive : ∀ c, Live ⟨{ s.disk with dev := s.disk.dev.releaseBlock b }, none, false⟩ c ↔ s.Live c := by
    intro c
    unfold Live
    show c ∈ s.disk.dev.usedList ++ [b] ∨ none = some c ↔ _
    simp [hheld, eq_comm]
  refine ⟨h.current, h.reqList, h.sectors, hclean.symm.trans h.dirty, fun c hc _ => ?_, fun c e hc he heq => ?_, h.nodup,
    fun c hc hl => h.free c hc ((hlive c).mp hl), Or.inr ⟨b, (hlive b).mpr (Or.inr hheld)⟩, fun c => ?_, fun c => ?_,
    fun _ => rfl, rfl, fun c hc => ?_⟩
  · dsimp only
    rw [hfield IoBuffer.done fun _ => rfl, hfield IoBuffer.data fun _ => rfl, hfield IoBuffer.lba fun _ => rfl]
    by_cases hcb : c = b
    · rw [hcb]
      exact ⟨hdone, hdata hclean⟩
    · have hmem := ((hlive c).mp (Or.inl hc)).resolve_right fun he => hcb (Option.some.inj (hheld.symm.trans he)).symm
      exact h.cached c hmem fun he => hcb (Option.some.inj (hheld.symm.trans he)).symm
  · dsimp only at heq
    rw [hfield IoBuffer.lba fun _ => rfl, hfield IoBuffer.lba fun _ => rfl] at heq
    exact h.once c e ((hlive c).mp hc) ((hlive e).mp he) heq
  · have hs := h.sem c
    rw [hheld] at hs
    by_cases hcb : c = b
    · rw [if_pos (by rw [hcb])] at hs
      rw [hcb] at hs ⊢
      simp [BlockDev.releaseBlock, BlockDev.unlock, BlockDev.putBack, hs]
    · rw [if_neg fun he => hcb (Option.some.inj he).symm] at hs
      rw [BlockDev.releaseBlock, BlockDev.unlock, mapBuf_of_ne hcb, if_neg (by simp)]
      exact hs
  · rw [hfield IoBuffer.semWaitDone fun _ => rfl, h.semWaitDone]
  · simp at hc

theorem Mirrors.step (op : BlockOp) : (s.step op = none ∧ t.step op = none) ∨
    ∃ s' t' r, s.step op = some (s', r) ∧ t.step op = some (t', r) ∧ Mirrors s' t' := by
  have hcopy := h.copy
  cases hheld : s.held with
  | none =>
    rw [hheld, Option.map_none] at hcopy
    cases op with
    | read lba =>
      obtain ⟨s', hs, hm⟩ := h.read hheld lba
      exact Or.inr ⟨s', _, _, hs, by simp [PlainDisk.step, hcopy], hm⟩
    | modify | write | release => exact Or.inl ⟨by simp [BlockClient.step, hheld], by simp [PlainDisk.step, hcopy]⟩
  | some b =>
    rw [hheld, Option.map_some] at hcopy
    obtain ⟨hdone, hdata⟩ := h.held b hheld
    cases op with
    | read lba => exact Or.inl ⟨by simp [BlockClient.step, hheld], by simp [PlainDisk.step, hcopy]⟩
    | modify data =>
      have hm := h.changed hheld (f := fun e => { e with data := data }) rfl rfl rfl hdone h.current h.reqList
        (fun l _ => by rw [h.sectors]) (show true = false → _ by simp)
      rw [h.sectors] at hm
      exact Or.inr ⟨_, _, none, by simp [BlockClient.step, hheld], by simp [PlainDisk.step, hcopy], hm⟩
    | write =>
      have hwrite : s.disk.write b = _ := CachedDisk.transfer_write h.current h.reqList _
      generalize hhd : s.disk.hd.setSector (s.disk.dev.bufs b).lba (s.disk.dev.bufs b).data = hd at hwrite
      have hsectors : hd.sectors = update t.sectors (s.disk.dev.bufs b).lba (s.disk.dev.bufs b).data := by
        rw [← hhd, HardDisk.setSector, ← h.sectors]
      have hm := h.changed hheld (f := fun e => { e with done := true }) rfl rfl rfl rfl
        (show hd.current = none by rw [← hhd]; exact h.current) (by rw [← hhd]; exact h.reqList)
        (fun l hl => by rw [hsectors, update_of_ne hl])
        (show false = false → _ from fun _ => by rw [hsectors, update_self])
      refine Or.inr ⟨_, _, none, by simp [BlockClient.step, hheld, hwrite], ?_, hm⟩
      simp [PlainDisk.step, hcopy, hsectors]
    | release =>
      have hd := h.dirty
      cases hclean : s.dirty with
      | true =>
        rw [hclean] at hd
        exact Or.inl ⟨by simp [BlockClient.step, hheld, hclean], by simp [PlainDisk.step, hcopy, ← hd]⟩
      | false =>
        rw [hclean] at hd
        exact Or.inr ⟨_, _, none, by simp [BlockClient.step, hheld, hclean], by simp [PlainDisk.step, hcopy, ← hd],
          h.released hheld hclean⟩

end

def evicted : List BlockOp := [.read 3, .modify fun _ => 7, .write, .release, .read 4, .release, .read 3]

example : (trace step (init 1 (fun _ _ => 0) fun lba _ => lba.setWidth 8) evicted).map (·.map (·.map (· 0))) =
    some [some 3, none, none, none, some 4, none, some 7] := by
  decide

end BlockClient

end BabyOS
