import BabyOS.VmAlike
import BabyOS.VmPrivate
import BabyOS.VmRefs

open Function Option

namespace BabyOS

open Machine

/-- A page after `load_elf_binary`: the bytes of the file, zeros up to the size in memory, and what the page held
elsewhere. -/
def elfContent (old : Nat → Byte) (off filesz memsz : Nat) (file : Nat → Byte) : Nat → Byte := fun k =>
  if off ≤ k ∧ k < off + filesz then file (k - off)
  else if off + filesz ≤ k ∧ k < off + memsz then 0
  else old k

/-- The steps of the system, and the loading of a segment that lies in one page. -/
inductive LoadAct
  | vm (a : VmAct)
  | loadElf (p : Nat) (vaddr : Word) (pool : Bool) (filesz memsz : Nat) (file junk : Nat → Byte)

namespace Sys

def nextPage (s : Sys) (junk : Nat → Byte) : Nat → Byte :=
  match s.machine.allocPage with
  | some (m, mem) => m.recycled (va2pa mem) junk
  | none => junk

/-- The segment that `load_elf_binary` maps, with the content that the page gets in this state. -/
def loadAct (s : Sys) : LoadAct → VmAct
  | .vm a => a
  | .loadElf p vaddr pool filesz memsz file junk =>
    .loadSegment p vaddr pool (elfContent (s.nextPage junk) (pageOffset vaddr) filesz memsz file)

def nextLoad (s : Sys) (a : LoadAct) : Option Sys := s.next (s.loadAct a)

def pagesOf (s : Sys) (F : Set Nat) : Set Word :=
  {q | ∃ n p i j, p ∈ F ∧ n < s.machine.mm.pages ∧ s.Maps n (p, i, j) ∧ q = s.machine.page n}

end Sys

/-- The children of a member of the family are members, also where a number is used again. -/
def LoadAct.family (F : Set Nat) : LoadAct → Set Nat
  | .vm (.fork p c) => {q | (q = c ∧ p ∈ F) ∨ (q ≠ c ∧ q ∈ F)}
  | _ => F

/-- A run that is watched: the family of a process, and the pages that were ever behind an entry of
one of its members. -/
structure Watched where
  sys : Sys
  family : Set Nat
  used : Set Word

namespace Watched

def next (w : Watched) (a : LoadAct) : Option Watched :=
  (w.sys.nextLoad a).map fun s => ⟨s, a.family w.family, w.used ∪ s.pagesOf (a.family w.family)⟩

/-- The page that is handed out next never was a page of the family. -/
def HandsOut (w : Watched) : Prop :=
  ∀ m mem, w.sys.machine.allocPage = some (m, mem) → va2pa mem ∉ w.used

def Serves (vmm : Vmm) (va : Word) (user : Bool) (esp : Word) : Prop :=
  ∃ vma, findVma vmm.areas va = some vma ∧
    (vma.start ≤ va ∨ (user ∧ vma.flags &&& vmStack ≠ 0 ∧ va + 32 ≥ esp))

/-- No page of the family is handed out to another process, neither on the first touch of a page
nor for a segment. -/
def Clean (w : Watched) : LoadAct → Prop
  | .vm (.fault p va _ user _ esp _) => p ∉ w.family → ∀ vmm, w.sys.procs p = some vmm →
    Serves vmm va user esp → Sys.present w.sys.machine vmm.pgDir va = false → w.HandsOut
  | .vm a => w.sys.Fits a
  | .loadElf p vaddr pool _ _ _ _ => p ∉ w.family → ∀ vmm, w.sys.procs p = some vmm →
    0 ≤ (doMmap vmm.areas (vaddr &&& pageMask) pageSize (protRead ||| protWrite ||| protExec) mapFixed
      pool).1.toInt → w.HandsOut

end Watched

/-- Two lists of steps that differ only in the bytes that members of the family store. -/
def SameBut (F : Set Nat) : List LoadAct → List LoadAct → Prop
  | [], [] => True
  | a :: as, b :: bs => (a = b ∨ ∃ p va x y, p ∈ F ∧ a = .vm (.store p va x) ∧ b = .vm (.store p va y)) ∧
    SameBut (a.family F) as bs
  | _, _ => False

def Slot.Tainted (F : Set Nat) : Slot → Prop
  | .user p _ _ => p ∈ F
  | .kernel _ => True
  | _ => False

/-- The pages that were pages of the family and that only the family or the kernel holds. -/
def Watched.dirty (w : Watched) (own : Slot → Option Nat) : Set Word :=
  {q | q ∈ w.used ∧ ∀ u n, own u = some n → w.sys.machine.page n = q → u.Tainted w.family}

/-- A watched run and a second one whose bytes differ in such pages only. -/
structure Sys.Twin (w : Watched) (s' : Sys) (own : Slot → Option Nat) : Prop where
  alike : Machine.Alike (w.dirty own) w.sys.machine s'.machine
  rest : s' = { w.sys with machine := s'.machine }
  covers : ∀ p i j n, p ∈ w.family → own (.user p i j) = some n → w.sys.machine.page n ∈ w.used
  inside : ∀ q ∈ w.used, ∃ n < w.sys.machine.mm.pages, q = w.sys.machine.page n

namespace Sys

section

variable {w : Watched} {s t s' t' : Sys} {own own' : Slot → Option Nat} {wr wr' : Slot → Bool}
  {p n : Nat} {vmm vmm' : Vmm} {F : Set Nat} {D : Set Word} {va : Word} {m' : Machine}

variable {i j c k : Nat} {bytes bytes' : Nat → Byte} {vma : VmArea} {vaddr : Word}

theorem Inv.mem_pagesOf (h : Inv s own wr) (hp : p ∈ F) (hu : own (.user p i j) = some n) :
    s.machine.page n ∈ s.pagesOf F := by
  have hn := h.owned.holds.inside _ _ hu
  exact ⟨n, p, i, j, hp, hn, (h.maps_iff hn).mpr hu, rfl⟩

variable {u : Slot} {e : VmEvent} {m1 m1' : Machine} {addr : Word} {write pool : Bool} {junk : Nat → Byte}

theorem not_dirty (hu : own u = some n) (ht : ¬u.Tainted w.family) : w.sys.machine.page n ∉ w.dirty own :=
  fun hd => ht (hd.2 u n hu rfl)

def Tracks (w : Watched) (F : Set Nat) (t t' : Sys) : Prop :=
  ∃ own wr, Inv t own wr ∧ Twin ⟨t, F, w.used ∪ t.pagesOf F⟩ t' own

theorem Twin.tracks (h : Twin w s' own) (hfix : t.machine.mm.fixed = w.sys.machine.mm.fixed)
    (hinv : Inv t own' wr') (hrest : t' = { t with machine := t'.machine })
    (halike : Machine.Alike D t.machine t'.machine) (hD : ∀ q ∈ D, q ∈ w.used ∨ q ∈ t.pagesOf F)
    (hclean : ∀ u n, own' u = some n → ¬u.Tainted F → w.sys.machine.page n ∉ D) : Tracks w F t t' := by
  refine ⟨own', wr', hinv, halike.mono fun q hq => ⟨hD q hq, fun u n hu hn => ?_⟩, hrest,
    fun q i j n hq hn => Or.inr (hinv.mem_pagesOf hq hn), fun q hq => ?_⟩
  · by_contra ht
    refine hclean u n hu ht ?_
    rw [← page_of_fixed hfix]
    exact hn ▸ hq
  · rcases hq with hq | hq
    · dsimp only
      rw [page_of_fixed hfix, Mm.pages_of_fixed hfix]
      exact h.inside q hq
    · obtain ⟨n, -, -, -, -, hn, -, rfl⟩ := hq
      exact ⟨n, hn, rfl⟩

theorem Twin.tracks_drops (h : Twin w s' own) (hfix : t.machine.mm.fixed = w.sys.machine.mm.fixed)
    (hinv : Inv t own' wr') (hrest : t' = { t with machine := t'.machine })
    (halike : Machine.Alike (w.dirty own) t.machine t'.machine) (hdrops : Drops own own') :
    Tracks w w.family t t' :=
  h.tracks hfix hinv hrest halike (fun _ hq => Or.inl hq.1)
    fun u n hu ht => not_dirty (hdrops u n hu) ht

theorem Inv.apart (hinv : Inv w.sys own wr) (hp : w.sys.procs p = some vmm) :
    Machine.Apart (w.dirty own) w.sys.machine vmm.pgDir := by
  obtain ⟨d, hd, hpg⟩ := hinv.dir_eq hp
  refine (hinv.walks p vmm hp).apart hinv.owned ?_ fun k t ht => not_dirty ht (by simp [Slot.Tainted])
  rw [hpg]
  exact not_dirty hd (by simp [Slot.Tainted])

section

variable (h : Twin w s' own) (hinv : Inv w.sys own wr)
include h hinv

theorem Twin.store {x y : Byte} (hxy : p ∈ w.family ∨ x = y) (hs : w.sys.store p va x = some t) :
    ∃ t', s'.store p va y = some t' ∧ Tracks w w.family t t' := by
  obtain ⟨vmm, hp, hs⟩ := bind_eq_some_iff.mp hs
  obtain ⟨page, ht, rfl⟩ := map_eq_some_iff.mp hs
  obtain ⟨n, hva, hu, rfl, hwr⟩ := hinv.translate hp ht
  obtain ⟨hinv', -⟩ := hinv.fill hp hu (hwr rfl)
    (update (w.sys.machine.mem (w.sys.machine.page n)) (pageOffset va) x)
  have ht' : s'.machine.translate vmm.pgDir va true = some (w.sys.machine.page n) := by
    rw [h.alike.translate (hinv.apart hp), ht]
  have hp' : s'.procs p = some vmm := by rw [h.rest]; exact hp
  refine ⟨_, by rw [Sys.store, hp', bind_some, ht']; rfl, ?_⟩
  refine h.tracks_drops rfl hinv' ?_ ?_ (fun _ _ hn => hn)
  · rw [h.rest]
  · by_cases hF : p ∈ w.family
    · refine h.alike.fill_any ⟨h.covers p _ _ n hF hu, fun u k hk he => ?_⟩ _ _
      have hkn := page_inj hinv.owned.layout (hinv.owned.holds.inside _ _ hk)
        (hinv.owned.holds.inside _ _ hu) he
      rw [hinv.sole p _ _ n hu (hwr rfl) u (hkn ▸ hk)]
      exact hF
    · obtain rfl : x = y := hxy.resolve_left hF
      dsimp only
      rw [h.alike.mem _ (not_dirty hu (by simpa [Slot.Tainted] using hF))]
      exact (h.alike.fill _ _).mono Set.sdiff_subset

theorem Twin.exit (hp : w.sys.procs p = some vmm)
    (hs : w.sys.exit p vmm = some (t, e)) : ∃ t', s'.exit p vmm = some (t', e) ∧ Tracks w w.family t t' := by
  obtain ⟨own', hinv', -, hdrops⟩ := hinv.exit hp hs
  obtain ⟨m, own1, hr, -, -, -, -, -, hfix, -⟩ := hinv.release hp
  rw [Sys.exit, hr] at hs
  cases some.inj hs
  obtain ⟨m1', hr', halike⟩ := h.alike.release (hinv.apart hp) hr
  refine ⟨_, by rw [Sys.exit, hr']; rfl, h.tracks_drops hfix hinv' ?_ halike hdrops⟩
  rw [h.rest]

theorem Twin.release (hp : w.sys.procs p = some vmm) {r : Machine × Vmm} (hr : w.sys.machine.release vmm = some r) :
    ∃ m', s'.machine.release vmm = some (m', r.2) ∧
      Tracks w w.family (w.sys.setProc p r.1 r.2) (s'.setProc p m' r.2) := by
  obtain ⟨m, own1, he, hinv', -, hnone, htab, hkeep, hfix, -⟩ := hinv.release hp
  cases some.inj (he.symm.trans hr)
  obtain ⟨m1', hr', halike⟩ := h.alike.release (hinv.apart hp) hr
  refine ⟨m1', hr', h.tracks_drops hfix hinv' ?_ halike (drops_of hnone htab hkeep)⟩
  rw [h.rest]
  rfl

theorem Twin.setAreas (hp : w.sys.procs p = some vmm) (he : Extends vmm vmm') :
    Tracks w w.family (w.sys.setProc p w.sys.machine vmm') (s'.setProc p s'.machine vmm') := by
  refine h.tracks_drops rfl (hinv.setAreas hp he) ?_ h.alike fun _ _ hn => hn
  rw [h.rest]
  rfl

theorem Twin.fork (hs : w.sys.fork p c = some t) :
    ∃ t', s'.fork p c = some t' ∧ Tracks w (LoadAct.family w.family (.vm (.fork p c))) t t' := by
  obtain ⟨vmm, hsrc, hs⟩ := bind_eq_some_iff.mp hs
  have hv := hinv.source hsrc
  split_ifs at hs with hbusy
  have hbusy' := hbusy
  simp only [not_or, Bool.not_eq_true, isSome_eq_false_iff, isNone_iff_eq_none] at hbusy'
  obtain ⟨hc0, hpc, hzc⟩ := hbusy'
  obtain ⟨r, hr, rfl⟩ := map_eq_some_iff.mp hs
  have hne : p ≠ c := by
    rintro rfl
    simp [hc0, hpc] at hsrc
  have hdir : va2pa vmm.pgDir ∉ w.dirty own := by
    intro hd
    obtain ⟨n, hn, he⟩ := h.inside _ hd.1
    exact hd.2 _ n (hv.dir n hn he.symm) he.symm
  obtain ⟨own', d, mt', D', hsub, haddr, hf, hr', halike, hdD, hchild⟩ := h.alike.copyPageTable hinv.owned
    hv.walks hne hv.dir (hinv.unused hpc hzc) hdir (fun k t ht => not_dirty ht (by simp [Slot.Tainted])) hr
  have hinv' := hinv.forked hv hne hc0 hzc hf
  rw [← haddr] at hinv'
  refine ⟨s'.setProc c mt' ⟨vmm.areas, r.2⟩, ?_, h.tracks hf.fixed hinv' ?_ halike
    (fun q hq => Or.inl (hsub hq).1) fun u n hu ht => ?_⟩
  · rw [Sys.fork]
    refine bind_eq_some_iff.mpr ⟨vmm, by rw [h.rest]; exact hsrc, ?_⟩
    rw [if_neg (by rw [h.rest]; exact hbusy), hr']
    rfl
  · rw [h.rest]
    rfl
  · by_cases huser : ∃ i j, u = .user c i j
    · obtain ⟨i, j, rfl⟩ := huser
      rw [hf.child hinv.owned.shape] at hu
      have hpF : p ∉ w.family := fun hF => ht (Or.inl ⟨rfl, hF⟩)
      exact fun hq => not_dirty hu (by simpa [Slot.Tainted] using hpF) (hsub hq)
    · simp only [not_exists] at huser
      by_cases hud : u = .dir c
      · subst hud
        obtain rfl : d = n := some.inj (hf.dir.symm.trans hu)
        exact hdD
      · by_cases hut : ∃ k, u = .table c k
        · obtain ⟨k, rfl⟩ := hut
          exact hchild k n hu
        · simp only [not_exists] at hut
          rw [hf.keeps u hud hut huser] at hu
          refine fun hq => not_dirty hu ?_ (hsub hq)
          cases u with
          | user q i j => exact fun hF => ht (Or.inr ⟨fun he => huser i j (by rw [he]), hF⟩)
          | dir | table | spare => exact fun hF => hF
          | kernel => exact ht

end

def dirtyWith (w : Watched) (own : Slot → Option Nat) (p n : Nat) : Set Word :=
  {q | (q ∈ w.dirty own ∧ q ≠ w.sys.machine.page n) ∨ (q = w.sys.machine.page n ∧ p ∈ w.family)}

theorem not_dirtyWith (hinv : Inv w.sys own wr) (hn : n < w.sys.machine.mm.pages)
    (hnew : ∀ u, own u ≠ some n) (hu : own u = some k)
    (ht : ¬u.Tainted w.family) : w.sys.machine.page k ∉ dirtyWith w own p n := by
  rintro (⟨hd, -⟩ | ⟨he, -⟩)
  · exact not_dirty hu ht hd
  · exact hnew u (page_inj hinv.owned.layout (hinv.owned.holds.inside _ _ hu) hn he ▸ hu)

theorem Inv.apart_new (hinv : Inv w.sys own wr) (hp : w.sys.procs p = some vmm)
    (hn : n < w.sys.machine.mm.pages) (hnew : ∀ u, own u ≠ some n)
    (hmem : ∀ q, q ≠ w.sys.machine.page n → m1.mem q = w.sys.machine.mem q) :
    Machine.Apart (dirtyWith w own p n) m1 vmm.pgDir := by
  obtain ⟨d, hd, hpg⟩ := hinv.dir_eq hp
  have hapart : Machine.Apart (dirtyWith w own p n) w.sys.machine vmm.pgDir := by
    refine (hinv.walks p vmm hp).apart hinv.owned ?_ fun k t ht =>
      not_dirtyWith hinv hn hnew ht (by simp [Slot.Tainted])
    rw [hpg]
    exact not_dirtyWith hinv hn hnew hd (by simp [Slot.Tainted])
  have hne : va2pa vmm.pgDir ≠ w.sys.machine.page n := by
    rw [hpg]
    exact fun he => hnew _ (page_inj hinv.owned.layout (hinv.owned.holds.inside _ _ hd) hn he ▸ hd)
  refine ⟨hapart.dir, fun k hk => ?_⟩
  rw [entry_congr (hmem _ hne)]
  exact hapart.tables k hk

theorem Twin.fill_new (h : Machine.Alike (w.dirty own) m1 m1') (hb : p ∉ w.family → bytes' = bytes) :
    Machine.Alike (dirtyWith w own p n) (m1.fill (w.sys.machine.page n) bytes)
      (m1'.fill (w.sys.machine.page n) bytes') := by
  by_cases hF : p ∈ w.family
  · refine Alike.fill_any (h.mono fun q hq => ?_) (Or.inr ⟨rfl, hF⟩) _ _
    by_cases hqn : q = w.sys.machine.page n
    · exact Or.inr ⟨hqn, hF⟩
    · exact Or.inl ⟨hq, hqn⟩
  · rw [hb hF]
    exact (h.fill _ _).mono fun q hq => Or.inl ⟨hq.1, hq.2⟩

section

variable (h : Twin w s' own) (hinv : Inv w.sys own wr)
include h hinv

section

variable (hp : w.sys.procs p = some vmm)
include hp

theorem Twin.touched {d : Nat} (hd : own (.dir p) = some d) (ht : w.sys.machine.Touched m' own own' p d i j n k)
    (hw : m'.Walks own' (update wr (.user p i j) true) p (va2pa vmm.pgDir) ∅)
    (he : Extends vmm vmm') (hnew : InAreas vmm'.areas (vpage i j)) {mt' : Machine}
    (halike : Machine.Alike (dirtyWith w own p n \ {w.sys.machine.page k}) m' mt') :
    Tracks w w.family (w.sys.setProc p m' vmm') (s'.setProc p mt' vmm') := by
  have hinv' := hinv.touched hp hd ht hw he.pgDir he.areas he.covers hnew
  have hn : n < w.sys.machine.mm.pages := by
    rw [← Mm.pages_of_fixed ht.fixed]
    exact ht.owned.holds.inside _ _ ht.user
  refine h.tracks ht.fixed hinv' (by rw [h.rest]; rfl) halike (fun q hq => ?_) fun u a hu hta hq => ?_
  · rcases hq.1 with ⟨hd, -⟩ | ⟨hqn, hF⟩
    · exact Or.inl hd.1
    · refine Or.inr ?_
      rw [hqn, ← page_of_fixed ht.fixed]
      exact hinv'.mem_pagesOf hF ht.user
  · by_cases hut : u = .table p i
    · subst hut
      obtain rfl : k = a := some.inj (ht.table.symm.trans hu)
      exact hq.2 rfl
    · by_cases huu : u = .user p i j
      · subst huu
        obtain rfl : n = a := some.inj (ht.user.symm.trans hu)
        rcases hq.1 with ⟨-, hne⟩ | ⟨-, hF⟩
        · exact hne rfl
        · exact hta hF
      · rw [ht.slots u hut huu] at hu
        exact not_dirtyWith hinv hn ht.fresh hu hta hq.1

section

variable (hva : va < kernelBase)
include hva

theorem Twin.firstTouch (hu : own (.of p va) = none) (he : Extends vmm vmm') (hnew : PageIn vmm'.areas va)
    (ha : w.sys.machine.allocPage = some (m1, addr))
    (halike : Machine.Alike (w.dirty own) m1 m1') (hb : p ∉ w.family → bytes' = bytes)
    (hm : (m1.fill (va2pa addr) bytes).mapPages vmm.pgDir va (va2pa addr) pageSize (pteW ||| pteU) =
      some m') : ∃ mt', (m1'.fill (va2pa addr) bytes').mapPages vmm.pgDir va (va2pa addr) pageSize (pteW ||| pteU) =
      some mt' ∧ Tracks w w.family (w.sys.setProc p m' vmm') (s'.setProc p mt' vmm') := by
  obtain ⟨d, hd, hpg⟩ := hinv.dir_eq hp
  obtain ⟨own', n, k, ht, hw, hpa, -, m4, htable⟩ :=
    hinv.owned.firstTouch hinv.spare (hinv.walks p vmm hp) hd hpg hva hu ha hm
  have hn : n < w.sys.machine.mm.pages := by
    rw [← Mm.pages_of_fixed ht.fixed]
    exact ht.owned.holds.inside _ _ ht.user
  obtain ⟨mm', -, hm1⟩ := allocPage_eq ha
  have hmem1 : m1.mem = w.sys.machine.mem := by
    dsimp only at hm1
    rw [hm1]
  rw [hpa] at hm htable ⊢
  have hmem : ∀ q, q ≠ w.sys.machine.page n →
      (m1.fill (w.sys.machine.page n) bytes).mem q = w.sys.machine.mem q := fun q hq => by
    rw [fill_mem_of_ne _ hq, hmem1]
  have hapart := hinv.apart_new hp hn ht.fresh hmem
  obtain ⟨mt', hmt, hfinal⟩ := (Twin.fill_new halike hb).mapPage hapart.dir
    (hapart.tables _ (pdIndex_lt hva)) hva htable hm
  exact ⟨mt', hmt, h.touched hinv hp hd ht hw he hnew hfinal⟩

theorem Twin.copyOnWrite (hu : own (.of p va) = some n) (he : Extends vmm vmm')
    (ha : w.sys.machine.allocPage = some (m1, addr)) (halike : Machine.Alike (w.dirty own) m1 m1')
    (hm : ((m1.fill (m1.va2paOf vmm.pgDir addr &&& pageMask)
      (m1.mem (m1.va2paOf vmm.pgDir va &&& pageMask))).freePage
        (pa2va (w.sys.machine.va2paOf vmm.pgDir va))).bind
        (fun m => m.mapPages vmm.pgDir va (va2pa addr) pageSize (pteW ||| pteU)) = some m') :
    ∃ mt', ((m1'.fill (m1'.va2paOf vmm.pgDir addr &&& pageMask)
      (m1'.mem (m1'.va2paOf vmm.pgDir va &&& pageMask))).freePage
        (pa2va (w.sys.machine.va2paOf vmm.pgDir va))).bind
        (fun m => m.mapPages vmm.pgDir va (va2pa addr) pageSize (pteW ||| pteU)) = some mt' ∧
      Tracks w w.family (w.sys.setProc p m' vmm') (s'.setProc p mt' vmm') := by
  obtain ⟨d, hd, hpg⟩ := hinv.dir_eq hp
  have hwalks := hinv.walks p vmm hp
  obtain ⟨own', k, t, ht, hw, -, hpa⟩ := hinv.owned.copyOnWrite hinv.spare hwalks hd hpg hva hu ha hm
  obtain ⟨x, hpx, haddr, hlt, hfresh, -, -, hmem1⟩ :=
    hinv.owned.allocPage ha hinv.spare (by simp) (by simp)
  dsimp only at hpx haddr hmem1
  obtain rfl : k = x := by
    refine page_inj hinv.owned.layout ?_ hlt (hpa.symm.trans hpx)
    rw [← Mm.pages_of_fixed ht.fixed]
    exact ht.owned.holds.inside _ _ ht.user
  have hto : ∀ m : Machine, m.va2paOf vmm.pgDir addr &&& pageMask = w.sys.machine.page k := fun m => by
    rw [haddr]
    exact va2paOf_pageAddr hinv.owned hlt m vmm.pgDir
  have hfrom : m1.va2paOf vmm.pgDir va &&& pageMask = w.sys.machine.page n := by
    rw [va2paOf_congr hmem1, hwalks.va2paOf_page hinv.owned hva hu]
  have hfrom' : m1'.va2paOf vmm.pgDir va &&& pageMask = w.sys.machine.page n := by
    rw [halike.va2paOf ((hinv.apart hp).congr hmem1), hfrom]
  rw [hto, hfrom] at hm
  rw [hto, hfrom']
  obtain ⟨m2, hfree, hmap⟩ := bind_eq_some_iff.mp hm
  have hfill : Machine.Alike (dirtyWith w own p k)
      (m1.fill (w.sys.machine.page k) (m1.mem (w.sys.machine.page n)))
      (m1'.fill (w.sys.machine.page k) (m1'.mem (w.sys.machine.page n))) :=
    Twin.fill_new halike fun hF => halike.mem _ (not_dirty hu (by simpa [Slot.Tainted] using hF))
  obtain ⟨m2', hfree', halike2, hmem2⟩ := hfill.freePage hfree
  have hmem2' : ∀ q, q ≠ w.sys.machine.page k → m2.mem q = w.sys.machine.mem q := fun q hq => by
    rw [hmem2, fill_mem_of_ne _ hq, hmem1]
  have hapart := hinv.apart_new hp hlt hfresh hmem2'
  have hmap' := hmap
  rw [mapPages_page hva] at hmap'
  obtain ⟨r, hr, -⟩ := map_eq_some_iff.mp hmap'
  obtain ⟨t0, ht0⟩ := hinv.owned.shape.backed _ _ _ _ hu
  obtain rfl := ht.old t0 ht0
  have hdk : va2pa vmm.pgDir ≠ w.sys.machine.page k := by
    rw [hpg]
    exact fun hk => hfresh _ (page_inj hinv.owned.layout (hinv.owned.holds.inside _ _ hd) hlt hk ▸ hd)
  have hrt : r.2 = w.sys.machine.page t0 := by
    have hin := hinv.owned.holds.inside _ _ ht0
    rw [Machine.tableOf, entry_congr (hmem2' _ hdk), hwalks.pde _ (pdIndex_lt hva), ht0] at hr
    rw [if_pos (pdeOf_and_pteP hinv.owned.layout hin), pdeOf_and_pageMask hinv.owned.layout hin] at hr
    rw [← some.inj hr]
  obtain ⟨mt', hmt, hfinal⟩ := halike2.mapPage hapart.dir (hapart.tables _ (pdIndex_lt hva)) hva hr hmap
  rw [hrt] at hfinal
  exact ⟨mt', bind_eq_some_iff.mpr ⟨m2', hfree', hmt⟩,
    h.touched hinv hp hd ht hw he (he.covers _ (hinv.covered p vmm hp _ _ n hu)) hfinal⟩

theorem Twin.doProtectionFault (hu : own (.of p va) = some n) (he : Extends vmm vmm')
    (hm : w.sys.machine.doProtectionFault vmm.pgDir vma va write = some m') :
    ∃ mt', s'.machine.doProtectionFault vmm.pgDir vma va write = some mt' ∧
      Tracks w w.family (w.sys.setProc p m' vmm') (s'.setProc p mt' vmm') := by
  have hapart := hinv.apart hp
  unfold Machine.doProtectionFault at hm ⊢
  rw [h.alike.va2paOf hapart, h.alike.mm]
  dsimp only at hm ⊢
  split at hm
  next h1 =>
    cases hm
    rw [if_pos h1]
    exact ⟨_, rfl, h.setAreas hinv hp he⟩
  next h1 =>
  rw [if_neg h1]
  split at hm
  next h2 =>
    cases hm
    rw [if_pos h2]
    exact ⟨_, rfl, h.setAreas hinv hp he⟩
  next h2 =>
  rw [if_neg h2]
  split at hm
  next href =>
    cases hm
    rw [if_pos href]
    obtain ⟨wr', hinv', -⟩ := hinv.makePteWrite hp hva hu he href
    have hfix : (w.sys.machine.makePteWrite vmm.pgDir va).mm.fixed = w.sys.machine.mm.fixed := by
      obtain ⟨d, hd, hpg⟩ := hinv.dir_eq hp
      obtain ⟨t, -, hmm, -⟩ := (hinv.walks p vmm hp).makePteWrite hinv.owned hd hpg hva hu
      rw [hmm]
    refine ⟨_, rfl, h.tracks_drops hfix hinv' ?_ (h.alike.makePteWrite hapart va) fun _ _ hn => hn⟩
    rw [h.rest]
    rfl
  next href =>
  rw [if_neg href]
  cases ha : w.sys.machine.allocPage with
  | none => simp [ha] at hm
  | some r =>
    obtain ⟨m1', ha', halike⟩ := h.alike.allocPage ha
    rw [ha] at hm
    rw [ha']
    exact h.copyOnWrite hinv hp hva hu he ha halike hm

theorem Twin.goodArea (he : Extends vmm vmm') (hnew : PageIn vmm'.areas va) (hstart : vma.start ≤ va)
    (hclean : p ∉ w.family → present w.sys.machine vmm.pgDir va = false → w.HandsOut)
    (hm : w.sys.machine.goodArea vmm.pgDir vma va (present w.sys.machine vmm.pgDir va) write junk =
      some m') : ∃ mt', s'.machine.goodArea vmm.pgDir vma va (present s'.machine vmm.pgDir va) write junk = some mt' ∧
      Tracks w w.family (w.sys.setProc p m' vmm') (s'.setProc p mt' vmm') := by
  rw [h.alike.present (hinv.apart hp) hva]
  rw [(hinv.walks p vmm hp).present hinv.owned hva] at hm hclean ⊢
  rw [Machine.goodArea, if_pos hstart] at hm ⊢
  cases hu : own (.of p va) with
  | some n =>
    rw [hu] at hm
    exact h.doProtectionFault hinv hp hva hu he hm
  | none =>
    simp only [hu, isSome_none, Bool.false_eq_true, if_false] at hm hclean ⊢
    cases ha : w.sys.machine.allocPage with
    | none => simp [ha] at hm
    | some r =>
      obtain ⟨m1', ha', halike⟩ := h.alike.allocPage ha
      rw [ha] at hm
      rw [ha']
      refine h.firstTouch hinv hp (and_pageMask_lt hva) (by rw [Slot.of_and, hu]) he
        (by rw [PageIn, pdIndex_and, ptIndex_and]; exact hnew) ha halike (fun hF => ?_) hm
      have hnot : va2pa r.2 ∉ w.dirty own := fun hd => hclean hF trivial r.1 r.2 ha hd.1
      funext k
      rw [Machine.recycled, Machine.recycled, halike.mem _ hnot]

end

theorem Twin.fault {kernelPresent user : Bool} {esp : Word} (hclean : p ∉ w.family → Watched.Serves vmm va user esp →
      present w.sys.machine vmm.pgDir va = false → w.HandsOut)
    (hs : w.sys.fault p vmm va (if va < kernelBase then present w.sys.machine vmm.pgDir va
      else kernelPresent) write user esp junk = some (t, e)) :
    ∃ t' e', s'.fault p vmm va (if va < kernelBase then present s'.machine vmm.pgDir va
      else kernelPresent) write user esp junk = some (t', e') ∧ Tracks w w.family t t' := by
  unfold Sys.fault at hs ⊢
  cases hf : findVma vmm.areas va with
  | none =>
    rw [hf] at hs
    obtain ⟨t', ht', htr⟩ := h.exit hinv hp hs
    exact ⟨t', e, ht', htr⟩
  | some vma =>
    have hareas := hinv.areas p vmm hp
    have hva := hareas.findVma_user hf
    rw [hf] at hs
    simp only [if_pos hva] at hs ⊢
    split at hs
    next hlow =>
      rw [if_pos hlow]
      split at hs
      next htest =>
        rw [if_pos htest]
        obtain ⟨m', hm, he⟩ := map_eq_some_iff.mp hs
        cases he
        obtain ⟨h1, h2, h3⟩ := hareas.expandStack hf hlow
        have hext : Extends vmm { vmm with areas := expandStack va vmm.areas } := ⟨rfl, h1, h2⟩
        have hstart : (va &&& pageMask) ≤ va := by
          have hmask := toNat_and_pageMask va
          rw [BitVec.le_def]
          omega
        obtain ⟨mt', hmt, htr⟩ := h.goodArea hinv hp hva hext h3 hstart
          (fun hF => hclean hF ⟨vma, hf, Or.inr htest⟩) hm
        rw [hmt]
        exact ⟨_, _, rfl, htr⟩
      next htest =>
        rw [if_neg htest]
        obtain ⟨t', ht', htr⟩ := h.exit hinv hp hs
        exact ⟨t', e, ht', htr⟩
    next hhigh =>
      rw [if_neg hhigh]
      obtain ⟨m', hm, he⟩ := map_eq_some_iff.mp hs
      cases he
      rw [gt_iff_lt, BitVec.not_lt] at hhigh
      have hext : Extends vmm vmm := ⟨rfl, hareas, fun _ hx => hx⟩
      obtain ⟨mt', hmt, htr⟩ := h.goodArea hinv hp hva hext (hareas.covered_page hf hhigh) hhigh
        (fun hF => hclean hF ⟨vma, hf, Or.inl hhigh⟩) hm
      rw [hmt]
      exact ⟨_, _, rfl, htr⟩

theorem Twin.loadSegment (ha : Paged vaddr) {content content' : Nat → Byte}
    (hc : p ∉ w.family → 0 ≤ (doMmap vmm.areas vaddr pageSize (protRead ||| protWrite ||| protExec)
      mapFixed pool).1.toInt → content' = content) (hs : w.sys.loadSegment p vmm vaddr pool content = some (t, e)) :
    ∃ t' e', s'.loadSegment p vmm vaddr pool content' = some (t', e') ∧ Tracks w w.family t t' := by
  unfold Sys.loadSegment at hs ⊢
  generalize hr : doMmap vmm.areas vaddr pageSize (protRead ||| protWrite ||| protExec) mapFixed pool = r
    at hs hc ⊢
  obtain ⟨hext, hplace⟩ := hinv.segment hp ha hr
  dsimp only at hs ⊢
  split at hs
  next hneg =>
    rw [if_pos hneg]
    rw [← exit_setProc w.sys.machine _ rfl] at hs
    have h1 : Twin ⟨w.sys.setProc p w.sys.machine { vmm with areas := r.2 }, w.family, w.used⟩
        (s'.setProc p s'.machine { vmm with areas := r.2 }) own :=
      ⟨h.alike, by rw [h.rest]; rfl, h.covers, h.inside⟩
    obtain ⟨t', ht', htr⟩ := h1.exit (hinv.setAreas hp hext) setProc_self hs
    rw [exit_setProc _ _ rfl] at ht'
    exact ⟨t', e, ht', htr⟩
  next hpos =>
    rw [if_neg hpos]
    obtain ⟨hva, hu, hcov⟩ := hplace hpos
    cases hal : w.sys.machine.allocPage with
    | none => simp [hal] at hs
    | some a =>
      obtain ⟨m1', hal', halike⟩ := h.alike.allocPage hal
      simp only [hal] at hs
      rw [hal']
      obtain ⟨m1, hm1, he⟩ := map_eq_some_iff.mp hs
      cases he
      obtain ⟨mm', -, ha1⟩ := allocPage_eq hal
      have hmem1 : a.1.mem = w.sys.machine.mem := by rw [ha1]
      obtain ⟨d, hd, hpg⟩ := hinv.dir_eq hp
      have hsame : a.1.fill (va2pa a.2) (a.1.mem (va2pa a.2)) = a.1 := by
        rw [Machine.fill, update_eq_self]
      obtain ⟨own', n, k, ht, -, hpa, -, m4, htable⟩ :=
        hinv.owned.firstTouch hinv.spare (hinv.walks p vmm hp) hd hpg hva hu hal
          (by rw [hsame]; exact hm1)
      rw [hsame] at htable
      have hnd : va2pa a.2 ≠ va2pa vmm.pgDir := by
        rw [hpa, hpg, ← page_of_fixed ht.fixed]
        exact ht.owned.page_ne ((ht.slots _ (by simp) (by simp)).trans hd) ht.user rfl (by simp)
      have hnk : va2pa a.2 ≠ w.sys.machine.page k := by
        rw [hpa, ← page_of_fixed ht.fixed]
        exact ht.owned.page_ne ht.table ht.user rfl (by simp)
      obtain ⟨m4', htable', -⟩ := halike.tableOf (hinv.apart hp).dir
        (((hinv.apart hp).congr hmem1).tables _ (pdIndex_lt hva)) htable
      have hmap : (a.1.fill (va2pa a.2) content).mapPages vmm.pgDir vaddr (va2pa a.2) pageSize
          (pteW ||| pteU) = some (m1.fill (va2pa a.2) content) := by
        rw [mapPages_fill hva hnd fun r hr => ?_, hm1]
        · rfl
        · rw [← some.inj (htable.symm.trans hr)]
          exact hnk
      obtain ⟨mt', hmt, htr⟩ := h.firstTouch hinv hp hva hu hext hcov hal halike
        (fun hF => hc hF (by omega)) hmap
      rw [mapPages_fill hva hnd fun r hr => by
        rw [← some.inj (htable'.symm.trans hr)]
        exact hnk] at hmt
      obtain ⟨m2', hm2', rfl⟩ := map_eq_some_iff.mp hmt
      dsimp only
      rw [hm2']
      exact ⟨_, _, rfl, htr⟩

theorem Twin.initUserStack (pool : Bool) :
    Tracks w w.family (w.sys.initUserStack p vmm pool) (s'.initUserStack p vmm pool) := by
  unfold Sys.initUserStack
  cases pool with
  | false => exact h.tracks_drops rfl hinv h.rest h.alike fun _ _ hn => hn
  | true => exact h.setAreas hinv hp (hinv.stack_extends hp)

end

theorem Twin.reap (hs : w.sys.reap p = some t) : ∃ t', s'.reap p = some t' ∧ Tracks w w.family t t' := by
  obtain ⟨own', hdrops, hinv', -⟩ := hinv.reap hs
  obtain ⟨dir, hz, hs⟩ := bind_eq_some_iff.mp hs
  obtain ⟨m1, hm, rfl⟩ := map_eq_some_iff.mp hs
  obtain ⟨-, d, hd, rfl⟩ := hinv.zombie p dir hz
  obtain ⟨m2, hfree, -, -, hfix⟩ := hinv.owned.freePage hd (by simp)
  obtain rfl : m2 = m1 := some.inj (hfree.symm.trans hm)
  obtain ⟨m1', hm', halike, -⟩ := h.alike.freePage hm
  have hz' : s'.zombies p = some (w.sys.machine.mm.pageAddr d) := by rw [h.rest]; exact hz
  refine ⟨_, by rw [Sys.reap, hz', bind_some, hm']; rfl,
    h.tracks_drops hfix hinv' ?_ halike hdrops⟩
  rw [h.rest]

theorem Twin.kalloc (hs : w.sys.kalloc = some t) : ∃ t', s'.kalloc = some t' ∧ Tracks w w.family t t' := by
  obtain ⟨n, hinv', -⟩ := hinv.kalloc hs
  obtain ⟨r, ha, rfl⟩ := map_eq_some_iff.mp hs
  obtain ⟨m1', ha', halike⟩ := h.alike.allocPage ha
  obtain ⟨-, -, -, -, -, -, hfix, -⟩ := hinv.owned.allocPage ha hinv.spare (by simp) (by simp)
  have hused : ∀ q ∈ w.dirty own, q ∈ w.used := fun _ hq => hq.1
  refine ⟨_, by rw [Sys.kalloc, ha']; rfl, h.tracks hfix hinv' ?_ halike
    (fun q hq => Or.inl (hused q hq)) fun u k hu ht => ?_⟩
  · rw [h.rest]
  · by_cases huk : u = .kernel n
    · exact absurd (huk ▸ trivial) ht
    · rw [update_of_ne huk] at hu
      exact not_dirty hu ht

theorem Twin.kfree (hs : w.sys.kfree addr = some t) : ∃ t', s'.kfree addr = some t' ∧ Tracks w w.family t t' := by
  obtain ⟨own', hdrops, hinv', -⟩ := hinv.kfree hs
  rw [Sys.kfree] at hs ⊢
  split_ifs at hs with hkept
  obtain ⟨m1, hm, rfl⟩ := map_eq_some_iff.mp hs
  obtain ⟨n, rfl, hn⟩ := hinv.kept addr hkept
  obtain ⟨m2, hfree, -, -, hfix⟩ := hinv.owned.freePage hn (by simp)
  obtain rfl : m2 = m1 := some.inj (hfree.symm.trans hm)
  obtain ⟨m1', hm', halike, -⟩ := h.alike.freePage hm
  have hkept' : s'.kernelPages (w.sys.machine.mm.pageAddr n) = true := by rw [h.rest]; exact hkept
  refine ⟨_, by rw [if_pos hkept', hm']; rfl, h.tracks_drops hfix hinv' ?_ halike hdrops⟩
  rw [h.rest]

theorem Twin.munmap (hp : w.sys.procs p = some vmm)
    {len prot flags : Word} (hfit : w.sys.Fits (.munmap p addr len pool prot flags))
    (hs : w.sys.munmap p vmm addr len pool prot flags = some t) :
    ∃ t', s'.munmap p vmm addr len pool prot flags = some t' ∧ Tracks w w.family t t' := by
  obtain ⟨hinv', -, hfix⟩ := hinv.munmap hp hfit hs
  by_cases hpass : pool = true ∧ Unmaps vmm addr len
  · obtain ⟨rfl, hu⟩ := hpass
    rw [munmap_passed hu] at hs ⊢
    obtain ⟨m1, hm, rfl⟩ := map_eq_some_iff.mp hs
    obtain ⟨m1', hm', halike, -⟩ := h.alike.freePageLoop (hinv.apart hp) hm
    refine ⟨_, map_eq_some_iff.mpr ⟨m1', hm', rfl⟩, h.tracks_drops hfix hinv' ?_ halike fun _ _ hn => hn⟩
    rw [h.rest]
    rfl
  · rw [munmap_refused hpass] at hs ⊢
    cases hs
    exact ⟨_, rfl, h.tracks_drops rfl hinv h.rest h.alike fun _ _ hn => hn⟩

omit h hinv in
theorem step_some {x : Option Sys} {d : VmEvent} {P : Sys → Prop} (hx : ∃ t', x = some t' ∧ P t') :
    ∃ t' e', x.map (fun t => (t, d)) = some (t', e') ∧ P t' := by
  obtain ⟨t', ht', hp⟩ := hx
  exact ⟨t', d, map_eq_some_iff.mpr ⟨t', ht', rfl⟩, hp⟩

theorem Twin.step {a : VmAct} (hclean : w.Clean (.vm a)) (hs : w.sys.step a = some (t, e)) :
    ∃ t' e', s'.step a = some (t', e') ∧ Tracks w (LoadAct.family w.family (.vm a)) t t' := by
  have hprocs : ∀ {p vmm}, w.sys.procs p = some vmm → s'.procs p = some vmm := fun hp => by
    rw [h.rest]
    exact hp
  cases a with
  | store p va x =>
    obtain ⟨ht, rfl⟩ := step_eq hs
    exact step_some (h.store hinv (Or.inr rfl) ht)
  | fault p va write user kernelPresent esp junk =>
    obtain ⟨vmm, hp, hs⟩ := bind_eq_some_iff.mp hs
    split at hs
    next => simp at hs
    next hno =>
      obtain ⟨t', e', ht', htr⟩ := h.fault hinv hp (fun hF => hclean hF vmm hp) hs
      refine ⟨t', e', bind_eq_some_iff.mpr ⟨vmm, hprocs hp, ?_⟩, htr⟩
      rw [h.alike.translate (hinv.apart hp), if_neg hno]
      exact ht'
  | fork p c =>
    obtain ⟨ht, rfl⟩ := step_eq hs
    exact step_some (h.fork hinv ht)
  | exit p =>
    obtain ⟨vmm, hp, hs⟩ := bind_eq_some_iff.mp hs
    obtain ⟨t', ht', htr⟩ := h.exit hinv hp hs
    exact ⟨t', _, bind_eq_some_iff.mpr ⟨vmm, hprocs hp, ht'⟩, htr⟩
  | reap p =>
    obtain ⟨ht, rfl⟩ := step_eq hs
    exact step_some (h.reap hinv ht)
  | release p =>
    obtain ⟨vmm, hp, hs⟩ := bind_eq_some_iff.mp hs
    obtain ⟨r, hr, he⟩ := map_eq_some_iff.mp hs
    cases he
    obtain ⟨m', hr', htr⟩ := h.release hinv hp hr
    exact ⟨_, _, bind_eq_some_iff.mpr ⟨vmm, hprocs hp, map_eq_some_iff.mpr ⟨_, hr', rfl⟩⟩, htr⟩
  | loadSegment p vaddr pool content =>
    obtain ⟨vmm, hp, hs⟩ := bind_eq_some_iff.mp hs
    obtain ⟨t', e', ht', htr⟩ := h.loadSegment hinv hp (paged_and vaddr) (fun _ _ => rfl) hs
    exact ⟨t', e', bind_eq_some_iff.mpr ⟨vmm, hprocs hp, ht'⟩, htr⟩
  | initUserStack p pool =>
    obtain ⟨vmm, hp, he⟩ := map_eq_some_iff.mp hs
    cases he
    exact ⟨_, _, map_eq_some_iff.mpr ⟨vmm, hprocs hp, rfl⟩, h.initUserStack hinv hp pool⟩
  | mmap p c =>
    obtain ⟨vmm, hp, he⟩ := map_eq_some_iff.mp hs
    cases he
    have hm := (hinv.areas p vmm hp).doMmap (hclean vmm hp)
    exact ⟨_, _, map_eq_some_iff.mpr ⟨vmm, hprocs hp, rfl⟩, h.setAreas hinv hp ⟨rfl, hm.ok, hm.grows⟩⟩
  | munmap p addr len pool prot flags =>
    obtain ⟨vmm, hp, hs⟩ := bind_eq_some_iff.mp hs
    obtain ⟨ht, rfl⟩ := step_eq hs
    obtain ⟨t', ht', htr⟩ := h.munmap hinv hp hclean ht
    exact ⟨t', _, bind_eq_some_iff.mpr ⟨vmm, hprocs hp, map_eq_some_iff.mpr ⟨t', ht', rfl⟩⟩, htr⟩
  | kalloc =>
    obtain ⟨ht, rfl⟩ := step_eq hs
    exact step_some (h.kalloc hinv ht)
  | kfree addr =>
    obtain ⟨ht, rfl⟩ := step_eq hs
    exact step_some (h.kfree hinv ht)

omit h hinv in
theorem Twin.nextPage (h : Twin w s' own) (hout : w.HandsOut) (junk : Nat → Byte) :
    s'.nextPage junk = w.sys.nextPage junk := by
  cases ha : w.sys.machine.allocPage with
  | none =>
    have ha' : s'.machine.allocPage = none := by
      unfold Machine.allocPage at ha ⊢
      rw [h.alike.mm]
      split at ha
      next => simp at ha
      next => rfl
    rw [Sys.nextPage, Sys.nextPage, ha, ha']
  | some r =>
    obtain ⟨m1', ha', halike⟩ := h.alike.allocPage ha
    have hnot : va2pa r.2 ∉ w.dirty own := fun hd => hout r.1 r.2 ha hd.1
    rw [Sys.nextPage, Sys.nextPage, ha, ha']
    funext k
    simp only [Machine.recycled, halike.mem _ hnot]

theorem Twin.loadElf
    {filesz memsz : Nat} {file : Nat → Byte} (hclean : w.Clean (.loadElf p vaddr pool filesz memsz file junk))
    (hs : w.sys.step (w.sys.loadAct (.loadElf p vaddr pool filesz memsz file junk)) = some (t, e)) :
    ∃ t' e', s'.step (s'.loadAct (.loadElf p vaddr pool filesz memsz file junk)) = some (t', e') ∧
      Tracks w w.family t t' := by
  obtain ⟨vmm, hp, hs⟩ := bind_eq_some_iff.mp hs
  have hp' : s'.procs p = some vmm := by rw [h.rest]; exact hp
  obtain ⟨t', e', ht', htr⟩ := h.loadSegment hinv hp (paged_and vaddr)
    (fun hF hpos => congrArg (elfContent · _ _ _ _) (h.nextPage (hclean hF vmm hp hpos) junk)) hs
  exact ⟨t', e', bind_eq_some_iff.mpr ⟨vmm, hp', ht'⟩, htr⟩

theorem Twin.nextLoad {a b : LoadAct} (hclean : w.Clean a)
    (hab : a = b ∨ ∃ p va x y, p ∈ w.family ∧ a = .vm (.store p va x) ∧ b = .vm (.store p va y))
    (hs : w.sys.nextLoad a = some t) : ∃ t', s'.nextLoad b = some t' ∧ Tracks w (a.family w.family) t t' := by
  obtain ⟨⟨t, e⟩, hstep, rfl⟩ := map_eq_some_iff.mp hs
  have hdone : ∀ {t' e'}, s'.step (s'.loadAct b) = some (t', e') → s'.nextLoad b = some t' := by
    intro t' e' hb
    rw [Sys.nextLoad, Sys.next, hb]
    rfl
  rcases hab with rfl | ⟨p, va, x, y, hF, rfl, rfl⟩
  · cases a with
    | vm a =>
      obtain ⟨t', e', ht', htr⟩ := h.step hinv hclean hstep
      exact ⟨t', hdone ht', htr⟩
    | loadElf p vaddr pool filesz memsz file junk =>
      obtain ⟨t', e', ht', htr⟩ := h.loadElf hinv hclean hstep
      exact ⟨t', hdone ht', htr⟩
  · obtain ⟨t1, ht, he⟩ := map_eq_some_iff.mp hstep
    cases he
    obtain ⟨t', ht', htr⟩ := h.store hinv (Or.inl hF) ht
    exact ⟨t', hdone (map_eq_some_iff.mpr ⟨t', ht', rfl⟩), htr⟩

theorem Twin.run {as bs : List LoadAct} {v : Watched}
    (hsame : SameBut w.family as bs) (hclean : Along Watched.next Watched.Clean w as)
    (hrun : run Watched.next w as = some v) :
    ∃ t' own' wr', BabyOS.run Sys.nextLoad s' bs = some t' ∧ Inv v.sys own' wr' ∧ Twin v t' own' := by
  induction as generalizing w s' own wr bs with
  | nil =>
    cases bs with
    | nil =>
      cases some.inj hrun
      exact ⟨s', own, wr, rfl, hinv, h⟩
    | cons b bs => exact hsame.elim
  | cons a as ih =>
    cases bs with
    | nil => exact hsame.elim
    | cons b bs =>
      obtain ⟨w1, hnext, hrest⟩ := run_cons hrun
      obtain ⟨hab, hsame⟩ := hsame
      obtain ⟨t, ht, rfl⟩ := map_eq_some_iff.mp hnext
      obtain ⟨t1, ht1, own1, wr1, hinv1, h1⟩ := h.nextLoad hinv hclean.1 hab ht
      obtain ⟨t', own', wr', hrun', hfinal⟩ := ih h1 hinv1 hsame (hclean.2 _ hnext) hrest
      exact ⟨t', own', wr', run_step ht1 hrun', hfinal⟩

theorem Twin.load (hp : p ∉ w.family) (va : Word) : s'.load p va = w.sys.load p va := by
  cases hv : w.sys.procs p with
  | none =>
    have hv' : s'.procs p = none := by rw [h.rest]; exact hv
    rw [Sys.load, Sys.load, hv, hv']
    rfl
  | some vmm =>
    have hv' : s'.procs p = some vmm := by rw [h.rest]; exact hv
    rw [Sys.load, Sys.load, hv, hv', bind_some, bind_some, h.alike.translate (hinv.apart hv)]
    cases ht : w.sys.machine.translate vmm.pgDir va false with
    | none => rfl
    | some page =>
      obtain ⟨n, -, hu, rfl, -⟩ := hinv.translate hv ht
      rw [map_some, map_some, h.alike.mem _ (not_dirty hu (by simpa [Slot.Tainted] using hp))]

end

end

def watch (s : Sys) (p : Nat) : Watched := ⟨s, {p}, s.pagesOf {p}⟩

section

variable {s : Sys} {own : Slot → Option Nat} {wr : Slot → Bool} {p : Nat}

theorem Inv.twin (h : Inv s own wr) (p : Nat) : Twin (watch s p) s own := by
  refine ⟨⟨rfl, fun _ _ => rfl⟩, rfl, fun q i j n hq hn => h.mem_pagesOf hq hn, fun q hq => ?_⟩
  obtain ⟨n, -, -, -, -, hn, -, rfl⟩ := hq
  exact ⟨n, hn, rfl⟩

/-- As long as no page that a process or a descendant ever had is handed out to another, the others load the same
bytes whatever these store. -/
theorem loads_same_whatever_stored {s0 : Sys} {acts : List VmAct} {as bs : List LoadAct} {v : Watched}
    (hboot : Booted s0) (hfit : Along next Fits s0 acts) (hrun : run next s0 acts = some s)
    (hsame : SameBut {p} as bs) (hclean : Along Watched.next Watched.Clean (watch s p) as)
    (has : run Watched.next (watch s p) as = some v) :
    ∃ t, run nextLoad s bs = some t ∧ ∀ q, q ∉ v.family → ∀ va, t.load q va = v.sys.load q va := by
  obtain ⟨own, wr, hinv⟩ := hboot.run hfit hrun
  obtain ⟨t, own', wr', ht, hinv', htwin⟩ := (hinv.twin p).run hinv hsame hclean has
  exact ⟨t, ht, fun q hq va => htwin.load hinv' hq va⟩

def touchAfter (b : Byte) : List LoadAct :=
  [.vm (.store 1 stackPage b), .vm (.fault 2 (below 1) true true false 0 fun _ => 0)]

theorem Inv.handsOut {w : Watched} (h : Inv w.sys own wr)
    (hused : ∀ q ∈ w.used, ∃ u n, own u = some n ∧ q = w.sys.machine.page n) : w.HandsOut := by
  intro m mem ha hq
  obtain ⟨n, hpa, -, hlt, hfresh, -⟩ := h.owned.allocPage ha h.spare (by simp) (by simp)
  obtain ⟨u, k, hu, he⟩ := hused _ hq
  have hkn := page_inj h.owned.layout (h.owned.holds.inside _ _ hu) hlt (he.symm.trans hpa)
  exact hfresh u (hkn ▸ hu)

theorem Inv.pagesOf_slot (h : Inv s own wr) {F : Set Nat} :
    ∀ q ∈ s.pagesOf F, ∃ u n, own u = some n ∧ q = s.machine.page n := by
  rintro q ⟨n, p, i, j, -, hn, hmaps, rfl⟩
  exact ⟨.user p i j, n, (h.maps_iff hn).mp hmaps, rfl⟩

theorem loads_same_whatever_stored_touch : ∃ mm s v t, Clients.smallMem.initFreeArea = some mm ∧
    run next (bootSys mm) (spawn 2 ++ spawn 1) = some s ∧
    run Watched.next (watch s 1) (touchAfter 7) = some v ∧ run nextLoad s (touchAfter 8) = some t ∧
    ∀ q, q ∉ v.family → ∀ va, t.load q va = v.sys.load q va := by
  obtain ⟨mm, hinit, hboot, hroom⟩ := smallMem_room
  obtain ⟨s1, own1, wr1, hrun1, h1⟩ := hboot.inv.spawn (c := 2) (by omega) (by decide) rfl rfl
  have hcount1 := h1.count
  obtain ⟨s2, own2, wr2, hrun2, h2⟩ := h1.inv.spawn (c := 1) (by omega) (by decide)
    (by rw [h1.others 1 (by decide)]; rfl) (by rw [h1.zombies]; rfl)
  have hcount2 := h2.count
  obtain ⟨dir1, hp1⟩ := h2.proc
  obtain ⟨dir2, hp2⟩ := h1.proc
  have hp2' : s2.procs 2 = some ⟨[stackArea], dir2⟩ := by rw [h2.others 2 (by decide), hp2]
  obtain ⟨n, hu⟩ := ne_none_iff_exists'.mp h2.user
  obtain ⟨i0, j0⟩ : pdIndex stackPage = 767 ∧ ptIndex stackPage = 1023 := by decide
  obtain ⟨i1, j1⟩ : pdIndex (below 1) = 767 ∧ ptIndex (below 1) = 1022 := by decide
  have hwr := h2.writable
  rw [← i0, ← j0] at hu hwr
  have htrans := (h2.inv.walks 1 _ hp1).translate h2.inv.owned (show stackPage < kernelBase by decide) true
  rw [hu, hwr] at htrans
  obtain ⟨s3, hstore, hinv3, hmm, hprocs⟩ : ∃ s3, s2.next (.store 1 stackPage 7) = some s3 ∧ Inv s3 own2 wr2 ∧
      s3.machine.mm = s2.machine.mm ∧ s3.procs = s2.procs := by
    refine ⟨_, ?_, (h2.inv.fill hp1 hu hwr (update (s2.machine.mem (s2.machine.page n)) (pageOffset stackPage) 7)).1,
      rfl, rfl⟩
    rw [Sys.next, Sys.step, Sys.store, hp1, bind_some, htrans]
    rfl
  have hp3 : s3.procs 2 = some ⟨[stackArea], dir2⟩ := by rw [hprocs, hp2']
  have hnone : own2 (.user 2 (pdIndex (below 1)) (ptIndex (below 1))) = none := by
    rw [i1, j1, h2.slots _ (by simp) (by simp) (by simp), h1.slots _ (by simp) (by simp) (by simp)]
  obtain ⟨s4, own4, wr4, k, hfault, -, -⟩ := hinv3.touch hp3 hnone (by rw [hmm]; omega)
    (Or.inl (by rw [hmm]; omega)) (show findVma [stackArea] (below 1) = some stackArea by decide)
    (Or.inr (by decide))
  generalize hw3 : (⟨s3, {1}, s2.pagesOf {1} ∪ s3.pagesOf {1}⟩ : Watched) = w3
  have hnext1 : Watched.next (watch s2 1) (.vm (.store 1 stackPage 7)) = some w3 := by
    rw [Watched.next, ← hw3]
    exact map_eq_some_iff.mpr ⟨s3, hstore, rfl⟩
  have hnext2 : ∃ v, Watched.next w3 (.vm (.fault 2 (below 1) true true false 0 fun _ => 0)) = some v := by
    rw [Watched.next, ← hw3]
    exact ⟨_, map_eq_some_iff.mpr ⟨s4, hfault, rfl⟩⟩
  obtain ⟨v, hnext2⟩ := hnext2
  have hwatch : run Watched.next (watch s2 1) (touchAfter 7) = some v :=
    run_step hnext1 (run_step hnext2 (run_nil v))
  have hout : w3.HandsOut := by
    rw [← hw3]
    refine Inv.handsOut hinv3 fun q hq => ?_
    rcases hq with hq | hq
    · obtain ⟨u, m, hm, he⟩ := h2.inv.pagesOf_slot q hq
      refine ⟨u, m, hm, ?_⟩
      rw [he, page_of_fixed (show s3.machine.mm.fixed = s2.machine.mm.fixed by rw [hmm])]
    · exact hinv3.pagesOf_slot q hq
  have hclean : Along Watched.next Watched.Clean (watch s2 1) (touchAfter 7) := by
    exact along_cons trivial hnext1 (along_cons (fun _ _ _ _ _ => hout) hnext2 trivial)
  have hsame : SameBut {1} (touchAfter 7) (touchAfter 8) :=
    ⟨Or.inr ⟨1, stackPage, 7, 8, rfl, rfl, rfl⟩, Or.inl rfl, trivial⟩
  have hrun : run next (bootSys mm) (spawn 2 ++ spawn 1) = some s2 := by rw [run_append hrun1, hrun2]
  have hfit : Along next Fits (bootSys mm) (spawn 2 ++ spawn 1) :=
    ⟨trivial, fun _ _ => ⟨trivial, fun _ _ => ⟨trivial, fun _ _ => ⟨trivial, fun _ _ => ⟨trivial,
      fun _ _ => ⟨trivial, fun _ _ => trivial⟩⟩⟩⟩⟩⟩
  obtain ⟨t, ht, hload⟩ := loads_same_whatever_stored hboot hfit hrun hsame hclean hwatch
  exact ⟨mm, s2, v, t, hinit, hrun, hwatch, ht, hload⟩

/-- Two runs that differ in the byte that process 1 stores before it exits: process 2, not its child, loads
different bytes from its stack that it never wrote to. -/
theorem recycled_page_shows_byte : ∃ mm n b b' s s', Clients.smallMem.initFreeArea = some mm ∧
    run next (bootSys mm) (crowd n ++ ([.store 1 (stackPage + 100) b, .exit 1] ++
      [.fault 2 (below 1) true true false 0 fun _ => 0, .fault 2 (below 2) true true false 0 fun _ => 0])) =
        some s ∧
    run next (bootSys mm) (crowd n ++ ([.store 1 (stackPage + 100) b', .exit 1] ++
      [.fault 2 (below 1) true true false 0 fun _ => 0, .fault 2 (below 2) true true false 0 fun _ => 0])) =
        some s' ∧
    ∃ va, s.load 2 va ≠ s'.load 2 va := by
  obtain ⟨mm, hinit, hboot, hpages⟩ := smallMem_booted
  obtain ⟨n, s1, own1, wr1, hrun1, h1⟩ := hboot.full hpages
  choose s2 own2 a t hrun2 h2 using h1.leave
  choose s hrun hseen using fun b => (h2 b).seen
  -- one of the two pages shows the byte of the run, and three bytes do not fit into two places
  by_contra hno
  have hload : ∀ b b' va, (s b).load 2 va = (s b').load 2 va := fun b b' va => by
    by_contra hne
    refine hno ⟨mm, n, b, b', s b, s b', hinit, ?_, ?_, va, hne⟩
    all_goals rw [run_append hrun1, run_append (hrun2 _), hrun]
  have hzero : ∀ b, (s 0).load 2 (below 1 + 100) = some b ∨ (s 0).load 2 (below 2 + 100) = some b := by
    intro b
    rw [hload 0 b, hload 0 b]
    exact hseen b
  clear * - hzero
  rcases hzero 0 with h0 | h0 <;> rcases hzero 1 with h1 | h1 <;> rcases hzero 2 with h2 | h2 <;> simp_all

end

end Sys

end BabyOS
