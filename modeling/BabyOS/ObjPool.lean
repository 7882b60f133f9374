import BabyOS.Bytes
import BabyOS.MmHolds
import BabyOS.MmRun
import Mathlib.Logic.Relation

open Function List

namespace BabyOS

/-- An `object_pool_t` with the page allocator and the memory. Recorded too: the objects in use, all objects cut
from a page, the numbers of these pages, and the pages held elsewhere. -/
structure ObjPool (τ : Type) where
  mm : Mm
  mem : Nat → Byte
  objSize : Nat
  available : Nat
  freeList : Word
  live : List Nat
  carved : List Nat
  pages : List Nat
  rest : τ → Option Nat
  size : 4 ≤ objSize ∧ objSize ≤ 4096

namespace ObjPool

variable {τ : Type}

def init (mm : Mm) (mem : Nat → Byte) (rest : τ → Option Nat) (objSize : Nat) (h : 4 ≤ objSize ∧ objSize ≤ 4096) :
    ObjPool τ :=
  ⟨mm, mem, objSize, 0, 0, [], [], [], rest, h⟩

def freeObjectNolock (s : ObjPool τ) (obj : Nat) : ObjPool τ :=
  let mem := setWord s.mem obj 0
  { s with
    mem := if s.freeList = 0 then mem else setWord mem obj s.freeList
    freeList := .ofNat 32 obj
    available := s.available + 1 }

/-- The loop of `alloc_from_pool` over a new page. -/
def carve (s : ObjPool τ) (mem stop : Nat) : ObjPool τ :=
  if mem + s.objSize ≤ stop then
    carve { s.freeObjectNolock mem with carved := mem :: s.carved } (mem + s.objSize) stop
  else s
termination_by stop - mem
decreasing_by
  have := s.size
  omega

def takeFirst (s : ObjPool τ) : Word × ObjPool τ :=
  (s.freeList, { s with freeList := getWord s.mem s.freeList.toNat, available := s.available - 1 })

def allocFromPool (s : ObjPool τ) : Option (Word × ObjPool τ) :=
  if s.freeList = 0 then
    match s.mm.allocPages 0 with
    | (mm, some addr) =>
      let t := { s with mm := mm, pages := s.pages ++ [(mapNr (addr - s.mm.base)).toNat] }
      some (t.carve addr.toNat (addr.toNat + 4096)).takeFirst
    | (_, none) => none
  else some s.takeFirst

def held (pages : List Nat) (rest : τ → Option Nat) : Nat ⊕ τ → Option Nat :=
  Sum.elim (fun i => pages[i]?) rest

/-- The bytes from `a` to `b` are in a page of the pool. -/
def InPage (s : ObjPool τ) (a b : Nat) : Prop :=
  ∃ n ∈ s.pages, s.mm.base.toNat + 4096 * n ≤ a ∧ b ≤ s.mm.base.toNat + 4096 * n + 4096

/-- A call of the pool, or anything that the rest of the kernel does with its own pages and the objects in use. -/
inductive Step : ObjPool τ → ObjPool τ → Prop
  | alloc {s t : ObjPool τ} {obj : Word} (h : s.allocFromPool = some (obj, t)) :
    Step s { t with live := obj.toNat :: t.live }
  | free {s : ObjPool τ} {obj : Nat} (h : obj ∈ s.live) :
    Step s { s.freeObjectNolock obj with live := s.live.erase obj }
  | others {s : ObjPool τ} {mm : Mm} {mem : Nat → Byte} {rest : τ → Option Nat} (hfixed : mm.fixed = s.mm.fixed)
    (hmm : mm.Holds (held s.pages rest))
    (hmem : ∀ a, s.InPage a (a + 1) → (∀ o ∈ s.live, a < o ∨ o + s.objSize ≤ a) → mem a = s.mem a) :
    Step s { s with mm := mm, mem := mem, rest := rest }

def Clear (size a b : Nat) : Prop := a + size ≤ b ∨ b + size ≤ a

def ptr (w : Word) : Option Nat := if w = 0 then none else some w.toNat

def FreeList (s : ObjPool τ) (free : List Nat) : Prop :=
  Chain (fun a => ptr (getWord s.mem a)) (ptr s.freeList) free ∧ s.available = free.length

/-- All objects are apart and in pages of the pool, and each is once in the free list or in use. -/
structure Safe (s : ObjPool τ) : Prop where
  inside : ∀ o ∈ s.carved, s.InPage o (o + s.objSize)
  clear : s.carved.Pairwise (Clear s.objSize)
  free : ∃ free, s.FreeList free ∧ (free ++ s.live).Perm s.carved

structure Inv (s : ObjPool τ) : Prop extends Safe s where
  holds : s.mm.Holds (held s.pages s.rest)

variable {s t : ObjPool τ} {free : List Nat} {obj n : Nat}

theorem Clear.symm {size a b : Nat} (h : Clear size a b) : Clear size b a := Or.symm h

/-- An object is not the null pointer, and its address has 32 bits. -/
theorem Inv.range (h : Inv s) (hobj : s.InPage obj (obj + s.objSize)) : 0 < obj ∧ obj < 2 ^ 32 := by
  obtain ⟨n, hn, hlow, hhigh⟩ := hobj
  obtain ⟨i, hi⟩ := mem_iff_getElem?.mp hn
  have hin := h.holds.inside (.inl i) n hi
  have hend := h.holds.layout.end_of_pages hin
  have hkernel := h.holds.layout.kernel
  have hlast := s.mm.memEnd.isLt
  have hsize := s.size
  rw [toNat_kernelBase] at hkernel
  omega

theorem FreeList.push (h : s.FreeList free) (hrange : 0 < obj ∧ obj < 2 ^ 32) (hclear : ∀ x ∈ free, Clear 4 obj x) :
    (s.freeObjectNolock obj).FreeList (obj :: free) := by
  have hobj : (BitVec.ofNat 32 obj).toNat = obj := BitVec.toNat_ofNat .. ▸ Nat.mod_eq_of_lt hrange.2
  have hfirst : ptr (.ofNat 32 obj) = some obj := by
    have hne : BitVec.ofNat 32 obj ≠ 0 := by bv_omega
    rw [ptr, if_neg hne, hobj]
  have hnext : getWord (s.freeObjectNolock obj).mem obj = s.freeList := by
    unfold freeObjectNolock
    dsimp only
    split
    next hnull => rw [getWord_setWord_self, hnull]
    next => rw [getWord_setWord_self]
  refine ⟨⟨hfirst, ?_⟩, congrArg (· + 1) h.2⟩
  dsimp only
  rw [hnext]
  refine h.1.congr fun x hx => ?_
  have hout := hclear x hx
  unfold freeObjectNolock
  dsimp only
  split
  next => rw [getWord_setWord_ne hout]
  next => rw [getWord_setWord_ne hout, getWord_setWord_ne hout]

theorem Inv.pairwise {xs : List Nat} (h : Inv s) (hp : xs.Perm s.carved) : xs.Pairwise (Clear s.objSize) :=
  (hp.pairwise_iff Clear.symm).mpr h.clear

theorem Clear.link {a b : Nat} (h : Clear s.objSize a b) : Clear 4 a b := by
  have hsize := s.size
  unfold Clear at h ⊢
  omega

theorem Inv.freeObject (h : Inv s) (hobj : obj ∈ s.live) : Inv { s.freeObjectNolock obj with live := s.live.erase obj } := by
  obtain ⟨free, hfree, hperm⟩ := h.free
  have hp : (obj :: (free ++ s.live.erase obj)).Perm s.carved :=
    (perm_middle.symm.trans ((perm_cons_erase hobj).symm.append_left free)).trans hperm
  have hcarved := h.inside obj (hperm.subset (mem_append_right _ hobj))
  have hpush := hfree.push (h.range hcarved) fun x hx =>
    ((pairwise_cons.mp (h.pairwise hp)).1 x (mem_append_left _ hx)).link
  exact ⟨⟨h.inside, h.clear, _, hpush, hp⟩, h.holds⟩

theorem Inv.carveObject (h : Inv s) (hobj : s.InPage obj (obj + s.objSize)) (hclear : ∀ x ∈ s.carved, Clear s.objSize obj x) :
    Inv { s.freeObjectNolock obj with carved := obj :: s.carved } := by
  obtain ⟨free, hfree, hperm⟩ := h.free
  have hpush := hfree.push (h.range hobj) fun x hx => (hclear x (hperm.subset (mem_append_left _ hx))).link
  exact ⟨⟨forall_mem_cons.mpr ⟨hobj, h.inside⟩, pairwise_cons.mpr ⟨hclear, h.clear⟩, _, hpush, hperm.cons obj⟩, h.holds⟩

/-- The loop keeps the invariant, as no object lies behind the place where it cuts. -/
theorem Inv.carve {mem stop : Nat} (h : Inv s) (hpage : s.InPage mem stop)
    (hbehind : ∀ x ∈ s.carved, x + s.objSize ≤ mem ∨ stop ≤ x) (hfirst : s.freeList ≠ 0 ∨ mem + s.objSize ≤ stop) :
    Inv (s.carve mem stop) ∧ (s.carve mem stop).freeList ≠ 0 := by
  fun_induction ObjPool.carve s mem stop with
  | case1 s mem hfit ih =>
    have hobj : s.InPage mem (mem + s.objSize) := by
      obtain ⟨n, hn, hlow, hhigh⟩ := hpage
      exact ⟨n, hn, hlow, by omega⟩
    have hrange := h.range hobj
    have hsize := s.size
    apply ih
    · exact h.carveObject hobj fun x hx => by
        have hx' := hbehind x hx
        unfold Clear
        omega
    · obtain ⟨n, hn, hlow, hhigh⟩ := hpage
      exact ⟨n, hn, Nat.le_add_right_of_le hlow, hhigh⟩
    · refine forall_mem_cons.mpr ⟨Or.inl le_rfl, fun x hx => ?_⟩
      have hx' := hbehind x hx
      unfold freeObjectNolock
      dsimp only
      omega
    · left
      unfold freeObjectNolock
      dsimp only
      bv_omega
  | case2 s mem hfit => exact ⟨h, hfirst.resolve_right hfit⟩

theorem Inv.takeFirst (h : Inv s) (hne : s.freeList ≠ 0) :
    Inv { s.takeFirst.2 with live := s.takeFirst.1.toNat :: s.takeFirst.2.live } := by
  obtain ⟨free, ⟨hchain, hlen⟩, hperm⟩ := h.free
  rw [ptr, if_neg hne] at hchain
  cases free with
  | nil => cases hchain
  | cons x free =>
    cases Option.some.inj hchain.1
    refine ⟨⟨h.inside, h.clear, free, ⟨hchain.2, ?_⟩, perm_middle.trans hperm⟩, h.holds⟩
    exact Nat.sub_eq_of_eq_add hlen

theorem update_held [DecidableEq τ] (pages : List Nat) (rest : τ → Option Nat) (n : Nat) :
    update (held pages rest) (.inl pages.length) (some n) = held (pages ++ [n]) rest := by
  rw [held, Sum.update_elim_inl]
  congr 1
  funext i
  by_cases hi : i = pages.length
  · subst hi
    simp
  · rw [update_of_ne hi]
    grind

theorem InPage.mono {a b : Nat} (h : s.InPage a b) (hpages : s.pages ⊆ t.pages) (hfixed : t.mm.fixed = s.mm.fixed) :
    t.InPage a b := by
  obtain ⟨n, hn, hab⟩ := h
  refine ⟨n, hpages hn, ?_⟩
  rwa [show t.mm.base = s.mm.base from congrArg Prod.fst hfixed]

theorem Inv.newPage [DecidableEq τ] {mm : Mm} {addr : Word} (h : Inv s) (hp : s.mm.allocPages 0 = (mm, some addr)) :
    let t := { s with mm := mm, pages := s.pages ++ [(mapNr (addr - s.mm.base)).toNat] }
    Inv t ∧ t.InPage addr.toNat (addr.toNat + 4096) ∧
      ∀ x ∈ s.carved, x + s.objSize ≤ addr.toNat ∨ addr.toNat + 4096 ≤ x := by
  intro t
  obtain ⟨n, rfl, hn, hfresh, hholds, hfixed⟩ := h.holds.alloc hp
    (show held s.pages s.rest (.inl s.pages.length) = none from getElem?_eq_none le_rfl)
  have hnr := Mm.mapNr_pageAddr hn.le
  have haddr := Mm.toNat_pageAddr hn.le
  rw [update_held, ← hnr] at hholds
  refine ⟨⟨⟨?_, h.clear, h.free⟩, hholds⟩, ?_, ?_⟩
  · intro o ho
    exact (h.inside o ho).mono (subset_append_left _ _) hfixed
  · refine InPage.mono (s := { t with mm := s.mm }) ⟨_, mem_append_right _ (mem_singleton_self _), ?_⟩ (Subset.refl _) hfixed
    rw [hnr, haddr]
    exact ⟨le_rfl, le_rfl⟩
  · intro x hx
    obtain ⟨m, hm, hlow, hhigh⟩ := h.inside x hx
    obtain ⟨i, hi⟩ := mem_iff_getElem?.mp hm
    have hne : m ≠ n := by
      rintro rfl
      exact hfresh (.inl i) hi
    omega

theorem Inv.alloc [DecidableEq τ] {obj : Word} (h : Inv s) (ha : s.allocFromPool = some (obj, t)) :
    Inv { t with live := obj.toNat :: t.live } := by
  unfold allocFromPool at ha
  split at ha
  next hnull =>
    cases hp : s.mm.allocPages 0 with
    | mk mm addr =>
      rw [hp] at ha
      cases addr with
      | none => cases ha
      | some addr =>
        dsimp only at ha
        cases Option.some.inj ha
        have hnew := h.newPage hp
        exact (hnew.1.carve hnew.2.1 hnew.2.2 (Or.inr (Nat.add_le_add_left s.size.2 _))).elim Inv.takeFirst
  next hne =>
    cases Option.some.inj ha
    exact h.takeFirst hne

theorem Inv.others {mm : Mm} {mem : Nat → Byte} {rest : τ → Option Nat} (h : Inv s) (hfixed : mm.fixed = s.mm.fixed)
    (hmm : mm.Holds (held s.pages rest))
    (hmem : ∀ a, s.InPage a (a + 1) → (∀ o ∈ s.live, a < o ∨ o + s.objSize ≤ a) → mem a = s.mem a) :
    Inv { s with mm := mm, mem := mem, rest := rest } := by
  obtain ⟨free, ⟨hchain, hlen⟩, hperm⟩ := h.free
  refine ⟨⟨?_, h.clear, free, ⟨hchain.congr fun x hx => ?_, hlen⟩, hperm⟩, hmm⟩
  · intro o ho
    exact (h.inside o ho).mono (Subset.refl _) hfixed
  · -- a link is in a free object, which is apart from the objects in use
    have hsize := s.size
    obtain ⟨n, hn, hlow, hhigh⟩ := h.inside x (hperm.subset (mem_append_left _ hx))
    refine congrArg ptr (getWord_congr fun a h1 h2 => hmem a ⟨n, hn, by omega, by omega⟩ fun o ho => ?_)
    have hclear := (pairwise_append.mp (h.pairwise hperm)).2.2 x hx o ho
    unfold Clear at hclear
    omega

theorem Inv.step [DecidableEq τ] (h : Inv s) (hstep : Step s t) : Inv t := by
  cases hstep with
  | alloc ha => exact h.alloc ha
  | free hobj => exact h.freeObject hobj
  | others hfixed hmm hmem => exact h.others hfixed hmm hmem

theorem inv_init {mm : Mm} {mem : Nat → Byte} {rest : τ → Option Nat} {objSize : Nat} (h : 4 ≤ objSize ∧ objSize ≤ 4096)
    (hmm : mm.Holds (held [] rest)) : Inv (init mm mem rest objSize h) := by
  refine ⟨⟨fun o ho => ?_, Pairwise.nil, [], ⟨rfl, rfl⟩, Perm.nil⟩, hmm⟩
  cases ho

/-- Over every run, for every size of the objects and whatever the rest of the kernel does, the pool is safe. -/
theorem object_pool_safe [DecidableEq τ] {mm : Mm} {mem : Nat → Byte} {rest : τ → Option Nat} {objSize : Nat}
    (h : 4 ≤ objSize ∧ objSize ≤ 4096) (hmm : mm.Holds (held [] rest))
    (hrun : Relation.ReflTransGen Step (init mm mem rest objSize h) s) : Safe s := by
  have hinv : Inv s := by
    induction hrun with
    | refl => exact inv_init h hmm
    | tail _ hstep ih => exact ih.step hstep
  exact hinv.toSafe

theorem carve_pair {a : Nat} (h : s.objSize = 2048) : (s.carve a (a + 4096)).carved = (a + 2048) :: a :: s.carved ∧
    (s.carve a (a + 4096)).freeList = .ofNat 32 (a + 2048) ∧ (s.carve a (a + 4096)).live = s.live ∧
      (s.carve a (a + 4096)).objSize = 2048 := by
  have h1 : { s.freeObjectNolock a with carved := a :: s.carved }.objSize = 2048 := h
  rw [carve, if_pos (by omega), h, carve, if_pos (by omega), h1, carve, if_neg]
  · exact ⟨rfl, rfl, rfl, h1⟩
  · show ¬a + 2048 + 2048 + s.objSize ≤ a + 4096
    omega

/-- A refill that cuts a page in two, an allocation of each half, and a free of the first. -/
theorem object_pool_safe_halves : ∃ (s : ObjPool Nat) (a : Nat), s.objSize = 2048 ∧ s.carved = [a + 2048, a] ∧
    s.live = [a] ∧ Safe s := by
  obtain ⟨mm, b, -, hok, hcov, href, hbig, -⟩ := Clients.smallMem_bootMem.initFreeArea
  have hmm : mm.Holds (held [] fun _ : Nat => none) := by
    have hnone : held [] (fun _ : Nat => none) = fun _ => none := by
      funext x
      cases x <;> rfl
    rw [hnone]
    exact hok.holds_none hcov href
  have hroom : 0 < mm.freeCount := by
    refine Finset.card_pos.mpr ⟨0, Finset.mem_filter.mpr ⟨Finset.mem_range.mpr ?_, ?_⟩⟩
    · exact hbig 0 (by decide)
    · exact href 0 (hbig 0 (by decide))
  obtain ⟨mm', addr, halloc, -⟩ := hmm.alloc_some hroom
  have hsize : 4 ≤ 2048 ∧ 2048 ≤ 4096 := by decide
  let s₀ := init mm (fun _ => 0) (fun _ : Nat => none) 2048 hsize
  -- the refill and the first allocation, which takes the upper half
  obtain ⟨s₁, hs₁, hcarved, hlist, hlive, hsize₁⟩ : ∃ s₁ : ObjPool Nat, s₀.allocFromPool = some s₁.takeFirst ∧
      s₁.carved = [addr.toNat + 2048, addr.toNat] ∧ s₁.freeList = .ofNat 32 (addr.toNat + 2048) ∧ s₁.live = [] ∧
        s₁.objSize = 2048 := by
    refine ⟨_, ?_, @carve_pair _ { s₀ with mm := mm', pages := [(mapNr (addr - mm.base)).toNat] } addr.toNat rfl⟩
    show (match mm.allocPages 0 with | (mm, some addr) => _ | (_, none) => none) = _
    rw [halloc]
    rfl
  have hinv := (inv_init hsize hmm).alloc hs₁
  have hupper : (BitVec.ofNat 32 (addr.toNat + 2048)).toNat = addr.toNat + 2048 := by
    have hrange := hinv.range (hinv.inside (addr.toNat + 2048) (show _ ∈ s₁.carved by rw [hcarved]; exact mem_cons_self ..))
    exact Nat.mod_eq_of_lt hrange.2
  -- the second, which takes the lower half: the free list is all that is cut and not in use
  obtain ⟨free, ⟨hchain, -⟩, hperm⟩ := hinv.free
  have hone : free = [addr.toNat] := by
    change (free ++ s₁.freeList.toNat :: s₁.live).Perm s₁.carved at hperm
    rw [hlive, hlist, hcarved, hupper] at hperm
    exact perm_singleton.mp ((perm_append_singleton ..).symm.trans hperm).cons_inv
  rw [hone] at hchain
  have hnext := hchain.1
  unfold ptr at hnext
  split_ifs at hnext with hnull
  have hrun : Relation.ReflTransGen Step s₀ _ := .tail (.tail (.single (.alloc hs₁)) (.alloc (if_neg hnull)))
    (.free (mem_cons_of_mem _ (mem_cons_self ..)))
  have hsafe := object_pool_safe hsize hmm hrun
  refine ⟨_, addr.toNat, ?_, ?_, ?_, hsafe⟩
  · exact hsize₁
  · exact hcarved
  · show ((getWord s₁.mem s₁.freeList.toNat).toNat :: s₁.freeList.toNat :: s₁.live).erase s₁.freeList.toNat = [addr.toNat]
    rw [show (getWord s₁.mem s₁.freeList.toNat).toNat = addr.toNat from Option.some.inj hnext, hlist, hlive, hupper,
      erase_cons_tail (by simp), erase_cons_head]

end ObjPool

end BabyOS
