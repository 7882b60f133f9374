import BabyOS.VmProgress

open Function List

namespace BabyOS

structure AreaObj where
  area : VmArea
  next : Option Nat

structure VmaCopy where
  heap : Nat → AreaObj
  pool : List Nat
  mmap : Option Nat
  done : Bool

/-- The `while (p != NULL)` of `copy_vma`; `grant` tells which of its objects the pool gives out. -/
def copyVmaLoop (grant : Nat → Bool) :
    List Nat → Nat → (Nat → AreaObj) → Option Nat → Option Nat → Option Nat → VmaCopy
  | pool, _, heap, mmap, _, none => ⟨heap, pool, mmap, true⟩
  | [], _, heap, mmap, _, some _ => ⟨heap, [], mmap, false⟩
  | vma :: pool, k, heap, mmap, tail, some p =>
    if grant k then
      let heap := update heap vma { heap p with next := none }
      match tail with
      | none => copyVmaLoop grant pool (k + 1) heap (some vma) (some vma) (heap p).next
      | some t =>
        let heap := update heap t { heap t with next := some vma }
        copyVmaLoop grant pool (k + 1) heap mmap (some vma) (heap p).next
    else ⟨heap, vma :: pool, mmap, false⟩

/-- `vmm_t::copy_vma`; the child starts with the list of its parent. -/
def copyVma (grant : Nat → Bool) (heap : Nat → AreaObj) (pool : List Nat) (mmap : Option Nat) : VmaCopy :=
  copyVmaLoop grant pool 0 heap mmap none mmap

namespace Machine

def tryPages (m : Machine) (order : Nat) (granted : Bool) : Machine × Option Word :=
  if granted then
    let r := m.mm.allocPages order
    ({ m with mm := r.1 }, r.2)
  else (m, none)

/-- The loop of `copy_page_table`, with its result; `grant` tells for which entries a table may be had. -/
def copyTablesWith (grant : Nat → Bool) (m : Machine) (pgDir newDir : Word) : Nat → Nat → Machine × Bool
  | 0, _ => (m, true)
  | fuel + 1, i =>
    let pde := m.entry (va2pa pgDir) i
    if pde &&& pteP = 0 then copyTablesWith grant m pgDir newDir fuel (i + 1)
    else
      match m.tryPages 0 (grant i) with
      | (m, none) => (m, false)
      | (m, some newTable) =>
        let table := pde &&& pageMask
        let m := m.shareEntries table nrPtePerPage 0
        let m := m.fill (va2pa newTable) (m.mem table)
        let m := m.setEntry (va2pa newDir) i (va2pa newTable ||| (pde &&& ~~~pageMask))
        copyTablesWith grant m pgDir newDir fuel (i + 1)

/-- `copy_page_table`: the new directory, which is null when there is none, and the result. -/
def copyPageTableWith (m : Machine) (pgDir : Word) (granted : Bool) (grant : Nat → Bool) : Machine × Word × Bool :=
  match m.tryPages 0 granted with
  | (m, none) => (m, 0, false)
  | (m, some newDir) =>
    let m := m.fill (va2pa newDir) (m.mem (va2pa pgDir))
    let r := m.copyTablesWith grant pgDir newDir userPtrsPerPgd 0
    (r.1, newDir, r.2)

/-- The tables for these entries of the directory of `p` are granted, and with `n` more pages they are free. -/
def Affords (own : Slot → Option Nat) (p : Nat) (grant : Nat → Bool) (ks : List Nat) (n free : Nat) : Prop :=
  (∀ k ∈ ks, own (.table p k) ≠ none → grant k = true) ∧ ks.countP (fun k => (own (.table p k)).isSome) + n ≤ free

section

variable {own : Slot → Option Nat} {p k t n free : Nat} {grant : Nat → Bool} {ks : List Nat}

theorem affords_none (h : own (.table p k) = none) :
    Affords own p grant (k :: ks) n free ↔ Affords own p grant ks n free := by
  simp [Affords, h]

theorem affords_some (h : own (.table p k) = some t) :
    Affords own p grant (k :: ks) n (free + 1) ↔ grant k = true ∧ Affords own p grant ks n free := by
  simp [Affords, h, and_assoc, Nat.add_right_comm]

theorem affords_succ : Affords own p grant ks (n + 1) (free + 1) ↔ Affords own p grant ks n free := by
  simp [Affords, ← Nat.add_assoc]

end

end Machine

/-- The first `j` areas have been copied to objects of the pool. -/
structure AreasCopied (grant : Nat → Bool) (pool : List Nat) (k : Nat) (heap : Nat → AreaObj) (mmap : Option Nat)
    (news os : List Nat) (r : VmaCopy) (j : Nat) : Prop where
  le : j ≤ os.length
  le_pool : j ≤ pool.length
  rest : r.pool = pool.drop j
  done : r.done = true ↔ j = os.length
  granted : r.done = true ↔ (∀ i < os.length, grant (k + i) = true) ∧ os.length ≤ pool.length
  chain : news ++ pool.take j ≠ [] → Chain (fun o => (r.heap o).next) r.mmap (news ++ pool.take j)
  untouched : news ++ pool.take j = [] → r.mmap = mmap
  areas : (pool.take j).map (fun o => (r.heap o).area) = (os.take j).map fun o => (heap o).area
  kept : ∀ o, o ∉ news → o ∉ pool.take j → r.heap o = heap o
  same : ∀ o ∈ news, (r.heap o).area = (heap o).area

section

variable {grant : Nat → Bool} {pool news os : List Nat} {k : Nat} {heap : Nat → AreaObj} {mmap p : Option Nat}

theorem copyVmaLoop_grant {vma o : Nat} (hnews : news ≠ [] → Chain (fun o => (heap o).next) mmap news)
    (ho : o ∉ news) (hov : o ≠ vma) (hvma : vma ∉ news) (hnodup : news.Nodup) (hgrant : grant k = true) :
    ∃ heap' mmap', copyVmaLoop grant (vma :: pool) k heap mmap news.getLast? (some o) =
        copyVmaLoop grant pool (k + 1) heap' mmap' (news ++ [vma]).getLast? (heap o).next ∧
      Chain (fun o => (heap' o).next) mmap' (news ++ [vma]) ∧ (heap' vma).area = (heap o).area ∧
      (∀ x, x ∉ news → x ≠ vma → heap' x = heap x) ∧ ∀ x ∈ news, (heap' x).area = (heap x).area := by
  rw [copyVmaLoop, if_pos hgrant, List.getLast?_concat]
  rcases eq_nil_or_concat news with rfl | ⟨front, t, rfl⟩
  · refine ⟨update heap vma { heap o with next := none }, some vma, ?_, ⟨rfl, ?_⟩, ?_,
      fun x _ hx => update_of_ne hx _ _, fun x hx => ?_⟩
    · dsimp only [List.getLast?_nil]
      rw [update_of_ne hov]
    · dsimp only
      rw [update_self]
      rfl
    · rw [update_self]
    · cases hx
  · rw [concat_eq_append] at hnews ho hvma hnodup ⊢
    rw [List.getLast?_concat]
    have htv : t ≠ vma := fun ht => hvma (ht ▸ mem_append_right _ mem_cons_self)
    have hto : o ≠ t := fun ht => ho (ht ▸ mem_append_right _ mem_cons_self)
    obtain ⟨heap', hdef⟩ : ∃ heap', heap' = update (update heap vma { heap o with next := none }) t
        { update heap vma { heap o with next := none } t with next := some vma } := ⟨_, rfl⟩
    have hself : heap' t = { heap t with next := some vma } := by
      rw [hdef, update_self, update_of_ne htv]
    have hnew : heap' vma = { heap o with next := none } := by
      rw [hdef, update_of_ne htv.symm, update_self]
    have hother : ∀ x, x ≠ t → x ≠ vma → heap' x = heap x := by
      intro x h1 h2
      rw [hdef, update_of_ne h1, update_of_ne h2]
    refine ⟨heap', mmap, ?_, ?_, ?_, fun x h1 h2 => ?_, fun x hx => ?_⟩
    · dsimp only
      rw [← hdef, hother o hto hov]
    · refine (hnews (by simp)).snoc (fun y hy => ?_) ?_ ?_
      · have hyt : y ≠ t := fun hyt => (nodup_append.mp hnodup).2.2 y hy t mem_cons_self hyt
        rw [hother y hyt fun hyv => hvma (hyv ▸ mem_append_left _ hy)]
      · rw [hself]
      · rw [hnew]
    · rw [hnew]
    · exact hother x (fun hxt => h1 (hxt ▸ mem_append_right _ mem_cons_self)) h2
    · by_cases hxt : x = t
      · rw [hxt, hself]
      · rw [hother x hxt fun hxv => hvma (hxv ▸ hx)]

theorem copyVmaLoop_spec (hp : Chain (fun o => (heap o).next) p os)
    (hnews : news ≠ [] → Chain (fun o => (heap o).next) mmap news) (hos : ∀ o ∈ os, o ∉ news ∧ o ∉ pool)
    (hnodup : (news ++ pool).Nodup) :
    ∃ j, AreasCopied grant pool k heap mmap news os (copyVmaLoop grant pool k heap mmap news.getLast? p) j := by
  induction os generalizing pool k heap mmap news p with
  | nil =>
    obtain rfl : p = none := hp
    refine ⟨0, Nat.le_refl _, Nat.zero_le _, ?_, ?_, ?_, ?_, ?_, ?_, ?_, ?_⟩
    all_goals rw [copyVmaLoop]
    · rfl
    · exact ⟨fun _ => rfl, fun _ => rfl⟩
    · exact ⟨fun _ => ⟨fun i hi => absurd hi (Nat.not_lt_zero i), Nat.zero_le _⟩, fun _ => rfl⟩
    · rw [take_zero, append_nil]
      exact hnews
    · exact fun _ => rfl
    · rfl
    · exact fun _ _ _ => rfl
    · exact fun _ _ => rfl
  | cons o os ih =>
    obtain ⟨rfl, hrest⟩ := hp
    have hstop : ∀ r : VmaCopy, r = ⟨heap, pool, mmap, false⟩ →
        (¬((∀ i < (o :: os).length, grant (k + i) = true) ∧ (o :: os).length ≤ pool.length)) →
        AreasCopied grant pool k heap mmap news (o :: os) r 0 := by
      rintro r rfl hno
      refine ⟨Nat.zero_le _, Nat.zero_le _, rfl, ⟨fun hf => ?_, fun hf => ?_⟩, ⟨fun hf => ?_, fun hf => ?_⟩, ?_,
        fun _ => rfl, rfl, fun _ _ _ => rfl, fun _ _ => rfl⟩
      · cases hf
      · cases hf
      · cases hf
      · exact absurd hf hno
      · rw [take_zero, append_nil]
        exact hnews
    cases pool with
    | nil =>
      refine ⟨0, hstop _ ?_ fun hf => absurd hf.2 (Nat.not_succ_le_zero _)⟩
      rw [copyVmaLoop]
    | cons vma pool =>
      by_cases hgrant : grant k = true
      · obtain ⟨ho, hopool⟩ := hos o mem_cons_self
        obtain ⟨hn, hpool, hdisj⟩ := nodup_append.mp hnodup
        obtain ⟨hvpool, hpool⟩ := nodup_cons.mp hpool
        have hvma : vma ∉ news := fun hv => hdisj vma hv vma mem_cons_self rfl
        obtain ⟨heap', mmap', heq, hchain, harea, hkept, hsame⟩ := @copyVmaLoop_grant grant pool news k heap mmap vma o
          hnews ho (fun hov => hopool (hov ▸ mem_cons_self)) hvma hn hgrant
        have hkeep : ∀ x ∈ os, heap' x = heap x := by
          intro x hx
          obtain ⟨h1, h2⟩ := hos x (mem_cons_of_mem o hx)
          exact hkept x h1 fun hxv => h2 (hxv ▸ mem_cons_self)
        obtain ⟨j, h⟩ := @ih pool (news ++ [vma]) (k + 1) heap' mmap' (heap o).next
          (hrest.congr fun x hx => by rw [hkeep x hx]) (fun _ => hchain) (fun x hx => by
            obtain ⟨h1, h2⟩ := hos x (mem_cons_of_mem o hx)
            refine ⟨fun hm => ?_, fun hm => h2 (mem_cons_of_mem vma hm)⟩
            rcases mem_append.mp hm with hm | hm
            · exact h1 hm
            · exact h2 (mem_singleton.mp hm ▸ mem_cons_self)) (by
            rwa [append_assoc, singleton_append])
        have htake : news ++ (vma :: pool).take (j + 1) = news ++ [vma] ++ pool.take j := by
          rw [take_succ_cons, append_assoc, singleton_append]
        rw [heq]
        refine ⟨j + 1, Nat.succ_le_succ h.le, Nat.succ_le_succ h.le_pool, h.rest, ?_, ?_, ?_, ?_, ?_, ?_, ?_⟩
        · rw [h.done, length_cons]
          omega
        · rw [h.granted, length_cons, length_cons, Nat.succ_le_succ_iff]
          refine and_congr_left fun _ => ⟨fun hg i hi => ?_, fun hg i hi => ?_⟩
          · cases i with
            | zero => exact hgrant
            | succ i =>
              rw [show k + (i + 1) = k + 1 + i by omega]
              exact hg i (Nat.lt_of_succ_lt_succ hi)
          · rw [show k + 1 + i = k + (i + 1) by omega]
            exact hg (i + 1) (Nat.succ_lt_succ hi)
        · rw [htake]
          exact h.chain
        · intro hnil
          rw [htake] at hnil
          simp at hnil
        · have hfirst : ((copyVmaLoop grant pool (k + 1) heap' mmap' (news ++ [vma]).getLast? (heap o).next).heap vma).area =
              (heap o).area := (h.same vma (mem_append_right _ mem_cons_self)).trans harea
          rw [take_succ_cons, take_succ_cons, map_cons, map_cons, hfirst, h.areas]
          congr 1
          refine map_congr_left fun x hx => ?_
          rw [hkeep x (mem_of_mem_take hx)]
        · intro x h1 h2
          rw [take_succ_cons, mem_cons, not_or] at h2
          rw [h.kept x (fun hm => ?_) h2.2, hkept x h1 h2.1]
          rcases mem_append.mp hm with hm | hm
          · exact h1 hm
          · exact h2.1 (mem_singleton.mp hm)
        · intro x hx
          rw [h.same x (mem_append_left _ hx), hsame x hx]
      · refine ⟨0, hstop _ ?_ fun hf => hgrant (hf.1 0 (Nat.succ_pos _))⟩
        rw [copyVmaLoop, if_neg hgrant]

theorem AreasCopied.chain_all {r : VmaCopy} (h : AreasCopied grant pool k heap mmap [] os r os.length)
    (hp : Chain (fun o => (heap o).next) mmap os) : Chain (fun o => (r.heap o).next) r.mmap (pool.take os.length) := by
  by_cases hnil : pool.take os.length = []
  · have hlen := congrArg List.length hnil
    rw [length_take, Nat.min_eq_left h.le_pool] at hlen
    rw [eq_nil_of_length_eq_zero hlen] at hp
    rw [hnil]
    exact (h.untouched hnil).trans hp
  · exact h.chain hnil

end

namespace Machine

section

variable {m m0 : Machine} {own own0 : Slot → Option Nat} {wr : Slot → Bool} {p c d i : Nat} {pgDir : Word}

theorem Owned.tryPages (h : Owned m own) (granted : Bool) :
    (∃ m' addr, granted = true ∧ 0 < m.mm.freeCount ∧ m.allocPage = some (m', addr) ∧
      m.tryPages 0 granted = (m', some addr)) ∨
    ∃ m', ¬(granted = true ∧ 0 < m.mm.freeCount) ∧ m.tryPages 0 granted = (m', none) ∧ m'.mem = m.mem := by
  unfold Machine.tryPages
  cases granted with
  | false => exact Or.inr ⟨m, fun hf => absurd hf.1 Bool.false_ne_true, rfl, rfl⟩
  | true =>
    rcases Nat.eq_zero_or_pos m.mm.freeCount with h0 | hpos
    · obtain ⟨mm', he⟩ := h.holds.alloc_none h0
      rw [if_pos rfl, he]
      exact Or.inr ⟨_, fun hf => absurd hf.2 (by omega), rfl, rfl⟩
    · obtain ⟨mm', addr, he, -⟩ := h.holds.alloc_some hpos
      rw [if_pos rfl, he]
      refine Or.inl ⟨_, addr, rfl, hpos, ?_, rfl⟩
      rw [Machine.allocPage, he]

section

variable (h : Forking m0 m own0 own wr p c d pgDir i)
include h

theorem Forking.held_iff (hpc : p ≠ c) (n : Nat) : (∃ s, own s = some n) ↔
      (∃ s, (s ≠ .dir c ∧ (∀ k, s ≠ .table c k) ∧ ∀ k b, s ≠ .user c k b) ∧ own0 s = some n) ∨
        n = d ∨ ∃ k, own (.table c k) = some n := by
  constructor
  · rintro ⟨s, hs⟩
    by_cases hdir : s = .dir c
    · rw [hdir, h.dir] at hs
      exact Or.inr (Or.inl (Option.some.inj hs).symm)
    · by_cases htab : ∃ k, s = .table c k
      · obtain ⟨k, rfl⟩ := htab
        exact Or.inr (Or.inr ⟨k, hs⟩)
      · by_cases huser : ∃ k b, s = .user c k b
        · obtain ⟨k, b, rfl⟩ := huser
          by_cases hk : k < i
          · rw [h.newUser k hk] at hs
            exact Or.inl ⟨_, ⟨by simp, by simp, by simp [hpc]⟩, hs⟩
          · rw [(h.todo k (by omega)).2 b] at hs
            cases hs
        · rw [not_exists] at htab
          have huser' : ∀ k b, s ≠ .user c k b := fun k b hb => huser ⟨k, b, hb⟩
          rw [h.keeps s hdir htab huser'] at hs
          exact Or.inl ⟨s, ⟨hdir, htab, huser'⟩, hs⟩
  · rintro (⟨s, ⟨h1, h2, h3⟩, hs⟩ | rfl | ⟨k, hk⟩)
    · rw [← h.keeps s h1 h2 h3] at hs
      exact ⟨s, hs⟩
    · exact ⟨_, h.dir⟩
    · exact ⟨_, hk⟩

theorem Forking.freeCount {m' : Machine} {own' : Slot → Option Nat} {u : Nat}
    (h' : Forking m0 m' own0 own' wr p c d pgDir (i + 1)) (hpc : p ≠ c)
    (hnew : ∀ s, own s ≠ some u) (hu : own' (.table c i) = some u)
    (hother : ∀ k, k ≠ i → own' (.table c k) = own (.table c k)) : m'.mm.freeCount + 1 = m.mm.freeCount := by
  have hpages : m'.mm.pages = m.mm.pages := by
    rw [Mm.pages_of_fixed h'.fixed, Mm.pages_of_fixed h.fixed]
  have hlt := h'.owned.holds.inside _ _ hu
  rw [hpages] at hlt
  have htables : ∀ n, (∃ k, own' (.table c k) = some n) ↔ (∃ k, own (.table c k) = some n) ∨ n ∈ ({u} : Finset Nat) := by
    intro n
    rw [Finset.mem_singleton]
    constructor
    · rintro ⟨k, hk⟩
      by_cases hki : k = i
      · rw [hki, hu] at hk
        exact Or.inr (Option.some.inj hk).symm
      · rw [hother k hki] at hk
        exact Or.inl ⟨k, hk⟩
    · rintro (⟨k, hk⟩ | rfl)
      · have hki : k ≠ i := by
          rintro rfl
          rw [(h.todo k (Nat.le_refl k)).1] at hk
          cases hk
        exact ⟨k, (hother k hki).trans hk⟩
      · exact ⟨i, hu⟩
  rw [← Finset.card_singleton u]
  refine h.owned.holds.freeCount_take h'.owned.holds hpages (fun n hn => ?_) fun n => ?_
  · rw [Finset.mem_singleton.mp hn]
    exact ⟨hlt, hnew⟩
  rw [h.held_iff hpc, h'.held_iff hpc, htables, or_assoc, or_assoc]

theorem Forking.copyTablesWith (h0 : Shape own0) (hpc : p ≠ c) (hdir : m0.DirOf own0 p pgDir) {newDir : Word}
    (hnew : va2pa newDir = m0.page d) {fuel : Nat} (hf : i + fuel = userPtrsPerPgd) {grant : Nat → Bool}
    {r : Machine × Bool} (hr : m.copyTablesWith grant pgDir newDir fuel i = r) :
    (r.2 = true ∧ Affords own0 p grant (List.range' i fuel) 0 m.mm.freeCount ∧
      ∃ own', Forking m0 r.1 own0 own' wr p c d pgDir userPtrsPerPgd) ∨
    (r.2 = false ∧ ¬Affords own0 p grant (List.range' i fuel) 0 m.mm.freeCount ∧
      ∃ k t, k < userPtrsPerPgd ∧ own0 (.table p k) = some t ∧ t < m0.mm.pages ∧
        r.1.entry (m0.page d) k = m0.pdeOf (some t) ∧ r.1.entry (va2pa pgDir) k = m0.pdeOf (some t)) := by
  induction fuel generalizing m own i with
  | zero =>
    obtain rfl : i = userPtrsPerPgd := by omega
    subst hr
    exact Or.inl ⟨rfl, ⟨fun k hk => absurd hk not_mem_nil, Nat.zero_le _⟩, own, h⟩
  | succ fuel ih =>
    have hi : i < userPtrsPerPgd := by omega
    rw [Machine.copyTablesWith, h.pde i hi] at hr
    rw [List.range'_succ]
    cases ht : own0 (.table p i) with
    | none =>
      have hz : m.pdeOf none &&& pteP = 0 := show (0 : Word) &&& pteP = 0 by decide
      dsimp only at hr
      rw [ht, if_pos hz] at hr
      rw [affords_none ht]
      exact ih (h.step_none ht h0) (by omega) hr
    | some t =>
      have htp : own (.table p i) = some t := by
        rw [h.keeps _ (by simp) (by simp [hpc]) (by simp), ht]
      have hlt := h.owned.holds.inside _ _ htp
      dsimp only at hr
      rw [ht, if_neg (pdeOf_and_pteP h.owned.layout hlt)] at hr
      rcases h.owned.tryPages (grant i) with ⟨m1, addr, hg, hpos, ha, htry⟩ | ⟨m1, hno, htry, hmem⟩
      · rw [htry] at hr
        dsimp only at hr
        rw [pdeOf_and_pageMask h.owned.layout hlt, hnew.trans (congrFun (page_of_fixed h.fixed).symm d)] at hr
        obtain ⟨own', u, h', hu, hua, hother⟩ := h.step_some hpc hdir ht hi ha rfl rfl
        obtain ⟨v, hva, -, hvlt, hvnew, -⟩ := h.owned.allocPage ha (h.todo i (Nat.le_refl i)).1 (by simp)
          (by rintro p' i' ⟨⟩; exact hi)
        have hult := h'.owned.holds.inside _ _ hu
        rw [Mm.pages_of_fixed h'.fixed, ← Mm.pages_of_fixed h.fixed] at hult
        obtain rfl : u = v := page_inj h.owned.layout hult hvlt (hua.symm.trans hva)
        rw [← h.freeCount h' hpc hvnew hu hother, affords_some ht, and_iff_right hg]
        exact ih h' (by omega) hr
      · rw [htry] at hr
        subst hr
        refine Or.inr ⟨rfl, fun hf => hno ?_, i, t, hi, ht, ?_, ?_, ?_⟩
        · obtain ⟨hg, hle⟩ := hf
          rw [countP_cons_of_pos (by rw [ht]; rfl)] at hle
          exact ⟨hg i mem_cons_self (by rw [ht]; exact Option.some_ne_none t), by omega⟩
        · rwa [← Mm.pages_of_fixed h.fixed]
        · rw [entry_congr (congrFun hmem _), ← page_of_fixed h.fixed, h.newPde i hi, if_neg (Nat.lt_irrefl i), ht,
            pdeOf_of_fixed h.fixed]
        · rw [entry_congr (congrFun hmem _), h.pde i hi, ht, pdeOf_of_fixed h.fixed]

end

theorem Owned.copyPageTableWith (h : Owned m own) (hw : Walks m own wr p (va2pa pgDir) ∅) (hpc : p ≠ c)
    (hdir : m.DirOf own p pgDir) (hc : Unused own c) {granted : Bool} {grant : Nat → Bool} {r : Machine × Word × Bool}
    (hr : m.copyPageTableWith pgDir granted grant = r) :
    (r.2.2 = true ∧ (granted = true ∧ Affords own p grant (List.range userPtrsPerPgd) 1 m.mm.freeCount) ∧
      ∃ own' d, r.2.1 = m.mm.pageAddr d ∧ Forking m r.1 own own' wr p c d pgDir userPtrsPerPgd) ∨
    (r.2.2 = false ∧ ¬(granted = true ∧ Affords own p grant (List.range userPtrsPerPgd) 1 m.mm.freeCount) ∧
      (r.2.1 = 0 ∨ ∃ k t, k < userPtrsPerPgd ∧ own (.table p k) = some t ∧ t < m.mm.pages ∧
        r.1.entry (va2pa r.2.1) k = m.pdeOf (some t) ∧ r.1.entry (va2pa pgDir) k = m.pdeOf (some t))) := by
  unfold Machine.copyPageTableWith at hr
  rcases h.tryPages granted with ⟨m1, newDir, hg, hpos, ha, htry⟩ | ⟨m1, hno, htry, -⟩
  · rw [htry] at hr
    subst hr
    obtain ⟨r, hr, hcount⟩ := h.allocPage_some hpos
    obtain rfl : (m1, newDir) = r := Option.some.inj (ha.symm.trans hr)
    obtain ⟨own1, d, haddr, -, hstart⟩ := Forking.start h hw hdir hc ha
    have hnew : va2pa newDir = m.page d := by rw [haddr, page]
    have hcount' : (m1.fill (va2pa newDir) (m1.mem (va2pa pgDir))).mm.freeCount + 1 = m.mm.freeCount := hcount
    rw [and_iff_right hg, ← hcount', affords_succ, range_eq_range']
    rcases hstart.copyTablesWith h.shape hpc hdir hnew (Nat.zero_add _) rfl with
      ⟨hdone, hafford, own', hf⟩ | ⟨hdone, hnot, k, t, hk, ht, hlt, h1, h2⟩
    · exact Or.inl ⟨hdone, hafford, own', d, haddr, hf⟩
    · rw [← hnew] at h1
      exact Or.inr ⟨hdone, hnot, Or.inr ⟨k, t, hk, ht, hlt, h1, h2⟩⟩
  · rw [htry] at hr
    subst hr
    exact Or.inr ⟨rfl, fun hf => hno ⟨hf.1, Nat.lt_of_lt_of_le (Nat.succ_pos _) hf.2.2⟩, Or.inl rfl⟩

end

end Machine

end BabyOS
