import BabyOS.PageUse

open Function

namespace BabyOS

namespace Machine

variable {m m' : Machine} {own own' : Slot → Option Nat} {wr : Slot → Bool} {p c d n t u i : Nat}
  {pgDir : Word}

theorem pteOf_protect (hl : m.mm.Layout) (hn : n < m.mm.pages) (w : Bool) :
    m.pteOf w (some n) &&& ~~~pteW = m.pteOf false (some n) := by
  cases w <;> simp only [pteOf, Bool.false_eq_true, if_false, if_true] <;>
    rw [(paged_page hl hn).or_and_high (by decide)] <;> rfl

theorem Owned.share (h : Owned m own) {j : Nat} (hn : own (.user p i j) = some n)
    (hu : own (.table c i) = some u) (hc : own (.user c i j) = none) :
    Owned { m with mm := m.mm.incPageRef (m.page n) } (update own (.user c i j) (some n)) := by
  refine ⟨h.holds.inc hn hc (h.shape.count_lt h.holds n), h.shape.put hc (fun s hs => ⟨?_, rfl⟩) ?_
    (by simp)⟩
  · by_contra hf
    have := h.shape.alone s (.user p i j) n (by simpa using hf) hs hn
    subst this
    simp [Slot.isUser] at hf
  · rintro p' i' j' ⟨⟩
    exact ⟨⟨u, hu⟩, h.shape.user_lt p i j n hn⟩

theorem shareEntries_spec (h : Owned m own) (ht : own (.table p i) = some t)
    (hu : own (.table c i) = some u) (hpc : p ≠ c) {fuel j : Nat} (hf : j + fuel = nrPtePerPage)
    (hpte : ∀ b < nrPtePerPage, m.entry (m.page t) b =
      m.pteOf (if b < j then false else wr (.user p i b)) (own (.user p i b)))
    (hchild : ∀ b, own (.user c i b) = if b < j then own (.user p i b) else none) :
    ∃ own', Owned (m.shareEntries (m.page t) fuel j) own' ∧
      (m.shareEntries (m.page t) fuel j).mm.fixed = m.mm.fixed ∧
      (∀ q, q ≠ m.page t → (m.shareEntries (m.page t) fuel j).mem q = m.mem q) ∧
      (∀ b < nrPtePerPage, (m.shareEntries (m.page t) fuel j).entry (m.page t) b =
        m.pteOf false (own (.user p i b))) ∧ (∀ b, own' (.user c i b) = own (.user p i b)) ∧
      ∀ s, (∀ b, s ≠ .user c i b) → own' s = own s := by
  induction fuel generalizing m own j with
  | zero =>
    refine ⟨own, h, rfl, fun _ _ => rfl, fun b hb => ?_, fun b => ?_, fun _ _ => rfl⟩
    · have := hpte b hb
      rwa [if_pos (by omega)] at this
    · rw [hchild]
      split_ifs with hb
      · rfl
      · cases hp : own (.user p i b) with
        | none => rfl
        | some n =>
          have := h.shape.user_lt p i b n hp
          omega
  | succ fuel ih =>
    have hj : j < nrPtePerPage := by omega
    have hcj : own (.user c i j) = none := by rw [hchild, if_neg (lt_irrefl j)]
    rw [shareEntries, hpte j hj, if_neg (lt_irrefl j)]
    cases hp : own (.user p i j) with
    | none =>
      simp only [pteOf, show ¬((0 : Word) &&& pteP ≠ 0) by decide, if_false]
      refine ih h ht hu (by omega) (fun b hb => ?_) (fun b => ?_)
      · by_cases hbj : b = j
        · subst b
          rw [hpte j hj, hp]
          rfl
        · rw [hpte b hb]
          simp only [show b < j ↔ b < j + 1 by omega]
      · by_cases hbj : b = j
        · subst b
          rw [hcj, if_pos (by omega), hp]
        · rw [hchild b]
          simp only [show b < j ↔ b < j + 1 by omega]
    | some n =>
      have hn := h.holds.inside _ _ hp
      obtain ⟨-, hmask, hpres, -, -⟩ := pteOf_some h.layout hn (wr (.user p i j))
      simp only [if_pos hpres, hmask, pteOf_protect h.layout hn]
      have hown := h.share hp hu hcj
      generalize hm1 : ({ m with mm := m.mm.incPageRef (m.page n) } : Machine).setEntry (m.page t) j
        (m.pteOf false (some n)) = m1
      have hfix : m1.mm.fixed = m.mm.fixed := by rw [← hm1]; rfl
      have hmem : ∀ q, q ≠ m.page t → m1.mem q = m.mem q := fun q hq => by
        rw [← hm1, setEntry_mem_of_ne hq]
      have hself : m1.entry (m.page t) j = m.pteOf false (some n) := by rw [← hm1, entry_setEntry_self]
      have hother : ∀ b, b ≠ j → m1.entry (m.page t) b = m.entry (m.page t) b := fun b hb => by
        rw [← hm1, entry_setEntry_ne hb]
        rfl
      generalize hdef : update own (.user c i j) (some n) = own1 at hown
      have hkeep : ∀ s, s ≠ .user c i j → own1 s = own s := fun s hs => by
        rw [← hdef, update_of_ne hs]
      have hpar : ∀ b, own1 (.user p i b) = own (.user p i b) := fun b => hkeep _ (by simp [hpc])
      obtain ⟨own', h1, h2, h3, h4, h5, h6⟩ := ih (m := m1) (j := j + 1)
        (show Owned m1 own1 from hown.of_eq (by rw [← hm1]; rfl)) ((hkeep _ (by simp)).trans ht)
        ((hkeep _ (by simp)).trans hu) (by omega)
        (fun b hb => by
          rw [page_of_fixed hfix, pteOf_of_fixed hfix, hpar]
          by_cases hbj : b = j
          · subst b
            rw [hself, if_pos (by omega), hp]
          · rw [hother b hbj, hpte b hb]
            simp only [show b < j ↔ b < j + 1 by omega])
        (fun b => by
          rw [hpar]
          by_cases hbj : b = j
          · subst b
            rw [← hdef, update_self, if_pos (by omega), hp]
          · rw [hkeep _ (by simpa using hbj), hchild b]
            simp only [show b < j ↔ b < j + 1 by omega])
      rw [page_of_fixed hfix] at h1 h2 h3 h4
      rw [pteOf_of_fixed hfix] at h4
      refine ⟨own', h1, h2.trans hfix, fun q hq => ?_, fun b hb => ?_, fun b => ?_, fun s hs => ?_⟩
      · rw [h3 q hq, hmem q hq]
      · rw [h4 b hb, hpar]
      · rw [h5, hpar]
      · rw [h6 s hs, hkeep s (hs j)]

def Unused (own : Slot → Option Nat) (c : Nat) : Prop :=
  own (.dir c) = none ∧ (∀ k, own (.table c k) = none) ∧ ∀ k b, own (.user c k b) = none

def DirOf (m : Machine) (own : Slot → Option Nat) (p : Nat) (pgDir : Word) : Prop :=
  ∀ n < m.mm.pages, m.page n = va2pa pgDir → own (.dir p) = some n

structure Forking (m0 m : Machine) (own0 own : Slot → Option Nat) (wr : Slot → Bool) (p c d : Nat)
    (pgDir : Word) (i : Nat) : Prop where
  owned : Owned m own
  fixed : m.mm.fixed = m0.mm.fixed
  dir : own (.dir c) = some d
  pde : ∀ k < userPtrsPerPgd, m.entry (va2pa pgDir) k = m.pdeOf (own0 (.table p k))
  pte : ∀ k t, own0 (.table p k) = some t → ∀ b < nrPtePerPage, m.entry (m.page t) b =
    m.pteOf (if k < i then false else wr (.user p k b)) (own0 (.user p k b))
  newPde : ∀ k < userPtrsPerPgd, m.entry (m.page d) k =
    m.pdeOf (if k < i then own (.table c k) else own0 (.table p k))
  newPte : ∀ k < i, ∀ u, own (.table c k) = some u → ∀ b < nrPtePerPage, m.entry (m.page u) b =
    m.pteOf false (own0 (.user p k b))
  newUser : ∀ k < i, ∀ b, own (.user c k b) = own0 (.user p k b)
  todo : ∀ k, i ≤ k → own (.table c k) = none ∧ ∀ b, own (.user c k b) = none
  keeps : ∀ s, s ≠ .dir c → (∀ k, s ≠ .table c k) → (∀ k b, s ≠ .user c k b) → own s = own0 s
  mem : ∀ q, (∀ s a, own s = some a → (s = .dir c ∨ (∃ k, s = .table p k) ∨ ∃ k, s = .table c k) →
    q ≠ m0.page a) → m.mem q = m0.mem q

structure Alike (D : Set Word) (m m' : Machine) : Prop where
  mm : m'.mm = m.mm
  mem : ∀ q ∉ D, m'.mem q = m.mem q

section

variable {D : Set Word} (h : Alike D m m')
include h

theorem Alike.entry {page : Word} (hq : page ∉ D) (i : Nat) : m'.entry page i = m.entry page i :=
  entry_congr (h.mem page hq)

theorem Alike.fill (page : Word) (bytes : Nat → Byte) :
    Alike (D \ {page}) (m.fill page bytes) (m'.fill page bytes) := by
  refine ⟨h.mm, fun q hq => ?_⟩
  by_cases hqp : q = page
  · rw [hqp, fill_mem_self, fill_mem_self]
  · rw [fill_mem_of_ne _ hqp, fill_mem_of_ne _ hqp]
    exact h.mem q fun hd => hq ⟨hd, hqp⟩

theorem Alike.setEntry (page : Word) (i : Nat) (w : Word) : Alike D (m.setEntry page i w) (m'.setEntry page i w) := by
  refine ⟨h.mm, fun q hq => ?_⟩
  by_cases hqp : q = page
  · subst q
    rw [Machine.setEntry, Machine.setEntry, fill_mem_self, fill_mem_self, h.mem page hq]
  · rw [setEntry_mem_of_ne hqp, setEntry_mem_of_ne hqp, h.mem q hq]

theorem Alike.allocPage {r : Machine × Word} (ha : m.allocPage = some r) :
    ∃ m1', m'.allocPage = some (m1', r.2) ∧ Alike D r.1 m1' := by
  obtain ⟨mm', he, hr⟩ := allocPage_eq ha
  refine ⟨{ m' with mm := mm' }, ?_, ?_⟩
  · rw [Machine.allocPage, h.mm, he]
  · rw [hr]
    exact ⟨rfl, h.mem⟩

theorem Alike.shareEntries {page : Word} (hp : page ∉ D) (fuel j : Nat) :
    Alike D (m.shareEntries page fuel j) (m'.shareEntries page fuel j) := by
  induction fuel generalizing m m' j with
  | zero => exact h
  | succ fuel ih =>
    rw [Machine.shareEntries, Machine.shareEntries, h.entry hp]
    split
    next =>
      rw [h.mm]
      have hinc : Alike D { m with mm := m.mm.incPageRef (m.entry page j &&& pageMask) }
          { m' with mm := m.mm.incPageRef (m.entry page j &&& pageMask) } := ⟨rfl, h.mem⟩
      exact ih (hinc.setEntry _ _ _) (j + 1)
    next => exact ih h (j + 1)

end

section

variable {D : Set Word} {mt m0 : Machine} {own0 : Slot → Option Nat}

/-- What a round of `copy_page_table` for a present table does: the new directory gets a copy of it, and the pages in it
are write-protected and counted once more. -/
structure Copied (m m' : Machine) (own own0 own' : Slot → Option Nat) (p c d i t u : Nat) : Prop where
  owned : Owned m' own'
  fixed : m'.mm.fixed = m.mm.fixed
  table : own' (.table c i) = some u
  user : ∀ b, own' (.user c i b) = own0 (.user p i b)
  keeps : ∀ s, s ≠ .table c i → (∀ b, s ≠ .user c i b) → own' s = own s
  lt : u < m.mm.pages
  fresh : ∀ s, own s ≠ some u
  mem : ∀ q, q ≠ m.page t → q ≠ m.page u → q ≠ m.page d → m'.mem q = m.mem q
  old : ∀ b < nrPtePerPage, m'.entry (m.page t) b = m.pteOf false (own0 (.user p i b))
  new : ∀ b < nrPtePerPage, m'.entry (m.page u) b = m.pteOf false (own0 (.user p i b))
  dirOther : ∀ k, k ≠ i → m'.entry (m.page d) k = m.entry (m.page d) k
  dirSelf : m'.entry (m.page d) i = (m.page u ||| (m.pdeOf (some t) &&& ~~~pageMask))

theorem Copied.entry_same {m' : Machine} {own' : Slot → Option Nat} {u : Nat} (hc : Copied m m' own own0 own' p c d i t u)
    (htc : own (.table c i) = none) (hd : own' (.dir c) = some d) (ht : own' (.table p i) = some t) {s : Slot} {a : Nat}
    (hs : own s = some a) (hs' : own' s = some a) (hsp : s ≠ .table p i) (hsd : s ≠ .dir c) (b : Nat) :
    m'.entry (m.page a) b = m.entry (m.page a) b := by
  have hsu : s ≠ .table c i := by
    rintro rfl
    simp [htc] at hs
  refine entry_congr (hc.mem _ ?_ ?_ ?_) <;> rw [← page_of_fixed hc.fixed]
  · exact hc.owned.page_ne ht hs' rfl hsp
  · exact hc.owned.page_ne hc.table hs' rfl hsu
  · exact hc.owned.page_ne hd hs' rfl hsd

section

variable (h : Forking m0 m own0 own wr p c d pgDir i)
include h

theorem Forking.dir_ne (hpc : p ≠ c) (hdir : m0.DirOf own0 p pgDir) {s : Slot} {a : Nat}
    (hs : own s = some a) (hne : s ≠ .dir p) : va2pa pgDir ≠ m.page a := by
  intro he
  have hlt := h.owned.holds.inside s a hs
  rw [Mm.pages_of_fixed h.fixed] at hlt
  rw [page_of_fixed h.fixed] at he
  have hp := hdir a hlt he.symm
  rw [← h.keeps (.dir p) (by simp [hpc]) (by simp) (by simp)] at hp
  exact hne (h.owned.shape.alone (.dir p) s a rfl hp hs)

theorem Forking.step_none (ht : own0 (.table p i) = none) (h0 : Shape own0) :
    Forking m0 m own0 own wr p c d pgDir (i + 1) := by
  have huser : ∀ b, own0 (.user p i b) = none := by
    intro b
    cases hu : own0 (.user p i b) with
    | none => rfl
    | some n =>
      obtain ⟨t, ht'⟩ := h0.backed p i b n hu
      simp [ht] at ht'
  obtain ⟨htc, huc⟩ := h.todo i le_rfl
  refine ⟨h.owned, h.fixed, h.dir, h.pde, fun k t hk b hb => ?_, fun k hk => ?_, fun k hk u hu b hb => ?_,
    fun k hk b => ?_, fun k hk => h.todo k (by omega), h.keeps, h.mem⟩
  · rw [h.pte k t hk b hb]
    have hki : k ≠ i := by
      rintro rfl
      simp [ht] at hk
    simp only [show k < i ↔ k < i + 1 by omega]
  · rw [h.newPde k hk]
    by_cases hki : k = i
    · subst k
      rw [if_neg (lt_irrefl i), if_pos (by omega), ht, htc]
    · simp only [show k < i ↔ k < i + 1 by omega]
  · by_cases hki : k = i
    · subst k
      simp [htc] at hu
    · exact h.newPte k (by omega) u hu b hb
  · by_cases hki : k = i
    · subst k
      rw [huc, huser]
    · exact h.newUser k (by omega) b

theorem Forking.copied (hpc : p ≠ c)
    (ht : own0 (.table p i) = some t) (hi : i < userPtrsPerPgd) {m1 m2 m3 : Machine} {addr : Word}
    (ha : m.allocPage = some (m1, addr)) (hm2 : m1.shareEntries (m.page t) nrPtePerPage 0 = m2)
    (hm3 : (m2.fill (va2pa addr) (m2.mem (m.page t))).setEntry (m.page d) i
      (va2pa addr ||| (m.pdeOf (some t) &&& ~~~pageMask)) = m3) :
    ∃ own' u, va2pa addr = m.page u ∧ Copied m m3 own own0 own' p c d i t u := by
  obtain ⟨htc, huc⟩ := h.todo i le_rfl
  have hkeep0 : ∀ {s}, s ≠ .dir c → (∀ k, s ≠ .table c k) → (∀ k b, s ≠ .user c k b) → own s = own0 s :=
    fun {s} => h.keeps s
  have htp : own (.table p i) = some t := by rw [hkeep0 (by simp) (by simp [hpc]) (by simp), ht]
  obtain ⟨u, hpa, -, hult, hunew, hown1, hfix1, hmem1⟩ := h.owned.allocPage ha htc (by simp)
    (by rintro p' i' ⟨⟩; exact hi)
  rw [hpa] at hm3
  generalize hdef1 : update own (.table c i) (some u) = own1 at hown1
  have hk1 : ∀ s, s ≠ .table c i → own1 s = own s := fun s hs => by rw [← hdef1, update_of_ne hs]
  have hu1 : own1 (.table c i) = some u := by rw [← hdef1, update_self]
  have hpage1 := page_of_fixed hfix1
  obtain ⟨own2, hown2, hfix2, hmem2, hpte2, huser2, hk2⟩ := shareEntries_spec (t := t) (c := c)
    hown1 ((hk1 _ (by simp [hpc])).trans htp) hu1 hpc (show 0 + nrPtePerPage = _ by omega)
    (show ∀ b < nrPtePerPage, _ = m1.pteOf (if b < 0 then false else wr (.user p i b)) _ from fun b hb => by
      rw [hpage1, pteOf_of_fixed hfix1, entry_congr (m := m) (by rw [hmem1]), h.pte i t ht b hb,
        if_neg (lt_irrefl i), if_neg (Nat.not_lt_zero b), hk1 _ (by simp),
        hkeep0 (by simp) (by simp) (by simp [hpc])])
    (fun b => by rw [if_neg (Nat.not_lt_zero b), hk1 _ (by simp), huc])
  rw [hpage1, hm2] at hown2 hfix2 hmem2 hpte2
  rw [pteOf_of_fixed hfix1] at hpte2
  have hk : ∀ s, s ≠ .table c i → (∀ b, s ≠ .user c i b) → own2 s = own s := fun s h1 h2 => by
    rw [hk2 s h2, hk1 s h1]
  have hu2 : own2 (.table c i) = some u := by rw [hk2 _ (by simp), hu1]
  have hfix : m3.mm.fixed = m.mm.fixed := by
    rw [← hm3]
    exact hfix2.trans hfix1
  have hpage := page_of_fixed hfix
  have hown : Owned m3 own2 := hown2.of_eq (by rw [← hm3]; rfl)
  have hd2 : own2 (.dir c) = some d := (hk _ (by simp) (by simp)).trans h.dir
  have ht2 : own2 (.table p i) = some t := (hk _ (by simp [hpc]) (by simp)).trans htp
  have hdu : m.page d ≠ m.page u := by rw [← hpage]; exact hown.page_ne hu2 hd2 rfl (by simp)
  have htu : m.page t ≠ m.page u := by rw [← hpage]; exact hown.page_ne hu2 ht2 rfl (by simp [hpc])
  have htd : m.page t ≠ m.page d := by rw [← hpage]; exact hown.page_ne hd2 ht2 rfl (by simp)
  have hmem : ∀ q, q ≠ m.page t → q ≠ m.page u → q ≠ m.page d → m3.mem q = m.mem q := by
    intro q h1 h2 h3
    rw [← hm3, setEntry_mem_of_ne h3, fill_mem_of_ne _ h2, hmem2 q h1, hmem1]
  have hpar : ∀ k b, own1 (.user p k b) = own0 (.user p k b) := fun k b => by
    rw [hk1 _ (by simp), hkeep0 (by simp) (by simp) (by simp [hpc])]
  have htable : ∀ b < nrPtePerPage, m2.entry (m.page t) b = m.pteOf false (own0 (.user p i b)) :=
    fun b hb => by rw [hpte2 b hb, hpar]
  have hentryT : ∀ b < nrPtePerPage, m3.entry (m.page t) b = m.pteOf false (own0 (.user p i b)) :=
    fun b hb => by
      rw [← hm3, entry_setEntry_of_ne htd, entry_congr (m := m2) (fill_mem_of_ne _ htu), htable b hb]
  have hentryU : ∀ b < nrPtePerPage, m3.entry (m.page u) b = m.pteOf false (own0 (.user p i b)) :=
    fun b hb => by
      rw [← hm3, entry_setEntry_of_ne hdu.symm, entry, fill_mem_self]
      exact htable b hb
  have hentryD : ∀ k, k ≠ i → m3.entry (m.page d) k = m.entry (m.page d) k := fun k hki => by
    rw [← hm3, entry_setEntry_ne hki]
    exact entry_congr (by rw [fill_mem_of_ne _ hdu, hmem2 _ htd.symm, hmem1])
  refine ⟨own2, u, hpa, hown, hfix, hu2, fun b => by rw [huser2, hpar], hk, hult, hunew, hmem, hentryT, hentryU, hentryD, ?_⟩
  rw [← hm3, entry_setEntry_self]

theorem Forking.step_some (hpc : p ≠ c) (hdir : m0.DirOf own0 p pgDir)
    (ht : own0 (.table p i) = some t) (hi : i < userPtrsPerPgd) {m1 m2 m3 : Machine} {addr : Word}
    (ha : m.allocPage = some (m1, addr)) (hm2 : m1.shareEntries (m.page t) nrPtePerPage 0 = m2)
    (hm3 : (m2.fill (va2pa addr) (m2.mem (m.page t))).setEntry (m.page d) i
      (va2pa addr ||| (m.pdeOf (some t) &&& ~~~pageMask)) = m3) :
    ∃ own' u, Forking m0 m3 own0 own' wr p c d pgDir (i + 1) ∧ own' (.table c i) = some u ∧
      va2pa addr = m.page u ∧ ∀ k, k ≠ i → own' (.table c k) = own (.table c k) := by
  obtain ⟨own2, u, hpa, hc⟩ := h.copied hpc ht hi ha hm2 hm3
  obtain ⟨htc, huc⟩ := h.todo i le_rfl
  have hkeep0 : ∀ {s}, s ≠ .dir c → (∀ k, s ≠ .table c k) → (∀ k b, s ≠ .user c k b) → own s = own0 s :=
    fun {s} => h.keeps s
  have htp : own (.table p i) = some t := by rw [hkeep0 (by simp) (by simp [hpc]) (by simp), ht]
  have hfix := hc.fixed
  have hpage := page_of_fixed hfix
  have hd2 : own2 (.dir c) = some d := (hc.keeps _ (by simp) (by simp)).trans h.dir
  have ht2 : own2 (.table p i) = some t := (hc.keeps _ (by simp [hpc]) (by simp)).trans htp
  have hdirU : va2pa pgDir ≠ m.page u := by
    intro he
    rw [page_of_fixed h.fixed] at he
    have hp := hdir u (by rw [← Mm.pages_of_fixed h.fixed]; exact hc.lt) he.symm
    rw [← hkeep0 (s := .dir p) (by simp [hpc]) (by simp) (by simp)] at hp
    exact hc.fresh _ hp
  have hdirT := h.dir_ne hpc hdir htp (by simp)
  have hdirD := h.dir_ne hpc hdir h.dir (by simp [Ne.symm hpc])
  refine ⟨own2, u, ⟨hc.owned, hc.fixed.trans h.fixed, hd2, fun k hk' => ?_, fun k a hka b hb => ?_, fun k hk' => ?_,
    fun k hk' a hka b hb => ?_, fun k hk' b => ?_, fun k hk' => ⟨?_, fun b => ?_⟩, fun s h1 h2 h3 => ?_,
    fun q hq => ?_⟩, hc.table, hpa, fun k hki => hc.keeps _ (by simpa using hki) (by simp)⟩
  · rw [pdeOf_of_fixed hfix, entry_congr (hc.mem _ hdirT hdirU hdirD), h.pde k hk']
  · rw [hpage, pteOf_of_fixed hfix]
    have hka' : own (.table p k) = some a := by rw [hkeep0 (by simp) (by simp [hpc]) (by simp), hka]
    by_cases hki : k = i
    · subst k
      obtain rfl : t = a := Option.some.inj (ht.symm.trans hka)
      rw [hc.old b hb, if_pos (by omega)]
    · rw [hc.entry_same htc hd2 ht2 hka' ((hc.keeps _ (by simp [hpc]) (by simp)).trans hka') (by simpa using hki) (by simp),
        h.pte k a hka b hb]
      simp only [show k < i ↔ k < i + 1 by omega]
  · rw [hpage, pdeOf_of_fixed hfix]
    by_cases hki : k = i
    · subst k
      have hpage := paged_page h.owned.layout (h.owned.holds.inside _ _ htp)
      rw [if_pos (by omega), hc.table, hc.dirSelf, pdeOf, hpage.or_and_low (by decide)]
      rfl
    · rw [hc.dirOther k hki, h.newPde k hk', hc.keeps _ (by simpa using hki) (by simp)]
      simp only [show k < i ↔ k < i + 1 by omega]
  · rw [hpage, pteOf_of_fixed hfix]
    by_cases hki : k = i
    · subst k
      obtain rfl : u = a := Option.some.inj (hc.table.symm.trans hka)
      exact hc.new b hb
    · have hka' : own (.table c k) = some a := (hc.keeps _ (by simpa using hki) (by simp)).symm.trans hka
      rw [hc.entry_same htc hd2 ht2 hka' hka (by simp [Ne.symm hpc]) (by simp), h.newPte k (by omega) a hka' b hb]
  · by_cases hki : k = i
    · subst k
      exact hc.user b
    · rw [hc.keeps _ (by simp) (by simp [hki]), h.newUser k (by omega)]
  · rw [hc.keeps _ (by simp; omega) (by simp), (h.todo k (by omega)).1]
  · rw [hc.keeps _ (by simp) (by simp; omega), (h.todo k (by omega)).2]
  · rw [hc.keeps s (h2 i) (h3 i), h.keeps s h1 h2 h3]
  · have hqa : ∀ {s a}, own2 s = some a → (s = .dir c ∨ (∃ k, s = .table p k) ∨ ∃ k, s = .table c k) →
        q ≠ m.page a := fun {s a} hs hcase => by
      rw [page_of_fixed h.fixed]
      exact hq s a hs hcase
    rw [hc.mem q (hqa ht2 (Or.inr (Or.inl ⟨i, rfl⟩))) (hqa hc.table (Or.inr (Or.inr ⟨i, rfl⟩)))
      (hqa hd2 (Or.inl rfl))]
    refine h.mem q fun s a hs hcase => hq s a ?_ hcase
    rw [hc.keeps s ?_ ?_, hs]
    · rintro rfl
      simp [htc] at hs
    · rintro b rfl
      simp [huc] at hs

theorem Forking.alike (h0 : Shape own0) (hpc : p ≠ c) (hdir : m0.DirOf own0 p pgDir) {newDir : Word}
    (hnew : va2pa newDir = m0.page d) {fuel : Nat} (hf : i + fuel = userPtrsPerPgd)
    (hr : m.copyTables pgDir newDir fuel i = some m') (ha : Alike D m mt) (hD : va2pa pgDir ∉ D)
    (htab : ∀ k t, own0 (.table p k) = some t → m0.page t ∉ D)
    (hchild : ∀ k t, own (.table c k) = some t → m0.page t ∉ D) :
    ∃ own' mt' D', D' ⊆ D ∧ Forking m0 m' own0 own' wr p c d pgDir userPtrsPerPgd ∧
      mt.copyTables pgDir newDir fuel i = some mt' ∧ Alike D' m' mt' ∧
      ∀ k t, own' (.table c k) = some t → m0.page t ∉ D' := by
  induction fuel generalizing m mt own i D with
  | zero =>
    obtain rfl : i = userPtrsPerPgd := by omega
    cases Option.some.inj hr
    exact ⟨own, mt, D, fun _ hq => hq, h, rfl, ha, hchild⟩
  | succ fuel ih =>
    have hi : i < userPtrsPerPgd := by omega
    rw [Machine.copyTables, h.pde i hi] at hr
    rw [Machine.copyTables, ha.entry hD, h.pde i hi]
    cases ht : own0 (.table p i) with
    | none =>
      simp only [ht, pdeOf, show (0 : Word) &&& pteP = 0 by decide, if_true] at hr ⊢
      exact ih (h.step_none ht h0) (by omega) hr ha hD htab hchild
    | some t =>
      have htp : own (.table p i) = some t := by
        rw [h.keeps _ (by simp) (by simp [hpc]) (by simp), ht]
      have hlt := h.owned.holds.inside _ _ htp
      simp only [ht, if_neg (pdeOf_and_pteP h.owned.layout hlt),
        pdeOf_and_pageMask h.owned.layout hlt] at hr ⊢
      cases hal : m.allocPage with
      | none => simp [hal] at hr
      | some a =>
        obtain ⟨m1, addr⟩ := a
        obtain ⟨mt1, hal', ha1⟩ := ha.allocPage hal
        simp only [hal] at hr
        simp only [hal']
        have hnd : va2pa newDir = m.page d := by rw [hnew, page_of_fixed h.fixed]
        rw [hnd] at hr ⊢
        obtain ⟨own1, u, h', hu, hpa, hold⟩ := h.step_some hpc hdir ht hi hal rfl rfl
        have htD : m.page t ∉ D := by
          rw [page_of_fixed h.fixed]
          exact htab i t ht
        have hshare : Alike D (m1.shareEntries (m.page t) nrPtePerPage 0)
            (mt1.shareEntries (m.page t) nrPtePerPage 0) := ha1.shareEntries htD nrPtePerPage 0
        rw [hshare.mem _ htD]
        have hstep := (hshare.fill (va2pa addr) ((m1.shareEntries (m.page t) nrPtePerPage 0).mem
          (m.page t))).setEntry (m.page d) i (va2pa addr ||| (m.pdeOf (some t) &&& ~~~pageMask))
        have hchild1 : ∀ k a, own1 (.table c k) = some a → m0.page a ∉ D \ {va2pa addr} := by
          intro k a hk hq
          by_cases hki : k = i
          · subst k
            obtain rfl : u = a := Option.some.inj (hu.symm.trans hk)
            rw [← page_of_fixed h.fixed, ← hpa] at hq
            exact hq.2 rfl
          · rw [hold k hki] at hk
            exact hchild k a hk hq.1
        obtain ⟨own', mt', D', hsub, hrest⟩ := ih h' (by omega) hr hstep (fun hq => hD hq.1)
          (fun k a hk hq => htab k a hk hq.1) hchild1
        exact ⟨own', mt', D', fun q hq => (hsub hq).1, hrest⟩

end

theorem Forking.start (h : Owned m own) (hw : Walks m own wr p (va2pa pgDir) ∅)
    (hdir : m.DirOf own p pgDir) (hc : Unused own c) {m1 : Machine} {newDir : Word} (ha : m.allocPage = some (m1, newDir)) :
    ∃ own' d, newDir = m.mm.pageAddr d ∧ (∀ k, own' (.table c k) = none) ∧
      Forking m (m1.fill (va2pa newDir) (m1.mem (va2pa pgDir))) own own' wr p c d pgDir 0 := by
  obtain ⟨hc, htc, huc⟩ := hc
  obtain ⟨d, hpa, haddr, hlt, hnew, hown, hfix, hmem⟩ := h.allocPage ha hc (by simp) (by simp)
  have hne : va2pa pgDir ≠ m.page d := fun he => hnew _ (hdir d hlt he.symm)
  generalize hdef : update own (.dir c) (some d) = own1 at hown
  have hk : ∀ s, s ≠ .dir c → own1 s = own s := fun s hs => by rw [← hdef, update_of_ne hs]
  have hd1 : own1 (.dir c) = some d := by rw [← hdef, update_self]
  rw [hpa]
  generalize hm2 : m1.fill (m.page d) (m1.mem (va2pa pgDir)) = m2
  have hfix2 : m2.mm.fixed = m.mm.fixed := by rw [← hm2]; exact hfix
  have hpage := page_of_fixed hfix2
  have hmem2 : ∀ q, q ≠ m.page d → m2.mem q = m.mem q := fun q hq => by
    rw [← hm2, fill_mem_of_ne _ hq, hmem]
  have hown2 : Owned m2 own1 := hown.of_eq (by rw [← hm2]; rfl)
  have htc1 : ∀ k, own1 (.table c k) = none := fun k => by rw [hk _ (by simp), htc]
  refine ⟨own1, d, haddr, htc1, hown2, hfix2, hd1, fun k hk' => ?_, fun k t ht b hb => ?_, fun k hk' => ?_,
    by simp, by simp, fun k _ => ⟨htc1 k, fun b => ?_⟩, fun s hs _ _ => hk s hs, fun q hq => ?_⟩
  · rw [entry_congr (hmem2 _ hne), pdeOf_of_fixed hfix2, hw.pde k hk']
  · have htd : m.page t ≠ m.page d := by
      rw [← hpage]
      exact hown2.page_ne hd1 ((hk _ (by simp)).trans ht) rfl (by simp)
    rw [hpage, pteOf_of_fixed hfix2, entry_congr (hmem2 _ htd), if_neg (Nat.not_lt_zero k),
      hw.pte k t ht b hb (Set.notMem_empty _)]
  · rw [hpage, pdeOf_of_fixed hfix2, if_neg (Nat.not_lt_zero k), ← hw.pde k hk', ← hm2, entry,
      fill_mem_self, hmem]
    rfl
  · rw [hk _ (by simp), huc]
  · exact hmem2 q (hq _ _ hd1 (Or.inl rfl))

theorem Alike.copyPageTable (ha : Alike D m mt) (h : Owned m own)
    (hw : Walks m own wr p (va2pa pgDir) ∅) (hpc : p ≠ c) (hdir : m.DirOf own p pgDir) (hc : Unused own c)
    (hD : va2pa pgDir ∉ D) (htab : ∀ k t, own (.table p k) = some t → m.page t ∉ D)
    {r : Machine × Word} (hr : m.copyPageTable pgDir = some r) :
    ∃ own' d mt' D', D' ⊆ D ∧ r.2 = m.mm.pageAddr d ∧ Forking m r.1 own own' wr p c d pgDir userPtrsPerPgd ∧
      mt.copyPageTable pgDir = some (mt', r.2) ∧ Alike D' r.1 mt' ∧
      m.page d ∉ D' ∧ ∀ k t, own' (.table c k) = some t → m.page t ∉ D' := by
  unfold Machine.copyPageTable at hr ⊢
  cases hal : m.allocPage with
  | none => simp [hal] at hr
  | some a =>
    obtain ⟨m1, newDir⟩ := a
    obtain ⟨mt1, hal', ha1⟩ := ha.allocPage hal
    simp only [hal] at hr
    simp only [hal']
    obtain ⟨m', hcopy, he⟩ := Option.map_eq_some_iff.mp hr
    subst he
    obtain ⟨own1, d, haddr, hnone, hstart⟩ := Forking.start h hw hdir hc hal
    have hpa : va2pa newDir = m.page d := by rw [haddr, page]
    rw [ha1.mem _ hD]
    obtain ⟨own', mt', D', hsub, h', hcopy', ha', hchild⟩ := hstart.alike h.shape hpc hdir hpa
      (Nat.zero_add _) hcopy (ha1.fill _ _) (fun hq => hD hq.1) (fun k t ht hq => htab k t ht hq.1)
      (by simp [hnone])
    refine ⟨own', d, mt', D', fun q hq => (hsub hq).1, haddr, h', ?_, ha', fun hq => ?_, hchild⟩
    · rw [hcopy']
      rfl
    · rw [← hpa] at hq
      exact (hsub hq).2 rfl

theorem copyPageTable_spec (h : Owned m own) (hw : Walks m own wr p (va2pa pgDir) ∅) (hpc : p ≠ c)
    (hdir : m.DirOf own p pgDir) (hc : Unused own c) {r : Machine × Word} (hr : m.copyPageTable pgDir = some r) :
    ∃ own' d, r.2 = m.mm.pageAddr d ∧ Forking m r.1 own own' wr p c d pgDir userPtrsPerPgd := by
  obtain ⟨own', d, -, -, -, hd, hf, -⟩ := Alike.copyPageTable (D := ∅) ⟨rfl, fun _ _ => rfl⟩ h hw hpc hdir hc
    (Set.notMem_empty _) (fun _ _ _ => Set.notMem_empty _) hr
  exact ⟨own', d, hd, hf⟩

def protect (wr : Slot → Bool) (p c : Nat) : Slot → Bool
  | .user q i j => if q = p ∨ q = c then false else wr (.user q i j)
  | u => wr u

section

variable (h : Forking m0 m own0 own wr p c d pgDir userPtrsPerPgd)
include h

theorem Forking.child (h0 : Shape own0) (i j : Nat) : own (.user c i j) = own0 (.user p i j) := by
  by_cases hi : i < userPtrsPerPgd
  · exact h.newUser i hi j
  · rw [(h.todo i (by omega)).2 j]
    cases hu : own0 (.user p i j) with
    | none => rfl
    | some n =>
      obtain ⟨t, ht⟩ := h0.backed p i j n hu
      exact absurd (h0.table_lt p i t ht) hi

theorem Forking.walks_child (h0 : Shape own0) : Walks m own (protect wr p c) c (m.page d) ∅ := by
  refine ⟨fun i hi => ?_, fun i u hu j hj _ => ?_⟩
  · rw [h.newPde i hi, if_pos hi]
  · rw [h.newPte i (h.owned.shape.table_lt c i u hu) u hu j hj, h.child h0]
    simp [protect]

theorem Forking.walks_parent (hpc : p ≠ c) : Walks m own (protect wr p c) p (va2pa pgDir) ∅ := by
  have htab : ∀ i, own (.table p i) = own0 (.table p i) :=
    fun i => h.keeps _ (by simp) (by simp [hpc]) (by simp)
  refine ⟨fun i hi => ?_, fun i u hu j hj _ => ?_⟩
  · rw [h.pde i hi, htab]
  · have hlt := h.owned.shape.table_lt p i u hu
    rw [htab] at hu
    rw [h.pte i u hu j hj, if_pos hlt, h.keeps (.user p i j) (by simp) (by simp) (by simp [hpc])]
    simp [protect]

theorem Forking.mem_other {u : Slot} {a : Nat}
    (hu : own u = some a) (h1 : u ≠ .dir c) (h2 : ∀ k, u ≠ .table p k) (h3 : ∀ k, u ≠ .table c k) :
    m.mem (m0.page a) = m0.mem (m0.page a) := by
  refine h.mem _ fun v b hv hcase => ?_
  rw [← page_of_fixed h.fixed]
  refine h.owned.page_ne hv hu ?_ ?_
  · rcases hcase with rfl | ⟨k, rfl⟩ | ⟨k, rfl⟩ <;> rfl
  · rcases hcase with rfl | ⟨k, rfl⟩ | ⟨k, rfl⟩
    · exact h1
    · exact h2 k
    · exact h3 k

end

end

end Machine

end BabyOS
