import BabyOS.VmFault
import BabyOS.VmFork

open Function

namespace BabyOS

/-- What each process sees: the bytes behind each entry of its tables. -/
abbrev Views := Nat → Nat → Nat → Option (Nat → Byte)

/-- The model where every page is private: a fork copies all pages, a store changes one process, a release takes
all pages away. -/
def Views.after (v : Views) : VmEvent → Views
  | .silent => v
  | .store p va b => update v p fun i j =>
    if i = pdIndex va ∧ j = ptIndex va then
      (v p i j).map fun bytes => update bytes (pageOffset va) b
    else v p i j
  | .fresh p va content => update v p fun i j =>
    if i = pdIndex va ∧ j = ptIndex va then some content else v p i j
  | .fork p c => update v c (v p)
  | .release p => update v p fun _ _ => none

namespace Sys

def views (s : Sys) (own : Slot → Option Nat) : Views := fun p i j =>
  (own (.user p i j)).map fun n => s.machine.mem (s.machine.page n)

/-- The slots tell who holds which page, the tables in memory agree with them, and a writable entry is the only
one of its page. -/
structure Inv (s : Sys) (own : Slot → Option Nat) (wr : Slot → Bool) : Prop where
  owned : s.machine.Owned own
  spare : own .spare = none
  dirs : ∀ p vmm, s.procs p = some vmm →
    ∃ d, own (.dir p) = some d ∧ vmm.pgDir = s.machine.mm.pageAddr d
  zombie : ∀ p dir, s.zombies p = some dir →
    s.procs p = none ∧ ∃ d, own (.dir p) = some d ∧ dir = s.machine.mm.pageAddr d
  onlyDirs : ∀ p d, own (.dir p) = some d → (s.procs p).isSome ∨ (s.zombies p).isSome
  onlyTables : ∀ p i t, own (.table p i) = some t → (s.procs p).isSome
  walks : ∀ p vmm, s.procs p = some vmm → s.machine.Walks own wr p (va2pa vmm.pgDir) ∅
  areas : ∀ p vmm, s.procs p = some vmm → AreasOk vmm.areas
  covered : ∀ p vmm, s.procs p = some vmm → ∀ i j n, own (.user p i j) = some n →
    Covered VmArea.lo VmArea.hi vmm.areas (vpage i j)
  kernel : ∀ n k, own (.kernel n) = some k → k = n ∧ s.kernelPages (s.machine.mm.pageAddr n) = true
  kept : ∀ addr, s.kernelPages addr = true →
    ∃ n, addr = s.machine.mm.pageAddr n ∧ own (.kernel n) = some n
  idle : s.procs 0 = none ∧ s.zombies 0 = none
  idleDir : ∀ n < s.machine.mm.pages, s.machine.page n ≠ va2pa s.kernelPgDir
  idlePde : ∀ i < userPtrsPerPgd, s.machine.entry (va2pa s.kernelPgDir) i = 0
  sole : ∀ p i j n, own (.user p i j) = some n → wr (.user p i j) = true →
    ∀ u, own u = some n → u = .user p i j

variable {s : Sys} {p : Nat} {m : Machine} {vmm : Vmm}

theorem setProc_self : (s.setProc p m vmm).procs p = some vmm :=
  update_self _ _ _

theorem setProc_of_ne {q : Nat} (h : q ≠ p) : (s.setProc p m vmm).procs q = s.procs q :=
  update_of_ne h _ _

section

variable {own own' : Slot → Option Nat} {wr wr' : Slot → Bool} {vmm' : Vmm} {m' : Machine}

theorem Inv.mem_other (h : Inv s own wr) (howned : m'.Owned own') (hfix : m'.mm.fixed = s.machine.mm.fixed)
    (hmem : ∀ q, (∀ u a, own' u = some a → (u = .dir p ∨ (∃ k, u = .table p k) ∨ u.isUser) →
      q ≠ s.machine.page a) → m'.mem q = s.machine.mem q) :
    (∀ u a, own' u = some a → u.isUser = false → u ≠ .dir p → (∀ k, u ≠ .table p k) →
      m'.mem (s.machine.page a) = s.machine.mem (s.machine.page a)) ∧
      m'.mem (va2pa s.kernelPgDir) = s.machine.mem (va2pa s.kernelPgDir) := by
  have hpage := Machine.page_of_fixed hfix
  refine ⟨fun u a hu huser hdir htab => hmem _ fun v b hv hcase => ?_, hmem _ fun v b hv _ => ?_⟩
  · rw [← hpage]
    refine (howned.page_ne hu hv huser ?_).symm
    rintro rfl
    rcases hcase with rfl | ⟨k, rfl⟩ | hv'
    · exact hdir rfl
    · exact htab k rfl
    · simp [huser] at hv'
  · refine (h.idleDir b ?_).symm
    rw [← Mm.pages_of_fixed hfix]
    exact howned.holds.inside v b hv

theorem Inv.install (h : Inv s own wr) (hp0 : p ≠ 0) (hz : s.zombies p = none) (howned : m'.Owned own')
    (hfix : m'.mm.fixed = s.machine.mm.fixed)
    (hslots : ∀ u, u ≠ .dir p → (∀ k, u ≠ .table p k) → (∀ i j, u ≠ .user p i j) → own' u = own u)
    (hdir : ∃ d, own' (.dir p) = some d ∧ vmm'.pgDir = s.machine.mm.pageAddr d)
    (hidle : m'.mem (va2pa s.kernelPgDir) = s.machine.mem (va2pa s.kernelPgDir))
    (hwalks : m'.Walks own' wr' p (va2pa vmm'.pgDir) ∅)
    (hothers : ∀ q vq, q ≠ p → s.procs q = some vq → m'.Walks own' wr' q (va2pa vq.pgDir) ∅)
    (hareas : AreasOk vmm'.areas)
    (hcov : ∀ i j n, own' (.user p i j) = some n → InAreas vmm'.areas (vpage i j))
    (hsole : ∀ q i j n, own' (.user q i j) = some n → wr' (.user q i j) = true →
      ∀ u, own' u = some n → u = .user q i j) : Inv (s.setProc p m' vmm') own' wr' := by
  have haddr := Mm.pageAddr_of_fixed hfix
  have hkernel : ∀ n, own' (.kernel n) = own (.kernel n) := fun n => hslots _ (by simp) (by simp) (by simp)
  have hprocs : ∀ q vq, (s.setProc p m' vmm').procs q = some vq →
      (q = p ∧ vq = vmm') ∨ (q ≠ p ∧ s.procs q = some vq) := by
    intro q vq hq
    by_cases hqp : q = p
    · subst q
      exact Or.inl ⟨rfl, (Option.some.inj (setProc_self.symm.trans hq)).symm⟩
    · exact Or.inr ⟨hqp, (setProc_of_ne hqp).symm.trans hq⟩
  refine ⟨howned, ?_, fun q vq hq => ?_, fun q dir hq => ?_, fun q d hq => ?_, fun q i t hq => ?_,
    fun q vq hq => ?_, fun q vq hq => ?_, fun q vq hq => ?_, fun n k hk => ?_, fun addr hk => ?_, ?_,
    fun n hn => ?_, fun i hi => ?_, hsole⟩
  · rw [hslots _ (by simp) (by simp) (by simp), h.spare]
  · show ∃ d, own' (.dir q) = some d ∧ vq.pgDir = m'.mm.pageAddr d
    rw [haddr]
    rcases hprocs q vq hq with ⟨rfl, rfl⟩ | ⟨hqp, hq⟩
    · exact hdir
    · rw [hslots _ (by simpa using hqp) (by simp) (by simp)]
      exact h.dirs q vq hq
  · have hqp : q ≠ p := by
      rintro rfl
      exact absurd (hz.symm.trans hq) (by simp)
    show _ ∧ ∃ d, own' (.dir q) = some d ∧ dir = m'.mm.pageAddr d
    rw [haddr, hslots _ (by simpa using hqp) (by simp) (by simp), setProc_of_ne hqp]
    exact h.zombie q dir hq
  · by_cases hqp : q = p
    · subst q
      simp [setProc_self]
    · rw [hslots _ (by simpa using hqp) (by simp) (by simp)] at hq
      rw [setProc_of_ne hqp]
      exact h.onlyDirs q d hq
  · by_cases hqp : q = p
    · subst q
      simp [setProc_self]
    · rw [hslots _ (by simp) (by simp [hqp]) (by simp)] at hq
      rw [setProc_of_ne hqp]
      exact h.onlyTables q i t hq
  · rcases hprocs q vq hq with ⟨rfl, rfl⟩ | ⟨hqp, hq⟩
    · exact hwalks
    · exact hothers q vq hqp hq
  · rcases hprocs q vq hq with ⟨rfl, rfl⟩ | ⟨_, hq⟩
    · exact hareas
    · exact h.areas q vq hq
  · rcases hprocs q vq hq with ⟨rfl, rfl⟩ | ⟨hqp, hq⟩
    · exact hcov
    · intro i j n hn
      rw [hslots _ (by simp) (by simp) (by simp [hqp])] at hn
      exact h.covered q vq hq i j n hn
  · rw [hkernel] at hk
    show k = n ∧ s.kernelPages (m'.mm.pageAddr n) = true
    rw [haddr]
    exact h.kernel n k hk
  · show ∃ n, addr = m'.mm.pageAddr n ∧ own' (.kernel n) = some n
    obtain ⟨n, h1, h2⟩ := h.kept addr hk
    rw [haddr]
    exact ⟨n, h1, (hkernel n).trans h2⟩
  · exact ⟨(setProc_of_ne hp0.symm).trans h.idle.1, h.idle.2⟩
  · show m'.page n ≠ va2pa s.kernelPgDir
    rw [Machine.page_of_fixed hfix]
    refine h.idleDir n ?_
    rw [← Mm.pages_of_fixed hfix]
    exact hn
  · show m'.entry (va2pa s.kernelPgDir) i = 0
    rw [Machine.entry_congr hidle]
    exact h.idlePde i hi

theorem Inv.setProc (h : Inv s own wr) (hp : s.procs p = some vmm) (howned : m'.Owned own')
    (hfix : m'.mm.fixed = s.machine.mm.fixed) (hdir : vmm'.pgDir = vmm.pgDir)
    (hslots : ∀ u, (∀ k, u ≠ .table p k) → (∀ i j, u ≠ .user p i j) → own' u = own u)
    (hwr : ∀ u, (∀ i j, u ≠ .user p i j) → wr' u = wr u)
    (hmem : ∀ q, (∀ u a, own' u = some a → (u = .dir p ∨ (∃ k, u = .table p k) ∨ u.isUser) →
      q ≠ s.machine.page a) → m'.mem q = s.machine.mem q)
    (hwalks : m'.Walks own' wr' p (va2pa vmm.pgDir) ∅) (hareas : AreasOk vmm'.areas)
    (hcov : ∀ i j n, own' (.user p i j) = some n → InAreas vmm'.areas (vpage i j))
    (hsole : ∀ q i j n, own' (.user q i j) = some n → wr' (.user q i j) = true →
      ∀ u, own' u = some n → u = .user q i j) : Inv (s.setProc p m' vmm') own' wr' := by
  obtain ⟨hother, hidle⟩ := h.mem_other howned hfix hmem
  have hpz : p ≠ 0 := by
    rintro rfl
    simp [h.idle.1] at hp
  have hzp : s.zombies p = none := by
    cases hz : s.zombies p with
    | none => rfl
    | some dir => simp [(h.zombie p dir hz).1] at hp
  refine h.install hpz hzp howned hfix (fun u _ => hslots u) ?_ hidle (by rwa [hdir]) (fun q vq hqp hq => ?_) hareas
    hcov hsole
  · rw [hslots _ (by simp) (by simp), hdir]
    exact h.dirs p vmm hp
  · obtain ⟨d, hd, hpg⟩ := h.dirs q vq hq
    refine (h.walks q vq hq).congr hfix ?_ (fun i => hslots _ (by simp [hqp]) (by simp)) ?_
      (fun i j _ => hslots _ (by simp) (by simp [hqp])) (fun i j _ => hwr _ (by simp [hqp]))
    · rw [hpg]
      exact hother (.dir q) d ((hslots _ (by simp) (by simp)).trans hd) rfl (by simp [hqp]) (by simp)
    · intro i t ht
      exact hother (.table q i) t ((hslots _ (by simp [hqp]) (by simp)).trans ht) rfl (by simp) (by simp [hqp])

/-- The invariant after a step, and the private pages of the model follow the event. -/
def Follows (s : Sys) (own : Slot → Option Nat) (s' : Sys) (e : VmEvent) : Prop :=
  ∃ own' wr', Inv s' own' wr' ∧ s'.views own' = (s.views own).after e

theorem Inv.dir_eq (h : Inv s own wr) (hp : s.procs p = some vmm) :
    ∃ d, own (.dir p) = some d ∧ va2pa vmm.pgDir = s.machine.page d := by
  obtain ⟨d, hd, he⟩ := h.dirs p vmm hp
  exact ⟨d, hd, by rw [he, Machine.page]⟩

section

variable {d i j n t : Nat}

theorem Inv.touched (h : Inv s own wr) (hp : s.procs p = some vmm) (hd : own (.dir p) = some d)
    (ht : s.machine.Touched m' own own' p d i j n t)
    (hw : m'.Walks own' (update wr (.user p i j) true) p (va2pa vmm.pgDir) ∅)
    (hdir : vmm'.pgDir = vmm.pgDir) (hareas : AreasOk vmm'.areas)
    (hcov : ∀ x, InAreas vmm.areas x → InAreas vmm'.areas x) (hnew : InAreas vmm'.areas (vpage i j)) :
    Inv (s.setProc p m' vmm') own' (update wr (.user p i j) true) := by
  have hd' : own' (.dir p) = some d := (ht.slots _ (by simp) (by simp)).trans hd
  refine h.setProc hp ht.owned ht.fixed hdir (fun u h1 h2 => ht.slots u (h1 i) (h2 i j))
    (fun u h1 => update_of_ne (h1 i j) _ _) (fun q hq => ?_) hw hareas (fun k l a ha => ?_) ?_
  · exact ht.mem q (hq _ d hd' (Or.inl rfl)) (hq _ t ht.table (Or.inr (Or.inl ⟨i, rfl⟩)))
      (hq _ n ht.user (Or.inr (Or.inr rfl)))
  · by_cases hkl : Slot.user p k l = .user p i j
    · cases hkl
      exact hnew
    · rw [ht.slots _ (by simp) hkl] at ha
      exact hcov _ (h.covered p vmm hp k l a ha)
  · intro q k l a ha hwr u hu
    by_cases hkl : Slot.user q k l = .user p i j
    · cases hkl
      obtain rfl : n = a := Option.some.inj (ht.user.symm.trans ha)
      exact ht.alone u hu
    · rw [update_of_ne hkl] at hwr
      by_cases hut : u = .table p i
      · exact (ht.owned.shape.alone u _ a (by rw [hut]; rfl) hu ha).symm
      · have huu : u ≠ .user p i j := by
          rintro rfl
          obtain rfl : n = a := Option.some.inj (ht.user.symm.trans hu)
          exact hkl (ht.alone _ ha)
        rw [ht.slots _ (by simp) hkl] at ha
        rw [ht.slots u hut huu] at hu
        exact h.sole q k l a ha hwr u hu

theorem Inv.touched_views (h : Inv s own wr) (hd : own (.dir p) = some d)
    (ht : s.machine.Touched m' own own' p d i j n t) (vmm' : Vmm) :
    (s.setProc p m' vmm').views own' = update (s.views own) p fun k l =>
      if k = i ∧ l = j then some (m'.mem (s.machine.page n)) else s.views own p k l := by
  have hpage := Machine.page_of_fixed ht.fixed
  have hsame : ∀ q k l, Slot.user q k l ≠ .user p i j →
      (s.setProc p m' vmm').views own' q k l = s.views own q k l := by
    intro q k l hne
    have hslot := ht.slots (.user q k l) (by simp) hne
    show (own' (.user q k l)).map (fun a => m'.mem (m'.page a)) = _
    rw [hslot, hpage, views]
    cases ha : own (.user q k l) with
    | none => rfl
    | some a =>
      have ha' := hslot.trans ha
      have h1 := h.owned.page_ne hd ha rfl (by simp)
      have h2 := ht.owned.page_ne ht.table ha' rfl (by simp)
      have h3 : s.machine.page a ≠ s.machine.page n := by
        intro he
        rw [← hpage] at he
        have := Machine.page_inj ht.owned.layout (ht.owned.holds.inside _ _ ha')
          (ht.owned.holds.inside _ _ ht.user) he
        exact hne (ht.alone _ (this ▸ ha'))
      rw [hpage] at h2
      simp only [Option.map_some, ht.mem _ h1 h2 h3]
  funext q k l
  by_cases hq : q = p
  · subst q
    rw [update_self]
    by_cases hkl : k = i ∧ l = j
    · obtain ⟨rfl, rfl⟩ := hkl
      rw [if_pos ⟨rfl, rfl⟩]
      show (own' (.user p k l)).map (fun a => m'.mem (m'.page a)) = _
      rw [ht.user, hpage]
      rfl
    · rw [if_neg hkl]
      exact hsame p k l (by simpa using hkl)
  · rw [update_of_ne hq]
    exact hsame q k l (by simp [hq])

end

end

end Sys

end BabyOS
