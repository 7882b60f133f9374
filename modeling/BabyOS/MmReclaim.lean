import BabyOS.MmRun

open Function

namespace BabyOS

namespace Mm

theorem freePageNum_incPages (mm : Mm) (k : Nat) (p : Word) :
    (mm.incPages k p).freePageNum = mm.freePageNum := by
  induction k generalizing mm p with
  | zero => rfl
  | succ k ih => exact ih _ _

theorem freePageNum_allocLoop (mm : Mm) (order fuel o : Nat) :
    (mm.allocLoop order fuel o).1.freePageNum = mm.freePageNum := by
  induction fuel generalizing o with
  | zero => rfl
  | succ fuel ih =>
    rw [Mm.allocLoop]
    split
    · exact (freePageNum_incPages _ _ _).trans (fixed_expandLoop _ _ _ _ _).2.2
    · exact ih _

theorem freePageNum_allocPages (mm : Mm) (order : Nat) :
    (mm.allocPages order).1.freePageNum = mm.freePageNum - mathPow 2 order :=
  freePageNum_allocLoop _ _ _ _

end Mm

/-- The calls of clients that give each block back once, with the order it was allocated with. -/
inductive BlockCall
  | alloc (order : Nat)
  | free (page order : Nat)

/-- The allocator and the blocks that are out, by their first page and order. -/
structure Loans where
  mm : Mm
  out : List (Nat × Nat)

namespace Loans

def call (s : Loans) : BlockCall → Option Loans
  | .alloc order =>
    if order ≤ maxOrder then
      match s.mm.allocPages order with
      | (mm, none) => some { s with mm := mm }
      | (mm, some addr) => some ⟨mm, ((mapNr (addr - mm.base)).toNat, order) :: s.out⟩
    else none
  | .free n order =>
    if (n, order) ∈ s.out then
      (s.mm.freePages (s.mm.pageAddr n) order).map fun mm => ⟨mm, s.out.erase (n, order)⟩
    else none

def start (mm : Mm) : Loans := ⟨mm, []⟩

/-- `mm` has the pages of `mm₀` back, for the blocks `free` and `free₀` in their lists. -/
structure Restored (mm₀ mm : Mm) (free₀ free : Nat → List Word) : Prop where
  lists₀ : ∀ o ≤ maxOrder, Ring mm₀.links (.head o) ((free₀ o).map .block)
  lists : ∀ o ≤ maxOrder, Ring mm.links (.head o) ((free o).map .block)
  low : ∀ o < maxOrder, free₀ o = [] ∧ free o = []
  top : (free maxOrder).Perm (free₀ maxOrder)
  refs : ∀ p < mm₀.pages, mm.ref (mm₀.frame p) = 0
  num : mm.freePageNum = mm₀.freePageNum

/-- The calls that lose nothing: single pages, asked for while some free list holds a block. -/
def Careful (s : Loans) : BlockCall → Prop
  | .alloc order => order = 0 ∧ ∃ o ≤ maxOrder, s.mm.links.next (.head o) ≠ .head o
  | .free _ _ => True

/-- While single pages are out, a page is either out with one reference or free with none. -/
structure Inv (mm₀ : Mm) (s : Loans) (b : Buddy) : Prop where
  ok : s.mm.Ok b
  fixed : s.mm.fixed = mm₀.fixed
  single : ∀ x ∈ s.out, x.2 = 0 ∧ x.1 < mm₀.pages
  nodup : s.out.Nodup
  covers : ∀ p, b.Covers p ↔ p < mm₀.pages ∧ (p, 0) ∉ s.out
  refs : ∀ p < mm₀.pages, s.mm.ref (mm₀.frame p) = if (p, 0) ∈ s.out then 1 else 0
  num : s.mm.freePageNum + BitVec.ofNat 32 s.out.length = mm₀.freePageNum

section

variable {mm₀ : Mm} {s s' : Loans} {b : Buddy}

theorem free_ne_nil_iff {mm : Mm} (hok : mm.Ok b) {o : Nat} (ho : o ≤ maxOrder) :
    b.free o ≠ [] ↔ mm.links.next (.head o) ≠ .head o := by
  rw [ne_eq, ne_eq, (hok.rep.rings o ho).next_head_eq_iff, List.map_eq_nil_iff]

theorem alloc_call (hok : s.mm.Ok b) {order : Nat} (ho : order ≤ maxOrder)
    (hne : ¬∀ o, order ≤ o → b.free o = []) :
    ∃ b' m mm', s.call (.alloc order) = some ⟨mm', (m, order) :: s.out⟩ ∧ mm'.Ok b' ∧
      mm'.fixed = s.mm.fixed ∧ 2 ^ order ∣ m ∧ m + 2 ^ order ≤ s.mm.pages ∧
      (∀ p, m ≤ p → p < m + 2 ^ order → b.Covers p) ∧
      (∀ p, b'.Covers p ↔ b.Covers p ∧ ¬(m ≤ p ∧ p < m + 2 ^ order)) ∧
      (∀ j, mm'.ref (s.mm.frame j) = s.mm.ref (s.mm.frame j) + (if m ≤ j ∧ j < m + 2 ^ order then 1 else 0)) ∧
      mm'.freePageNum = s.mm.freePageNum - mathPow 2 order := by
  rcases hok.allocPages ho with ⟨_, _, _, _, _, hnil⟩ | ⟨b', m, mm', he, hok', hfixed, hd, hle, hrest⟩
  · exact absurd hnil hne
  · have hbase : mm'.base = s.mm.base := congrArg Prod.fst hfixed
    have hnum := s.mm.freePageNum_allocPages order
    rw [he] at hnum
    refine ⟨b', m, mm', ?_, hok', hfixed, hd, hle, hrest.1, hrest.2.1, hrest.2.2, hnum⟩
    rw [call, if_pos ho, he]
    simp only [hbase, Mm.mapNr_pageAddr (show m ≤ s.mm.pages by omega)]

theorem Inv.alloc (h : Inv mm₀ s b) {order : Nat} (hc : Careful s (.alloc order))
    (hs : s.call (.alloc order) = some s') : ∃ b', Inv mm₀ s' b' := by
  obtain ⟨rfl, o, ho, hne⟩ := hc
  obtain ⟨b', m, mm', he, hok, hfixed, -, hle, hall, hcov, href, hnum⟩ := alloc_call h.ok
    (Nat.zero_le maxOrder) (fun hnil => (free_ne_nil_iff h.ok ho).mpr hne (hnil o (Nat.zero_le o)))
  cases he.symm.trans hs
  obtain ⟨hm, hout⟩ := (h.covers m).mp (hall m le_rfl (by omega))
  have hone : ∀ p, (m ≤ p ∧ p < m + 2 ^ 0) ↔ p = m := by
    intro p
    omega
  refine ⟨b', hok, hfixed.trans h.fixed, ?_, ?_, ?_, ?_, ?_⟩
  · exact List.forall_mem_cons.mpr ⟨⟨rfl, hm⟩, h.single⟩
  · exact List.nodup_cons.mpr ⟨hout, h.nodup⟩
  · intro p
    rw [hcov, h.covers, hone]
    simp [and_assoc, and_comm]
  · intro p hp
    have hp' := href p
    rw [Mm.frame_of_fixed h.fixed, h.refs p hp] at hp'
    by_cases hpm : p = m
    · subst p
      rw [hp', if_neg hout, if_pos ((hone m).mpr rfl), if_pos (List.mem_cons_self ..)]
      rfl
    · rw [hp', if_neg (mt (hone p).mp hpm)]
      simp [hpm]
  · rw [List.length_cons, ← h.num]
    change mm'.freePageNum = s.mm.freePageNum - 1 at hnum
    rw [hnum]
    bv_omega

theorem Inv.free_call (h : Inv mm₀ s b) {n : Nat} (hn : (n, 0) ∈ s.out) :
    ∃ mm' b', s.call (.free n 0) = some ⟨mm', s.out.erase (n, 0)⟩ ∧ Inv mm₀ ⟨mm', s.out.erase (n, 0)⟩ b' := by
  have hlt := (h.single _ hn).2
  have hpages := Mm.pages_of_fixed h.fixed
  have href := h.refs n hlt
  rw [if_pos hn, ← Mm.frame_of_fixed h.fixed] at href
  have hclear : b.Clear 0 n := Buddy.clear_of_not_covers (fun p hp1 hp2 hp => by
    obtain rfl : p = n := by omega
    exact ((h.covers p).mp hp).2 hn)
  obtain ⟨mm', b', he, hok, hfixed, href', hcov⟩ := h.ok.freePages (Nat.zero_le maxOrder)
    (Nat.one_dvd n) (by rw [hpages]; omega) hclear (by rw [href]; decide)
  have hnum := Mm.freePageNum_freePages he (by
    rw [Mm.getPageRef, h.ok.layout.frame_eq (by omega), href])
  refine ⟨mm', b', ?_, hok, hfixed.trans h.fixed, ?_, ?_, ?_, ?_, ?_⟩
  · rw [call, if_pos hn, he, Option.map_some]
  · exact fun x hx => h.single x (List.mem_of_mem_erase hx)
  · exact h.nodup.erase _
  · intro p
    rw [hcov, h.covers, h.nodup.mem_erase_iff]
    by_cases hpn : p = n
    · subst p
      simp [href, hlt]
    · rw [or_iff_left (fun hp => hpn (by omega))]
      simp [hpn]
  · intro p hp
    rw [href', Mm.frame_of_fixed h.fixed]
    by_cases hpn : p = n
    · subst p
      rw [update_self, ← Mm.frame_of_fixed h.fixed, href, if_neg h.nodup.not_mem_erase]
      rfl
    · have hne : mm₀.frame p ≠ mm₀.frame n := by unfold Mm.frame; omega
      rw [update_of_ne hne, h.refs p hp]
      simp [h.nodup.mem_erase_iff, hpn]
  · have hlen : s.out.length = (s.out.erase (n, 0)).length + 1 := by
      have := List.length_pos_of_mem hn
      rw [List.length_erase_of_mem hn]
      omega
    have hnum' := h.num
    rw [hlen] at hnum'
    change mm'.freePageNum = s.mm.freePageNum + 1 at hnum
    rw [hnum, ← hnum']
    bv_omega

theorem Inv.call (h : Inv mm₀ s b) {c : BlockCall} (hc : Careful s c) (hs : s.call c = some s') :
    ∃ b', Inv mm₀ s' b' := by
  cases c with
  | alloc order => exact h.alloc hc hs
  | free n order =>
    by_cases hmem : (n, order) ∈ s.out
    · obtain rfl : order = 0 := (h.single _ hmem).1
      obtain ⟨mm', b', he, hinv⟩ := h.free_call hmem
      cases he.symm.trans hs
      exact ⟨b', hinv⟩
    · rw [Loans.call, if_neg hmem] at hs
      cases hs

theorem Inv.restored {b₀ : Buddy} (h₀ : Inv mm₀ (start mm₀) b₀) (h : Inv mm₀ s b) (hout : s.out = []) :
    Restored mm₀ s.mm (fun o => (b₀.free o).map mm₀.pageAddr) (fun o => (b.free o).map mm₀.pageAddr) := by
  have hpages := Mm.pages_of_fixed h.fixed
  have hd : 2 ^ maxOrder ∣ mm₀.pages := (by decide : 2 ^ maxOrder ∣ 128).trans h₀.ok.layout.pages_dvd
  have hall₀ : ∀ p < mm₀.pages, b₀.Covers p := fun p hp => (h₀.covers p).mpr ⟨hp, List.not_mem_nil⟩
  have hall : ∀ p < mm₀.pages, b.Covers p := by
    intro p hp
    rw [h.covers, hout]
    exact ⟨hp, List.not_mem_nil⟩
  have hwf₀ := h₀.ok.wf
  have hwf := h.ok.wf
  rw [hpages] at hwf
  refine ⟨?_, ?_, ?_, ?_, ?_, ?_⟩
  · intro o ho
    rw [List.map_map]
    exact h₀.ok.rep.rings o ho
  · intro o ho
    rw [List.map_map, ← Mm.pageAddr_of_fixed h.fixed]
    exact h.ok.rep.rings o ho
  · intro o ho
    rw [hwf₀.free_low hd hall₀ ho, hwf.free_low hd hall ho]
    exact ⟨rfl, rfl⟩
  · refine List.Perm.map _ ((List.perm_ext_iff_of_nodup (hwf.nodup maxOrder) (hwf₀.nodup maxOrder)).mpr fun n => ?_)
    exact (hwf.mem_free_top hd hall).trans (hwf₀.mem_free_top hd hall₀).symm
  · intro p hp
    rw [h.refs p hp, hout]
    rfl
  · rw [← h.num, hout]
    exact (BitVec.add_zero _).symm

end

theorem Inv.start {mm : Mm} {b : Buddy} (hok : mm.Ok b) (hcov : ∀ p, b.Covers p ↔ p < mm.pages)
    (href : ∀ p < mm.pages, mm.ref (mm.frame p) = 0) : Inv mm (start mm) b :=
  ⟨hok, rfl, by simp [Loans.start], List.nodup_nil, by simpa [Loans.start] using hcov,
    by simpa [Loans.start] using href, BitVec.add_zero _⟩

/-- Along every careful run from a booted allocator what is out can be given back, and once nothing is out all
pages are there again. -/
theorem careful_run_restored {mm : Mm} (h : mm.BootMem) :
    ∃ mm₀, mm.initFreeArea = some mm₀ ∧ ∀ calls s, Along call Careful (start mm₀) calls →
      run call (start mm₀) calls = some s →
      (∀ x ∈ s.out, s.call (.free x.1 x.2) ≠ none) ∧
        (s.out = [] → ∃ free₀ free, Restored mm₀ s.mm free₀ free) := by
  obtain ⟨mm₀, b₀, he, hok, hcov, href, -⟩ := h.initFreeArea
  have h₀ := Inv.start hok hcov href
  refine ⟨mm₀, he, fun calls s hcare hrun => ?_⟩
  have hstep : ∀ s c s', (∃ b, Inv mm₀ s b) → Careful s c → s.call c = some s' → ∃ b, Inv mm₀ s' b := by
    rintro s c s' ⟨b, hb⟩ hc hs
    exact hb.call hc hs
  obtain ⟨b, hb⟩ := run_invariant hstep ⟨b₀, h₀⟩ hcare hrun
  refine ⟨fun x hx => ?_, fun hout => ⟨_, _, h₀.restored hb hout⟩⟩
  have hx' : x = (x.1, 0) := Prod.ext rfl (hb.single x hx).1
  rw [hx'] at hx ⊢
  obtain ⟨mm', b', hcall, -⟩ := hb.free_call hx
  rw [hcall]
  exact Option.some_ne_none _

theorem careful_run_restored_page : ∃ mm₀ s m, Clients.smallMem.initFreeArea = some mm₀ ∧
    run call (start mm₀) [.alloc 0, .free m 0] = some s ∧ s.out = [] ∧
      ∃ free₀ free, Restored mm₀ s.mm free₀ free := by
  obtain ⟨mm₀, hboot, hall⟩ := careful_run_restored Clients.smallMem_bootMem
  obtain ⟨mm, b, he, hok, hcov, href, hbig, -⟩ := Clients.smallMem_bootMem.initFreeArea
  cases he.symm.trans hboot
  obtain ⟨o, n, hn, -⟩ := (hcov 0).mpr (hbig 0 (by decide))
  have ho := hok.wf.order o n hn
  have hne := List.ne_nil_of_mem hn
  have hcare : Careful (start mm₀) (.alloc 0) := ⟨rfl, o, ho, (free_ne_nil_iff hok ho).mp hne⟩
  obtain ⟨-, m, mm', hcall, -⟩ := alloc_call (s := start mm₀) hok (Nat.zero_le maxOrder)
    (fun hnil => hne (hnil o (Nat.zero_le o)))
  obtain ⟨b', hinv⟩ := (Inv.start hok hcov href).alloc hcare hcall
  obtain ⟨mm'', -, hfree, -⟩ := hinv.free_call (List.mem_cons_self ..)
  have hrun := run_step hcall (run_step hfree (run_nil _))
  have hout : [(m, 0)].erase (m, 0) = [] := by simp
  refine ⟨mm₀, _, m, hboot, hrun, hout, (hall _ _ ?_ hrun).2 hout⟩
  exact along_cons hcare hcall (along_cons trivial hfree trivial)

/-- A pair of pages is allocated and given back: its second page keeps a reference. -/
theorem pair_not_restored : ∃ mm₀ s m, Clients.smallMem.initFreeArea = some mm₀ ∧
    run call (start mm₀) [.alloc 1, .free m 1] = some s ∧ s.out = [] ∧
      s.mm.ref (mm₀.frame (m + 1)) = 1 ∧ ¬∃ free₀ free, Restored mm₀ s.mm free₀ free := by
  obtain ⟨mm₀, b, hboot, hok, hcov, href, hbig, -⟩ := Clients.smallMem_bootMem.initFreeArea
  obtain ⟨b', m, mm', hcall, hok', hfixed, hd, hle, -, hcov', href', -⟩ :=
    alloc_call (s := start mm₀) hok (show 1 ≤ maxOrder by decide)
      (Clients.exists_pair hok hcov (hbig 0 (by decide)))
  have hle' : m + 2 ^ 1 ≤ mm₀.pages := hle
  have hone : ∀ j, m ≤ j → j < m + 2 ^ 1 → mm'.ref (mm₀.frame j) = 1 := by
    intro j h1 h2
    have hj : mm'.ref (mm₀.frame j) = mm₀.ref (mm₀.frame j) +
      (if m ≤ j ∧ j < m + 2 ^ 1 then 1 else 0) := href' j
    rw [hj, href j (by omega), if_pos ⟨h1, h2⟩]
    rfl
  have hclear : b'.Clear 1 m :=
    Buddy.clear_of_not_covers fun p hp1 hp2 hp => ((hcov' p).mp hp).2 ⟨hp1, hp2⟩
  have hframe : mm'.frame = mm₀.frame := Mm.frame_of_fixed hfixed
  obtain ⟨mm'', -, hfree, -, -, href'', -⟩ := hok'.freePages (show 1 ≤ maxOrder by decide) hd
    (by rw [Mm.pages_of_fixed hfixed]; exact hle) hclear (by
      rw [hframe, hone m le_rfl (by omega)]
      decide)
  have hcall' : call ⟨mm', [(m, 1)]⟩ (.free m 1) = some ⟨mm'', []⟩ := by simp [call, hfree]
  have hlast : mm''.ref (mm₀.frame (m + 1)) = 1 := by
    have hne : mm₀.frame (m + 1) ≠ mm₀.frame m := by unfold Mm.frame; omega
    rw [href'', hframe, update_of_ne hne, hone (m + 1) (by omega) (by omega)]
  refine ⟨mm₀, _, m, hboot, run_step hcall (run_step hcall' (run_nil _)), rfl, hlast, ?_⟩
  rintro ⟨free₀, free, hr⟩
  have hzero := hr.refs (m + 1) (by omega)
  rw [hlast] at hzero
  exact absurd hzero (by decide)

end Loans

end BabyOS
