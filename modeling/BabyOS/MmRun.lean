import BabyOS.MmBoot
import BabyOS.Runs

open Function

namespace BabyOS

/-- The calls of the clients of the allocator; they name a page by its number from the base. -/
inductive PageCall
  | alloc (order : Nat)
  | inc (page : Nat)
  | free (page order : Nat)

/-- The allocator and the number of references that its clients hold to each page. -/
structure Clients where
  mm : Mm
  held : Nat → Nat

namespace Clients

/-- One call. A page is counted up only while held, and what is given back is an aligned run of held pages; a
panic has no next state. -/
def call (s : Clients) : PageCall → Option Clients
  | .alloc order =>
    if order ≤ maxOrder then
      match s.mm.allocPages order with
      | (mm, none) => some { s with mm := mm }
      | (mm, some addr) =>
        let n := (mapNr (addr - mm.base)).toNat
        some ⟨mm, fun p => s.held p + if n ≤ p ∧ p < n + 2 ^ order then 1 else 0⟩
    else none
  | .inc n =>
    if 0 < s.held n then
      some ⟨s.mm.incPageRef (va2pa (s.mm.pageAddr n)), update s.held n (s.held n + 1)⟩
    else none
  | .free n order =>
    if 2 ^ order ∣ n ∧ ∀ p < 2 ^ order, 0 < s.held (n + p) then
      (s.mm.freePages (s.mm.pageAddr n) order).map fun mm =>
        ⟨mm, fun p => s.held p - if n ≤ p ∧ p < n + 2 ^ order then 1 else 0⟩
    else none

/-- What the allocator owes its clients, for the blocks `free` that stand in its lists. -/
structure Safe (s : Clients) (free : Nat → List Word) : Prop where
  lists : ∀ o ≤ maxOrder, Ring s.mm.links (.head o) ((free o).map .block)
  inside : ∀ o ≤ maxOrder, ∀ a ∈ free o, s.mm.base.toNat ≤ a.toNat ∧
    a.toNat + 4096 * 2 ^ o ≤ s.mm.memEnd.toNat ∧ 4096 * 2 ^ o ∣ a.toNat - s.mm.base.toNat
  disjoint : ∀ o ≤ maxOrder, ∀ a ∈ free o, ∀ o' ≤ maxOrder, ∀ a' ∈ free o', ¬(o = o' ∧ a = a') →
    a.toNat + 4096 * 2 ^ o ≤ a'.toNat ∨ a'.toNat + 4096 * 2 ^ o' ≤ a.toNat
  unheld : ∀ o ≤ maxOrder, ∀ a ∈ free o, ∀ p < s.mm.pages, a.toNat ≤ (s.mm.pageAddr p).toNat →
    (s.mm.pageAddr p).toNat < a.toNat + 4096 * 2 ^ o → s.held p = 0
  fresh : ∀ order ≤ maxOrder, ∀ mm addr, s.mm.allocPages order = (mm, some addr) →
    ∀ p < s.mm.pages, addr.toNat ≤ (s.mm.pageAddr p).toNat →
      (s.mm.pageAddr p).toNat < addr.toNat + 4096 * 2 ^ order → s.held p = 0
  parity : ∀ o < maxOrder, ∀ k < s.mm.pages / 2 ^ (o + 1), s.mm.oldBit o (BitVec.ofNat 32 k) =
    (decide (s.mm.pageAddr (k * 2 ^ (o + 1)) ∈ free o) ^^
      decide (s.mm.pageAddr (k * 2 ^ (o + 1) + 2 ^ o) ∈ free o))
  apart : ∀ o < maxOrder, ∀ k < s.mm.pages / 2 ^ (o + 1),
    ¬(s.mm.pageAddr (k * 2 ^ (o + 1)) ∈ free o ∧ s.mm.pageAddr (k * 2 ^ (o + 1) + 2 ^ o) ∈ free o)

/-- Counters stay below the largest `int`, and where a run is given back for good every page of it is held just
once. -/
def Careful (s : Clients) : PageCall → Prop
  | .alloc _ => ∀ p < s.mm.pages, (s.mm.ref (s.mm.frame p)).toNat < 2 ^ 31 - 1
  | .inc n => (s.mm.ref (s.mm.frame n)).toNat < 2 ^ 31 - 1
  | .free n order => order ≤ maxOrder ∧
      (s.mm.ref (s.mm.frame n) = 1 → ∀ p < 2 ^ order, s.held (n + p) = 1)

/-- The invariant behind `Safe`: free pages are not held, and a counter is never less than the
references held. -/
structure Inv (s : Clients) (b : Buddy) : Prop where
  ok : s.mm.Ok b
  covers : ∀ p, b.Covers p → s.held p = 0
  inside : ∀ p, 0 < s.held p → p < s.mm.pages
  counted : ∀ p < s.mm.pages, s.held p ≤ (s.mm.ref (s.mm.frame p)).toNat ∧
    (s.mm.ref (s.mm.frame p)).toNat < 2 ^ 31

section

variable {s s' : Clients} {b : Buddy}

variable {order n o : Nat}

section

variable (h : Inv s b)
include h

theorem Inv.alloc (hc : Careful s (.alloc order)) (hs : s.call (.alloc order) = some s') : ∃ b', Inv s' b' := by
  simp only [call] at hs
  split at hs
  next ho =>
    rcases h.ok.allocPages ho with ⟨mm', he, hok, hfixed, href, _⟩ |
      ⟨b', m, mm', he, hok, hfixed, hdvd, hle, hall, hcov, href⟩
    · rw [he] at hs
      cases Option.some.inj hs
      refine ⟨b, hok, h.covers, ?_, ?_⟩
      · rw [Mm.pages_of_fixed hfixed]
        exact h.inside
      · rw [Mm.pages_of_fixed hfixed, Mm.frame_of_fixed hfixed, href]
        exact h.counted
    · have hpos := Nat.two_pow_pos order
      have hbase : mm'.base = s.mm.base := congrArg Prod.fst hfixed
      have hnr : (mapNr (s.mm.pageAddr m - mm'.base)).toNat = m := by
        rw [hbase, Mm.mapNr_pageAddr (by omega)]
      rw [he] at hs
      simp only [hnr] at hs
      cases Option.some.inj hs
      refine ⟨b', hok, ?_, ?_, ?_⟩
      · intro p hp
        obtain ⟨hp1, hp2⟩ := (hcov p).mp hp
        simp only [if_neg hp2, h.covers p hp1]
      · intro p hp
        rw [Mm.pages_of_fixed hfixed]
        by_cases hin : m ≤ p ∧ p < m + 2 ^ order
        · omega
        · simp only [if_neg hin] at hp
          exact h.inside p hp
      · intro p hp
        rw [Mm.pages_of_fixed hfixed] at hp
        rw [Mm.frame_of_fixed hfixed, href]
        obtain ⟨h1, h2⟩ := h.counted p hp
        have h3 := hc p hp
        by_cases hin : m ≤ p ∧ p < m + 2 ^ order
        · simp only [if_pos hin]
          have : (s.mm.ref (s.mm.frame p) + 1).toNat = (s.mm.ref (s.mm.frame p)).toNat + 1 := by
            bv_omega
          omega
        · simp only [if_neg hin]
          simpa using ⟨h1, h2⟩
  next => simp at hs

theorem Inv.inc (hc : Careful s (.inc n)) (hs : s.call (.inc n) = some s') : ∃ b', Inv s' b' := by
  simp only [call] at hs
  split at hs
  next hn =>
    have hlt := h.inside n hn
    cases Option.some.inj hs
    refine ⟨b, h.ok.of_eq rfl rfl rfl, ?_, ?_, ?_⟩
    · intro p hp
      have hpn : p ≠ n := by
        rintro rfl
        exact hn.ne' (h.covers p hp)
      simpa [update_of_ne hpn] using h.covers p hp
    · intro p hp
      by_cases hpn : p = n
      · exact hpn ▸ hlt
      · exact h.inside p (by simpa [update_of_ne hpn] using hp)
    · intro p hp
      obtain ⟨h1, h2⟩ := h.counted p hp
      have href := Mm.incPageRef_ref h.ok.layout hlt.le
      show update s.held n (s.held n + 1) p ≤
        ((s.mm.incPageRef (va2pa (s.mm.pageAddr n))).ref (s.mm.frame p)).toNat ∧
        ((s.mm.incPageRef (va2pa (s.mm.pageAddr n))).ref (s.mm.frame p)).toNat < 2 ^ 31
      rw [href]
      by_cases hpn : p = n
      · subst p
        simp only [update_self]
        have h3 : (s.mm.ref (s.mm.frame n)).toNat < 2 ^ 31 - 1 := hc
        have h4 : (s.mm.ref (s.mm.frame n) + 1).toNat = (s.mm.ref (s.mm.frame n)).toNat + 1 := by
          bv_omega
        omega
      · have hne : s.mm.frame p ≠ s.mm.frame n := by unfold Mm.frame; omega
        rw [update_of_ne hpn, update_of_ne hne]
        exact ⟨h1, h2⟩
  next => simp at hs

theorem Inv.run_held (hh : ∀ p < 2 ^ order, 0 < s.held (n + p)) :
    n + 2 ^ order ≤ s.mm.pages ∧ b.Clear order n ∧ 0 < (s.mm.ref (s.mm.frame n)).toInt := by
  have hpos := Nat.two_pow_pos order
  have hlast := h.inside _ (hh (2 ^ order - 1) (by omega))
  refine ⟨by omega, Buddy.clear_of_not_covers ?_, ?_⟩
  · intro p hp1 hp2 hcov
    have := hh (p - n) (by omega)
    rw [show n + (p - n) = p by omega, h.covers p hcov] at this
    omega
  · obtain ⟨h1, h2⟩ := h.counted n (by omega)
    have h3 := hh 0 hpos
    rw [Nat.add_zero] at h3
    rw [BitVec.toInt_eq_toNat_of_lt (by omega)]
    omega

theorem Inv.free_call (ho : order ≤ maxOrder) (hd : 2 ^ order ∣ n)
    (hh : ∀ p < 2 ^ order, 0 < s.held (n + p)) : ∃ mm' b', s.call (.free n order) =
        some ⟨mm', fun p => s.held p - if n ≤ p ∧ p < n + 2 ^ order then 1 else 0⟩ ∧
      mm'.Ok b' ∧ mm'.fixed = s.mm.fixed ∧
      mm'.ref = update s.mm.ref (s.mm.frame n) (s.mm.ref (s.mm.frame n) - 1) ∧ ∀ p, b'.Covers p ↔ b.Covers p ∨
        (s.mm.ref (s.mm.frame n) = 1 ∧ n ≤ p ∧ p < n + 2 ^ order) := by
  obtain ⟨hle, hclear, hpos⟩ := h.run_held hh
  obtain ⟨mm', b', he, hok⟩ := h.ok.freePages ho hd hle hclear hpos
  refine ⟨mm', b', ?_, hok⟩
  simp only [call, if_pos (And.intro hd hh), he, Option.map_some]

theorem Inv.free (hc : Careful s (.free n order)) (hs : s.call (.free n order) = some s') : ∃ b', Inv s' b' := by
  obtain ⟨ho, hlast⟩ := hc
  by_cases hg : 2 ^ order ∣ n ∧ ∀ p < 2 ^ order, 0 < s.held (n + p)
  · obtain ⟨hdvd, hh⟩ := hg
    obtain ⟨mm', b', he, hok, hfixed, href, hcov⟩ := h.free_call ho hdvd hh
    cases Option.some.inj (he.symm.trans hs)
    have hpow := Nat.two_pow_pos order
    refine ⟨b', hok, ?_, ?_, ?_⟩
    · intro p hp
      rcases (hcov p).mp hp with hp | ⟨hone, hp1, hp2⟩
      · simp [h.covers p hp]
      · have := hlast hone (p - n) (by omega)
        rw [show n + (p - n) = p by omega] at this
        simp only [if_pos (And.intro hp1 hp2)]
        omega
    · intro p hp
      rw [Mm.pages_of_fixed hfixed]
      have hp' : 0 < s.held p - if n ≤ p ∧ p < n + 2 ^ order then 1 else 0 := hp
      exact h.inside p (by omega)
    · intro p hp
      rw [Mm.pages_of_fixed hfixed] at hp
      rw [Mm.frame_of_fixed hfixed, href]
      obtain ⟨h1, h2⟩ := h.counted p hp
      by_cases hpn : p = n
      · subst p
        simp only [update_self, if_pos (show n ≤ n ∧ n < n + 2 ^ order by omega)]
        have h3 := hh 0 hpow
        rw [Nat.add_zero] at h3
        have h4 : (s.mm.ref (s.mm.frame n) - 1).toNat = (s.mm.ref (s.mm.frame n)).toNat - 1 := by
          bv_omega
        omega
      · have hne : s.mm.frame p ≠ s.mm.frame n := by unfold Mm.frame; omega
        rw [update_of_ne hne]
        exact ⟨(Nat.sub_le _ _).trans h1, h2⟩
  · simp only [call, if_neg hg] at hs
    simp at hs

theorem Inv.call {c : PageCall} (hc : Careful s c) (hs : s.call c = some s') : ∃ b', Inv s' b' := by
  cases c with
  | alloc order => exact h.alloc hc hs
  | inc n => exact h.inc hc hs
  | free n order => exact h.free hc hs

end

theorem mem_map_pageAddr {mm : Mm} {b : Buddy} (hw : b.Wf maxOrder mm.pages)
    (hn : n ≤ mm.pages) : mm.pageAddr n ∈ (b.free o).map mm.pageAddr ↔ n ∈ b.free o := by
  refine ⟨fun h => ?_, fun h => List.mem_map_of_mem h⟩
  obtain ⟨m, hm, he⟩ := List.mem_map.mp h
  have := hw.bound o m hm
  have := Nat.two_pow_pos o
  exact Mm.pageAddr_inj (show m ≤ mm.pages by omega) hn he ▸ hm

theorem pair_le {size k : Nat} (hk : k < size / 2 ^ (o + 1)) :
    k * 2 ^ (o + 1) ≤ size ∧ k * 2 ^ (o + 1) + 2 ^ o ≤ size := by
  have h := (Nat.le_div_iff_mul_le (Nat.two_pow_pos (o + 1))).mp hk
  rw [Nat.succ_mul] at h
  have := pow_succ 2 o
  omega

theorem Inv.safe (h : Inv s b) : Safe s fun o => (b.free o).map s.mm.pageAddr := by
  have hw := h.ok.wf
  have hb : ∀ {o n}, n ∈ b.free o → n + 2 ^ o ≤ s.mm.pages ∧ 0 < 2 ^ o :=
    fun hn => ⟨hw.bound _ _ hn, Nat.two_pow_pos _⟩
  have haddr : ∀ {o n}, n ∈ b.free o → (s.mm.pageAddr n).toNat = s.mm.base.toNat + 4096 * n :=
    fun hn => Mm.toNat_pageAddr (by have := hb hn; omega)
  refine ⟨?_, ?_, ?_, ?_, ?_, ?_, ?_⟩
  · intro o ho
    rw [List.map_map]
    exact h.ok.rep.rings o ho
  · intro o _ a ha
    obtain ⟨n, hn, rfl⟩ := List.mem_map.mp ha
    obtain ⟨c, hc⟩ := hw.aligned o n hn
    have hend := h.ok.layout.end_of_pages (show n < s.mm.pages by have := hb hn; omega)
    have := hb hn
    rw [haddr hn]
    refine ⟨by omega, by omega, ?_⟩
    rw [Nat.add_sub_cancel_left, hc]
    exact ⟨c, by ring⟩
  · intro o _ a ha o' _ a' ha' hne
    obtain ⟨n, hn, rfl⟩ := List.mem_map.mp ha
    obtain ⟨n', hn', rfl⟩ := List.mem_map.mp ha'
    rw [haddr hn, haddr hn']
    have := hw.disjoint o n o' n' hn hn' (fun he => hne ⟨he.1, by rw [he.2]⟩)
    omega
  · intro o ho a ha p hp h1 h2
    obtain ⟨n, hn, rfl⟩ := List.mem_map.mp ha
    rw [haddr hn, Mm.toNat_pageAddr hp.le] at h1 h2
    exact h.covers p ⟨o, n, hn, by omega, by omega⟩
  · intro order ho mm addr he p hp h1 h2
    rcases h.ok.allocPages ho with ⟨mm', hnone, _⟩ | ⟨b', m, mm', hsome, _, _, _, hle, hall, _⟩
    · rw [hnone] at he
      simp at he
    · rw [hsome] at he
      simp only [Prod.mk.injEq, Option.some.injEq] at he
      have := Nat.two_pow_pos order
      rw [← he.2, Mm.toNat_pageAddr hp.le, Mm.toNat_pageAddr (show m ≤ s.mm.pages by omega)] at h1 h2
      exact h.covers p (hall p (by omega) (by omega))
  · intro o ho k hk
    obtain ⟨h1, h2⟩ := pair_le hk
    have hlt : k < 2 ^ 32 := by
      have := Nat.div_le_self s.mm.pages (2 ^ (o + 1))
      have := Mm.base_add_pages s.mm le_rfl
      omega
    have hbit := h.ok.rep.bits o (by omega) k hk
    simp only [mem_map_pageAddr hw h1, mem_map_pageAddr hw h2, ← hw.parity o ho k, ← hbit]
    rw [Mm.oldBit, Mm.bitAddr, BitVec.toNat_ofNat, Nat.mod_eq_of_lt hlt]
  · intro o ho k hk hboth
    obtain ⟨h1, h2⟩ := pair_le hk
    rw [mem_map_pageAddr hw h1, mem_map_pageAddr hw h2] at hboth
    exact hw.apart o ho k hboth

end

def start (mm : Mm) : Clients := ⟨mm, fun _ => 0⟩

variable {mm : Mm} {b : Buddy}

theorem Inv.start (hok : mm.Ok b) (href : ∀ p < mm.pages, mm.ref (mm.frame p) = 0) : Inv (start mm) b :=
  ⟨hok, fun _ _ => rfl, fun _ hp => absurd hp (lt_irrefl 0), fun p hp => by
    simp [Clients.start, href p hp]⟩

/-- From a booted allocator every run of careful calls ends in a safe state. -/
theorem careful_run_safe {mm : Mm} (h : mm.BootMem) :
    ∃ mm', mm.initFreeArea = some mm' ∧ ∀ calls s, Along call Careful (start mm') calls →
      run call (start mm') calls = some s → ∃ free, Safe s free := by
  obtain ⟨mm', b, he, hok, _, href, _⟩ := h.initFreeArea
  refine ⟨mm', he, fun calls s hcare hrun => ?_⟩
  have hstep : ∀ s c s', (∃ b, Inv s b) → Careful s c → s.call c = some s' → ∃ b, Inv s' b := by
    rintro s c s' ⟨b, hb⟩ hc hs
    exact hb.call hc hs
  obtain ⟨b', hb'⟩ := run_invariant hstep ⟨b, Inv.start hok href⟩ hcare hrun
  exact ⟨_, hb'.safe⟩

def smallMem : Mm :=
  { links := ⟨id, id⟩, bits := fun _ => true, map := fun _ => 0, base := 0, memStart := 0xc0200000,
    memEnd := 0xc0800000, ref := fun _ => 0, freePageNum := 0 }

theorem smallMem_bootMem : smallMem.BootMem := ⟨by decide, by decide⟩

theorem not_safe_of_covers {s : Clients} (hok : s.mm.Ok b) {p : Nat}
    (hcov : b.Covers p) (hheld : s.held p ≠ 0) : ¬∃ free, Safe s free := by
  rintro ⟨free, hsafe⟩
  obtain ⟨o, n, hn, h1, h2⟩ := hcov
  have ho := hok.wf.order o n hn
  have hb := hok.wf.bound o n hn
  have hring := (hsafe.lists o ho).unique (hok.rep.rings o ho)
  have hmem : FreeNode.block (s.mm.pageAddr n) ∈ (free o).map FreeNode.block := by
    rw [hring]
    exact List.mem_map_of_mem hn
  have hmem' : s.mm.pageAddr n ∈ free o := by simpa using hmem
  refine hheld (hsafe.unheld o ho _ hmem' p (by omega) ?_ ?_)
  all_goals
    rw [Mm.toNat_pageAddr (by omega), Mm.toNat_pageAddr (by omega)]
    omega

theorem exists_pair (hok : mm.Ok b) (hcov : ∀ p, b.Covers p ↔ p < mm.pages)
    (hpages : 0 < mm.pages) : ¬∀ o, 1 ≤ o → b.free o = [] := by
  intro hnil
  have hdvd := hok.layout.pages_dvd
  have hsingle : ∀ p < mm.pages, p ∈ b.free 0 := by
    intro p hp
    obtain ⟨o, n, hn, h1, h2⟩ := (hcov p).mpr hp
    cases o with
    | zero =>
      obtain rfl : n = p := by omega
      exact hn
    | succ o => simp [hnil (o + 1) (by omega)] at hn
  refine hok.wf.apart 0 (by decide) 0 ⟨?_, ?_⟩
  · simpa using hsingle 0 hpages
  · simpa using hsingle 1 (by omega)

theorem boot_pair (hok : mm.Ok b) (hcov : ∀ p, b.Covers p ↔ p < mm.pages)
    (hpages : 0 < mm.pages) (href : ∀ p < mm.pages, mm.ref (mm.frame p) = 0) :
    ∃ m s b', call (start mm) (.alloc 1) = some s ∧ Inv s b' ∧ 2 ∣ m ∧
      (∀ p, s.held p = if m ≤ p ∧ p < m + 2 then 1 else 0) ∧
      s.mm.ref (s.mm.frame m) = 1 ∧ s.mm.ref (s.mm.frame (m + 1)) = 1 := by
  have hcare : Careful (start mm) (.alloc 1) := by
    intro p hp
    have h0 : (start mm).mm.ref ((start mm).mm.frame p) = 0 := href p hp
    rw [h0]
    decide
  rcases hok.allocPages (show 1 ≤ maxOrder by decide) with ⟨_, _, _, _, _, hnil⟩ |
    ⟨b', m, mm', he, _, hfixed, hdvd, hle, _, _, href'⟩
  · exact absurd hnil (exists_pair hok hcov hpages)
  · have hbase : mm'.base = mm.base := congrArg Prod.fst hfixed
    have hnr : (mapNr (mm.pageAddr m - mm'.base)).toNat = m := by
      rw [hbase, Mm.mapNr_pageAddr (by omega)]
    have hcall : call (start mm) (.alloc 1) =
        some ⟨mm', fun p => if m ≤ p ∧ p < m + 2 then 1 else 0⟩ := by
      simp [call, start, he, hnr, maxOrder]
    obtain ⟨b'', hinv⟩ := (Inv.start hok href).alloc hcare hcall
    refine ⟨m, _, b'', hcall, hinv, hdvd, fun p => rfl, ?_, ?_⟩
    · show mm'.ref (mm'.frame m) = 1
      rw [Mm.frame_of_fixed hfixed, href', href m (by omega)]
      simp
    · show mm'.ref (mm'.frame (m + 1)) = 1
      rw [Mm.frame_of_fixed hfixed, href', href (m + 1) (by omega)]
      simp

theorem smallMem_careful_run : ∃ mm s m, smallMem.initFreeArea = some mm ∧
    run call (start mm) [.alloc 1, .free m 1] = some s ∧ ∃ free, Safe s free := by
  obtain ⟨mm, hboot, hsafe⟩ := careful_run_safe smallMem_bootMem
  obtain ⟨mm', b, he, hok, hcov, href, hbig, -⟩ := smallMem_bootMem.initFreeArea
  obtain rfl : mm' = mm := Option.some.inj (he.symm.trans hboot)
  obtain ⟨m, s, b', hcall, hinv, hdvd, hheld, hm, -⟩ := boot_pair hok hcov (hbig 0 (by decide)) href
  obtain ⟨mm'', b'', hfree, -⟩ := hinv.free_call (show 1 ≤ maxOrder by decide) hdvd (fun p hp => by
    rw [hheld, if_pos (by omega)]
    decide)
  have hrun := run_step hcall (run_step hfree (run_nil _))
  refine ⟨mm', _, m, hboot, hrun, hsafe _ _ ?_ hrun⟩
  refine ⟨fun p hp => ?_, fun s' hs' => ⟨⟨by decide, fun _ p hp => ?_⟩, fun _ _ => trivial⟩⟩
  · have h0 : (start mm').mm.ref ((start mm').mm.frame p) = 0 := href p hp
    rw [h0]
    decide
  · cases Option.some.inj (hcall.symm.trans hs')
    rw [hheld, if_pos (by omega)]

/-- A pair of pages is allocated, its second page gets one more reference, and the pair is given back: the held
page stands in a free block. -/
theorem pair_freed_while_held : ∃ mm s m, smallMem.initFreeArea = some mm ∧
    run call (start mm) [.alloc 1, .inc (m + 1), .free m 1] = some s ∧
    s.held (m + 1) = 1 ∧ ¬∃ free, Safe s free := by
  obtain ⟨mm, b, he, hok, hcov, href, hbig, -⟩ := smallMem_bootMem.initFreeArea
  obtain ⟨m, s, b1, hcall, hinv, hdvd, hheld, hm, hm1⟩ := boot_pair hok hcov (hbig 0 (by decide)) href
  have hpos : 0 < s.held (m + 1) := by rw [hheld, if_pos (by omega)]; decide
  have hinc : s.call (.inc (m + 1)) = some ⟨s.mm.incPageRef (va2pa (s.mm.pageAddr (m + 1))),
      update s.held (m + 1) (s.held (m + 1) + 1)⟩ := by
    simp only [call, if_pos hpos]
  have hinside := hinv.inside (m + 1) hpos
  obtain ⟨b2, hinv2⟩ := hinv.inc (n := m + 1) (by rw [Careful, hm1]; decide) hinc
  have hone : (s.mm.incPageRef (va2pa (s.mm.pageAddr (m + 1)))).ref (s.mm.frame m) = 1 := by
    rw [Mm.incPageRef_ref hinv.ok.layout hinside.le,
      update_of_ne (by unfold Mm.frame; omega), hm]
  obtain ⟨mm', b3, hfree, hok3, -, -, hcov3⟩ := hinv2.free_call (show 1 ≤ maxOrder by decide) hdvd
    (fun p hp => by
      obtain rfl | rfl : p = 0 ∨ p = 1 := by omega
      · simp [update_of_ne, hheld]
      · simp)
  have hrun := run_step hcall (run_step hinc (run_step hfree (run_nil _)))
  have hlast : b3.Covers (m + 1) := (hcov3 (m + 1)).mpr (Or.inr ⟨hone, by omega, by omega⟩)
  refine ⟨mm, _, m, he, hrun, ?_, not_safe_of_covers hok3 hlast ?_⟩ <;> simp [hheld]

end Clients

end BabyOS
