import BabyOS.MmReclaim
import Mathlib.Data.Set.Card
import Mathlib.Order.Interval.Finset.Nat

open Function BitVec List

namespace BabyOS

namespace Mm

def Lists (mm : Mm) (free : Nat → List Word) : Prop :=
  ∀ o ≤ maxOrder, Ring mm.links (.head o) ((free o).map .block)

def FreePage (mm : Mm) (free : Nat → List Word) (p : Nat) : Prop :=
  p < mm.pages ∧ ∃ o ≤ maxOrder, ∃ a ∈ free o, a.toNat ≤ (mm.pageAddr p).toNat ∧
    (mm.pageAddr p).toNat < a.toNat + 4096 * 2 ^ o

def headsRead (mm : Mm) : Nat → Nat → List Nat
  | 0, _ => []
  | fuel + 1, o => o :: match mm.links.next (.head o) with
    | .block _ => []
    | .head _ => headsRead mm fuel (o + 1)

/-- `alloc_pages` reads the heads that there are, counts the pages it returns, and does nothing where it fails. -/
structure Frugal (mm : Mm) (order : Nat) : Prop where
  heads : ∀ o ∈ mm.headsRead (maxOrder - order + 1) order, o ≤ maxOrder
  refs : ∀ k, (mm.allocPages order).1.ref k ≠ mm.ref k → ∃ addr, (mm.allocPages order).2 = some addr ∧
    ∃ i < 2 ^ order, k = (va2pa (addr + BitVec.ofNat 32 (4096 * i)) >>> pageShift).toNat
  failed : (mm.allocPages order).2 = none → (mm.allocPages order).1 = mm

def HasBlock (mm : Mm) (order : Nat) : Prop :=
  order ≤ maxOrder ∧ ∃ o, order ≤ o ∧ o ≤ maxOrder ∧ mm.links.next (.head o) ≠ .head o

section

variable {mm mm' : Mm} {b : Buddy} {order : Nat}

theorem Ok.lists (h : Ok mm b) : Lists mm fun o => (b.free o).map mm.pageAddr := by
  intro o ho
  rw [map_map]
  exact h.rep.rings o ho

theorem Ok.freePage_iff (h : Ok mm b) {p : Nat} :
    FreePage mm (fun o => (b.free o).map mm.pageAddr) p ↔ b.Covers p := by
  constructor
  · rintro ⟨hp, o, ho, a, ha, h1, h2⟩
    obtain ⟨n, hn, rfl⟩ := mem_map.mp ha
    have hb := h.wf.bound o n hn
    rw [toNat_pageAddr hp.le, toNat_pageAddr (by omega)] at h1 h2
    exact ⟨o, n, hn, by omega, by omega⟩
  · rintro ⟨o, n, hn, h1, h2⟩
    have hb := h.wf.bound o n hn
    refine ⟨by omega, o, h.wf.order o n hn, _, mem_map_of_mem hn, ?_⟩
    rw [toNat_pageAddr (by omega), toNat_pageAddr (by omega)]
    omega

theorem Ok.alloc_iff (h : Ok mm b) (ho : order ≤ maxOrder) : (mm.allocPages order).2 ≠ none ↔
    ∃ n, 2 ^ order ∣ n ∧ ∀ p, n ≤ p → p < n + 2 ^ order → b.Covers p := by
  rcases h.allocPages ho with ⟨mm', he, -, -, -, hnil⟩ | ⟨b', m, mm', he, -, -, hd, -, hall, -⟩
  · rw [he]
    refine iff_of_false (fun hne => hne rfl) ?_
    rintro ⟨n, hn, hrun⟩
    obtain ⟨o, m, hle, hm, -⟩ := h.wf.exists_block ho hn hrun
    rw [hnil o hle] at hm
    exact not_mem_nil hm
  · rw [he]
    exact iff_of_true (Option.some_ne_none _) ⟨m, hd, hall⟩

theorem headsRead_le {fuel o k : Nat} (hf : o + fuel = maxOrder + 1) (hk : k ∈ mm.headsRead fuel o) :
    k ≤ maxOrder := by
  induction fuel generalizing o with
  | zero => exact absurd hk not_mem_nil
  | succ fuel ih =>
    rw [headsRead] at hk
    rcases mem_cons.mp hk with rfl | hk
    · omega
    split at hk
    · exact absurd hk not_mem_nil
    · exact ih (by omega) hk

theorem incPages_ref {n k : Nat} {p : Word} (h : (mm.incPages n p).ref k ≠ mm.ref k) :
    ∃ i < n, k = (va2pa (p + BitVec.ofNat 32 (4096 * i)) >>> pageShift).toNat := by
  induction n generalizing mm p with
  | zero => exact absurd rfl h
  | succ n ih =>
    by_cases hk : k = (va2pa p >>> pageShift).toNat
    · exact ⟨0, Nat.succ_pos n, by rw [hk, Nat.mul_zero, BitVec.add_zero]⟩
    · rw [incPages, ← show (mm.incPageRef (va2pa p)).ref k = mm.ref k from update_of_ne hk _ _] at h
      obtain ⟨i, hi, hk'⟩ := ih h
      refine ⟨i + 1, by omega, ?_⟩
      rw [hk', Nat.mul_succ, Nat.add_comm, BitVec.ofNat_add, ← BitVec.add_assoc]
      rfl

theorem allocLoop_ref {fuel o k : Nat} (h : (mm.allocLoop order fuel o).1.ref k ≠ mm.ref k) :
    ∃ addr, (mm.allocLoop order fuel o).2 = some addr ∧
      ∃ i < (mathPow 2 order).toNat, k = (va2pa (addr + BitVec.ofNat 32 (4096 * i)) >>> pageShift).toNat := by
  induction fuel generalizing o with
  | zero => exact absurd rfl h
  | succ fuel ih =>
    rw [allocLoop] at h ⊢
    split at h
    · refine ⟨_, rfl, incPages_ref fun he => h (he.trans ?_)⟩
      rw [(fixed_expandLoop _ _ _ _ _).2.1]
      rfl
    · exact ih h

theorem Ok.frugal_iff (h : Ok mm b) : mm.Frugal order ↔ mm.HasBlock order := by
  constructor
  · intro hf
    have ho : order ≤ maxOrder := hf.heads order (mem_cons_self ..)
    refine ⟨ho, exists_block ho fun hnone => ?_⟩
    have hnum := congrArg Mm.freePageNum (hf.failed hnone)
    rw [freePageNum_allocPages] at hnum
    have hzero : mathPow 2 order = 0 := by
      have hadd := congrArg (· + mathPow 2 order) hnum
      simp only [BitVec.sub_add_cancel] at hadd
      exact (BitVec.add_right_inj (mm.freePageNum)).mp (hadd.symm.trans (BitVec.add_zero _).symm)
    have hpow := toNat_mathPow (show order < 32 by unfold maxOrder at ho; omega)
    rw [hzero] at hpow
    exact (Nat.two_pow_pos order).ne hpow
  · rintro ⟨ho, o, hle, hmax, hne⟩
    have hpow := toNat_mathPow (show order < 32 by unfold maxOrder at ho; omega)
    refine ⟨fun k hk => headsRead_le (by omega) hk, fun k hk => ?_, fun hnone => ?_⟩
    · rw [← hpow]
      exact allocLoop_ref hk
    · rcases h.allocPages ho with ⟨mm', -, -, -, -, hnil⟩ | ⟨b', m, mm', he, -⟩
      · exact absurd (h.next_nil hmax (hnil o hle)) hne
      · rw [he] at hnone
        cases hnone

theorem freePageNum_freePages_of_ne {addr : Word} (h : mm.freePages addr order = some mm')
    (hne : mm.getPageRef (va2pa addr) ≠ 1) : mm'.freePageNum = mm.freePageNum := by
  rw [Mm.freePages] at h
  unfold decPageRef at h
  rw [getPageRef] at hne
  by_cases hle : (mm.ref (va2pa addr >>> pageShift).toNat).toInt ≤ 0
  · simp only [hle, if_true] at h
    cases h
  · have hzero : (mm.ref (va2pa addr >>> pageShift).toNat - 1 == 0) = false := by
      rw [beq_eq_false_iff_ne]
      intro he
      exact hne (by bv_omega)
    simp only [hle, if_false, hzero] at h
    cases h
    rfl

end

end Mm

namespace Loans

/-- The blocks that are out are aligned, apart from each other and from the free ones. -/
structure Kept (s : Loans) (b : Buddy) : Prop where
  ok : s.mm.Ok b
  out : ∀ x ∈ s.out, x.2 ≤ maxOrder ∧ 2 ^ x.2 ∣ x.1 ∧ x.1 + 2 ^ x.2 ≤ s.mm.pages ∧ b.Clear x.2 x.1
  apart : s.out.Pairwise fun x y => x.1 + 2 ^ x.2 ≤ y.1 ∨ y.1 + 2 ^ y.2 ≤ x.1

def Counted (s : Loans) (b : Buddy) : Prop := s.mm.freePageNum = BitVec.ofNat 32 {p | b.Covers p}.ncard

def Affordable (s : Loans) : BlockCall → Prop
  | .alloc order => s.mm.HasBlock order
  | .free _ _ => True

section

variable {s s' : Loans} {b b' : Buddy} {n k order : Nat}

theorem covers_finite (h : s.mm.Ok b) : {p | b.Covers p}.Finite := by
  refine (Set.finite_Iio s.mm.pages).subset ?_
  rintro p ⟨o, m, hm, -, hlt⟩
  exact Nat.lt_of_lt_of_le hlt (h.wf.bound o m hm)

theorem ncard_block (n k : Nat) : {p | n ≤ p ∧ p < n + k}.ncard = k := by
  have he : {p | n ≤ p ∧ p < n + k} = ((Finset.Ico n (n + k) : Finset Nat) : Set Nat) := by
    ext p
    simp
  rw [he, Set.ncard_coe_finset, Nat.card_Ico, Nat.add_sub_cancel_left]

theorem ncard_covers (h : s.mm.Ok b) (hcov : ∀ p, b'.Covers p ↔ b.Covers p ∨ (n ≤ p ∧ p < n + k))
    (hout : ∀ p, n ≤ p → p < n + k → ¬b.Covers p) : {p | b'.Covers p}.ncard = {p | b.Covers p}.ncard + k := by
  have he : {p | b'.Covers p} = {p | b.Covers p} ∪ {p | n ≤ p ∧ p < n + k} := Set.ext hcov
  have hfin : {p | n ≤ p ∧ p < n + k}.Finite := (Set.finite_Iio (n + k)).subset fun p hp => hp.2
  have hdis : Disjoint {p | b.Covers p} {p | n ≤ p ∧ p < n + k} :=
    Set.disjoint_left.mpr fun p hp hin => hout p hin.1 hin.2 hp
  rw [he, Set.ncard_union_eq hdis (covers_finite h) hfin, ncard_block]

theorem Kept.alloc (h : Kept s b) (hs : s.call (.alloc order) = some s') :
    ∃ b', Kept s' b' ∧ (Affordable s (.alloc order) → Counted s b → Counted s' b') := by
  by_cases ho : order ≤ maxOrder
  swap
  · rw [call, if_neg ho] at hs
    cases hs
  rcases h.ok.allocPages ho with ⟨mm', he, hok, hfixed, -, hnil⟩ |
    ⟨b', m, mm', he, hok, hfixed, hd, hle, hall, hcov, -⟩
  · rw [call, if_pos ho, he] at hs
    cases hs
    refine ⟨b, ⟨hok, ?_, h.apart⟩, ?_⟩
    · rw [show Mm.pages mm' = _ from Mm.pages_of_fixed hfixed]
      exact h.out
    · rintro ⟨-, o, h1, h2, h3⟩
      exact absurd (h.ok.next_nil h2 (hnil o h1)) h3
  · have hpos := Nat.two_pow_pos order
    have hbase : mm'.base = s.mm.base := congrArg Prod.fst hfixed
    have hnum := s.mm.freePageNum_allocPages order
    rw [he] at hnum
    rw [call, if_pos ho, he] at hs
    simp only [hbase, Mm.mapNr_pageAddr (show m ≤ s.mm.pages by omega)] at hs
    cases hs
    have hnew : ∀ p, m ≤ p → p < m + 2 ^ order → ¬b'.Covers p := fun p h1 h2 hp => ((hcov p).mp hp).2 ⟨h1, h2⟩
    refine ⟨b', ⟨hok, fun x hx => ?_, pairwise_cons.mpr ⟨fun y hy => ?_, h.apart⟩⟩, fun _ hc => ?_⟩
    · rw [show Mm.pages mm' = _ from Mm.pages_of_fixed hfixed]
      rcases mem_cons.mp hx with rfl | hx
      · exact ⟨ho, hd, hle, Buddy.clear_of_not_covers hnew⟩
      · obtain ⟨h1, h2, h3, h4⟩ := h.out x hx
        exact ⟨h1, h2, h3, Buddy.clear_of_not_covers fun p hp1 hp2 hp => h4.not_covers ⟨hp1, hp2⟩ ((hcov p).mp hp).1⟩
    · -- a common page would be free and out
      by_contra hno
      have hclear := (h.out y hy).2.2.2
      have hpos' := Nat.two_pow_pos y.2
      dsimp only at hno
      exact hclear.not_covers (p := max m y.1) (by omega) (hall _ (by omega) (by omega))
    · have hcard := @ncard_covers ⟨mm', []⟩ b' b m (2 ^ order) hok (fun p => by
        rw [hcov]
        by_cases hp : m ≤ p ∧ p < m + 2 ^ order
        · exact iff_of_true (hall p hp.1 hp.2) (Or.inr hp)
        · simp [hp]) hnew
      show mm'.freePageNum = _
      rw [Counted, hcard] at hc
      rw [show mm'.freePageNum = _ from hnum, hc, Mm.mathPow_two, ofNat_add, add_sub_cancel]

theorem Kept.free (h : Kept s b) (hs : s.call (.free n order) = some s') :
    ∃ b', Kept s' b' ∧ (Counted s b → Counted s' b') := by
  by_cases hmem : (n, order) ∈ s.out
  swap
  · rw [call, if_neg hmem] at hs
    cases hs
  rw [call, if_pos hmem] at hs
  obtain ⟨mm', hf, rfl⟩ := Option.map_eq_some_iff.mp hs
  obtain ⟨ho, hd, hle, hclear⟩ := h.out _ hmem
  dsimp only at ho hd hle hclear
  have hn : n ≤ s.mm.pages := by omega
  have hpos : 0 < (s.mm.ref (s.mm.frame n)).toInt := by
    by_contra hle
    rw [Mm.freePages, Mm.decPageRef, h.ok.layout.frame_eq hn, if_pos (by omega)] at hf
    cases hf
  obtain ⟨mm'', b', hf', hok, hfixed, -, hcov⟩ := h.ok.freePages ho hd hle hclear hpos
  cases hf.symm.trans hf'
  have hperm := perm_cons_erase hmem
  have hrest := (hperm.pairwise_iff (fun hx => hx.symm)).mp h.apart
  have hframe := h.ok.layout.frame_eq hn
  refine ⟨b', ⟨hok, fun y hy => ?_, (pairwise_cons.mp hrest).2⟩, fun hc => ?_⟩
  · obtain ⟨h1, h2, h3, h4⟩ := h.out y (mem_of_mem_erase hy)
    have hy' := (pairwise_cons.mp hrest).1 y hy
    dsimp only at hy'
    rw [show Mm.pages mm' = _ from Mm.pages_of_fixed hfixed]
    refine ⟨h1, h2, h3, Buddy.clear_of_not_covers fun p hp1 hp2 hp => ?_⟩
    rcases (hcov p).mp hp with hp | hp
    · exact h4.not_covers ⟨hp1, hp2⟩ hp
    · omega
  · by_cases hone : s.mm.ref (s.mm.frame n) = 1
    · have hnum := Mm.freePageNum_freePages hf (by rw [Mm.getPageRef, hframe, hone])
      have hcard := ncard_covers (n := n) (k := 2 ^ order) h.ok (fun p => by rw [hcov]; simp [hone])
        fun p h1 h2 => hclear.not_covers ⟨h1, h2⟩
      show mm'.freePageNum = _
      rw [hnum, hcard, hc, Mm.mathPow_two, ← ofNat_add]
    · have hnum := Mm.freePageNum_freePages_of_ne hf (by rw [Mm.getPageRef, hframe]; exact hone)
      have hsame : {p | b'.Covers p} = {p | b.Covers p} := Set.ext fun p => by
        show b'.Covers p ↔ b.Covers p
        rw [hcov]
        exact or_iff_left fun hp => hone hp.1
      show mm'.freePageNum = _
      rw [hnum, hsame]
      exact hc

theorem Kept.call {c : BlockCall} (h : Kept s b) (hs : s.call c = some s') :
    ∃ b', Kept s' b' ∧ (Affordable s c → Counted s b → Counted s' b') := by
  cases c with
  | alloc order => exact h.alloc hs
  | free n order =>
    obtain ⟨b', hk, hc⟩ := h.free hs
    exact ⟨b', hk, fun _ => hc⟩

theorem Kept.start {mm : Mm} (hok : mm.Ok b) : Kept (start mm) b :=
  ⟨hok, fun _ hx => absurd hx not_mem_nil, List.Pairwise.nil⟩

theorem Kept.run {calls : List BlockCall} (h : Kept s b) (hrun : run Loans.call s calls = some s') : ∃ b', Kept s' b' := by
  refine run_invariant (I := fun s => ∃ b, Kept s b) ?_ ⟨b, h⟩ (along_true _ _) hrun
  rintro s c s' ⟨b, hb⟩ - hs
  obtain ⟨b', hb', -⟩ := hb.call hs
  exact ⟨b', hb'⟩

end

/-- In every state that calls for blocks lead to, an allocation succeeds just where there is an aligned
run of free pages of its size. -/
theorem alloc_fails_only_when_it_must {mm : Mm} (h : mm.BootMem) :
    ∃ mm₀, mm.initFreeArea = some mm₀ ∧ ∀ calls s, run call (start mm₀) calls = some s →
      ∃ free, s.mm.Lists free ∧ ∀ order ≤ maxOrder, ((s.mm.allocPages order).2 ≠ none ↔
        ∃ n, 2 ^ order ∣ n ∧ ∀ p, n ≤ p → p < n + 2 ^ order → s.mm.FreePage free p) := by
  obtain ⟨mm₀, b₀, he, hok, -⟩ := h.initFreeArea
  refine ⟨mm₀, he, fun calls s hrun => ?_⟩
  obtain ⟨b, hb⟩ := (Kept.start hok).run hrun
  refine ⟨_, hb.ok.lists, fun order ho => ?_⟩
  simp only [hb.ok.freePage_iff]
  exact hb.ok.alloc_iff ho

theorem alloc_runs (mm : Mm) {order : Nat} (ho : order ≤ maxOrder) :
    ∃ s, run call (start mm) [.alloc order] = some s := by
  rw [run, call, if_pos ho]
  rcases he : (start mm).mm.allocPages order with ⟨mm', _ | addr⟩
  · exact ⟨_, rfl⟩
  · exact ⟨_, rfl⟩

theorem alloc_fails_only_when_it_must_eight : ∃ mm₀ s, Clients.smallMem.initFreeArea = some mm₀ ∧
    run call (start mm₀) [.alloc 3] = some s ∧ ∃ free, s.mm.Lists free ∧
      ((s.mm.allocPages 6).2 ≠ none ↔
        ∃ n, 2 ^ 6 ∣ n ∧ ∀ p, n ≤ p → p < n + 2 ^ 6 → s.mm.FreePage free p) := by
  obtain ⟨mm₀, he, hall⟩ := alloc_fails_only_when_it_must Clients.smallMem_bootMem
  obtain ⟨s, hs⟩ := alloc_runs mm₀ (show 3 ≤ maxOrder by decide)
  obtain ⟨free, hl, hiff⟩ := hall _ s hs
  exact ⟨mm₀, s, he, hs, free, hl, hiff 6 (by decide)⟩

/-- In every state that calls for blocks lead to, `alloc_pages` is frugal just where it finds a block; while no
call fails the counter is the number of pages in the free lists. -/
theorem failed_alloc_harmless {mm : Mm} (h : mm.BootMem) :
    ∃ mm₀, mm.initFreeArea = some mm₀ ∧ ∀ calls s, run call (start mm₀) calls = some s →
      (∀ order : Word, s.mm.Frugal order.toNat ↔ s.mm.HasBlock order.toNat) ∧
      (Along call Affordable (start mm₀) calls → ∃ free, s.mm.Lists free ∧
        s.mm.freePageNum.toNat = {p | s.mm.FreePage free p}.ncard) := by
  obtain ⟨mm₀, b₀, he, hok, hcov, -, -, -, hnum⟩ := h.initFreeArea
  refine ⟨mm₀, he, fun calls s hrun => ⟨fun order => ?_, fun hcare => ?_⟩⟩
  · obtain ⟨b, hb⟩ := (Kept.start hok).run hrun
    exact hb.ok.frugal_iff
  have hall : {p | b₀.Covers p}.ncard = mm₀.pages := by
    have hset : {p | b₀.Covers p} = {p | 0 ≤ p ∧ p < 0 + mm₀.pages} := Set.ext fun p => by simp [hcov]
    rw [hset, ncard_block]
  have hstep : ∀ s c s', (∃ b, Kept s b ∧ Counted s b) → Affordable s c → s.call c = some s' →
      ∃ b, Kept s' b ∧ Counted s' b := by
    rintro s c s' ⟨b, hb, hc⟩ ha hs
    obtain ⟨b', hb', hc'⟩ := hb.call hs
    exact ⟨b', hb', hc' ha hc⟩
  obtain ⟨b, hb, hc⟩ := run_invariant hstep ⟨b₀, Kept.start hok, hnum.trans (by rw [hall])⟩ hcare hrun
  refine ⟨_, hb.ok.lists, ?_⟩
  have hset : {p | s.mm.FreePage (fun o => (b.free o).map s.mm.pageAddr) p} = {p | b.Covers p} :=
    Set.ext fun p => hb.ok.freePage_iff
  have hlt : {p | b.Covers p}.ncard < 2 ^ 32 := by
    have hle := Set.ncard_le_ncard (s := {p | b.Covers p}) (t := {p | 0 ≤ p ∧ p < 0 + s.mm.pages}) (by
      rintro p ⟨o, m, hm, -, hp⟩
      have := hb.ok.wf.bound o m hm
      exact ⟨Nat.zero_le p, by omega⟩) ((Set.finite_Iio (0 + s.mm.pages)).subset fun p hp => hp.2)
    rw [ncard_block] at hle
    unfold Mm.pages at hle
    omega
  rw [hset, hc, toNat_ofNat, Nat.mod_eq_of_lt hlt]

theorem failed_alloc_harmless_eight : ∃ mm₀ s, Clients.smallMem.initFreeArea = some mm₀ ∧
    run call (start mm₀) [.alloc 3] = some s ∧ (s.mm.Frugal 2 ↔ s.mm.HasBlock 2) ∧
    ∃ free, s.mm.Lists free ∧ s.mm.freePageNum.toNat = {p | s.mm.FreePage free p}.ncard := by
  obtain ⟨mm₀, he, hall⟩ := failed_alloc_harmless Clients.smallMem_bootMem
  obtain ⟨mm, b, he', hok, hcov, -, hbig, -⟩ := Clients.smallMem_bootMem.initFreeArea
  cases he'.symm.trans he
  obtain ⟨s, hs⟩ := alloc_runs mm₀ (show 3 ≤ maxOrder by decide)
  have hroom : 8 < mm₀.pages := hbig 8 (by decide)
  have hblock : mm₀.HasBlock 3 := by
    refine ⟨by decide, Mm.exists_block (by decide) ((hok.alloc_iff (by decide)).mpr ⟨0, dvd_zero _, ?_⟩)⟩
    intro p _ hp
    exact (hcov p).mpr (by omega)
  obtain ⟨hfrugal, hcount⟩ := hall _ s hs
  exact ⟨mm₀, s, he, hs, hfrugal 2, hcount ⟨hblock, fun _ _ => trivial⟩⟩

/-- An order above the largest one makes `alloc_pages` read behind the list heads. -/
theorem alloc_reads_stray_head : ∃ mm₀, Clients.smallMem.initFreeArea = some mm₀ ∧
    run call (start mm₀) [] = some (start mm₀) ∧ 7 ∈ mm₀.headsRead (maxOrder - 7 + 1) 7 ∧ ¬mm₀.Frugal 7 := by
  obtain ⟨mm₀, b, he, hok, -⟩ := Clients.smallMem_bootMem.initFreeArea
  refine ⟨mm₀, he, rfl, mem_cons_self .., fun hf => ?_⟩
  exact absurd (hok.frugal_iff.mp hf).1 (by decide)

end Loans

end BabyOS
