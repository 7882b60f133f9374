import BabyOS.MmSpec
import BabyOS.RefCount

open Function

namespace BabyOS

namespace Mm

/-- The allocator of single pages: a counter is the number of slots that hold the page, and the free pages are
those no slot holds. -/
structure Holds {σ : Type} (mm : Mm) (own : σ → Option Nat) : Prop where
  finite : FinitelyHeld own
  inside : ∀ s n, own s = some n → n < mm.pages
  counted : ∀ n < mm.pages, (mm.ref (mm.frame n)).toNat = holdCount own n
  lists : ∃ b, mm.Ok b ∧ ∀ n < mm.pages, (b.Covers n ↔ holdCount own n = 0)

def freeCount (mm : Mm) : Nat := ((Finset.range mm.pages).filter fun n => mm.ref (mm.frame n) = 0).card

section

variable {σ : Type} [DecidableEq σ] {mm mm' : Mm} {own : σ → Option Nat} {s t : σ} {n : Nat}

section

omit [DecidableEq σ]

theorem Holds.layout (h : Holds mm own) : Layout mm := by
  obtain ⟨b, hok, _⟩ := h.lists
  exact hok.layout

theorem Ok.holds_none {b : Buddy} (hok : Ok mm b) (hcov : ∀ p, b.Covers p ↔ p < mm.pages)
    (href : ∀ n < mm.pages, mm.ref (mm.frame n) = 0) : Holds mm (fun _ : σ => none) := by
  have hfinite : FinitelyHeld (fun _ : σ => (none : Option Nat)) := by simp [FinitelyHeld]
  have hzero : ∀ n, holdCount (fun _ : σ => (none : Option Nat)) n = 0 :=
    fun n => hfinite.eq_zero_iff.mpr (by simp)
  refine ⟨hfinite, by simp, fun n hn => ?_, b, hok, fun n hn => ?_⟩
  · rw [href n hn, hzero]
    rfl
  · simp [hcov, hn, hzero]

theorem Holds.take {own' : σ → Option Nat} {m size : Nat} {b b' : Buddy} (h : Holds mm own)
    (hfree : ∀ n < mm.pages, (b.Covers n ↔ holdCount own n = 0)) (hok' : Ok mm' b') (hfixed : mm'.fixed = mm.fixed)
    (hcov : ∀ p, b'.Covers p ↔ b.Covers p ∧ ¬(m ≤ p ∧ p < m + size))
    (hall : ∀ p, m ≤ p → p < m + size → b.Covers p)
    (href : ∀ j, mm'.ref (mm.frame j) = mm.ref (mm.frame j) + (if m ≤ j ∧ j < m + size then 1 else 0))
    (hfinite : FinitelyHeld own') (hinside : ∀ s n, own' s = some n → n < mm.pages)
    (hcount : ∀ k, holdCount own' k = holdCount own k + if m ≤ k ∧ k < m + size then 1 else 0) :
    Holds mm' own' := by
  have hpages := pages_of_fixed hfixed
  refine ⟨hfinite, fun s n hs => ?_, fun k hk => ?_, b', hok', fun k hk => ?_⟩
  · rw [hpages]
    exact hinside s n hs
  · rw [hpages] at hk
    rw [frame_of_fixed hfixed, href, hcount]
    have h0 := h.counted k hk
    split_ifs with hin
    · have hz := (hfree k hk).mp (hall k hin.1 hin.2)
      rw [hz] at h0 ⊢
      bv_omega
    · rw [Nat.add_zero, ← h0]
      simp
  · rw [hpages] at hk
    rw [hcov, hfree k hk, hcount]
    by_cases hin : m ≤ k ∧ k < m + size
    · rw [if_pos hin]
      exact iff_of_false (fun hf => hf.2 hin) (Nat.succ_ne_zero _)
    · rw [if_neg hin]
      exact and_iff_left hin

theorem Holds.alloc_some (h : Holds mm own) (hroom : 0 < mm.freeCount) :
    ∃ mm' addr, mm.allocPages 0 = (mm', some addr) ∧ mm'.freeCount + 1 = mm.freeCount := by
  obtain ⟨b, hok, hfree⟩ := h.lists
  have hcov : ∀ n < mm.pages, (b.Covers n ↔ mm.ref (mm.frame n) = 0) := by
    intro n hn
    rw [hfree n hn, ← h.counted n hn]
    exact ⟨fun h0 => BitVec.eq_of_toNat_eq h0, fun h0 => by rw [h0]; rfl⟩
  rcases hok.allocPages (show 0 ≤ maxOrder from Nat.zero_le _) with ⟨mm', -, -, -, -, hnil⟩ |
    ⟨b', m, mm', he, -, hfixed, -, hle, hall, -, href⟩
  · obtain ⟨n, hn⟩ := Finset.card_pos.mp hroom
    obtain ⟨hn, hz⟩ := Finset.mem_filter.mp hn
    obtain ⟨o, k, hk, -⟩ := (hcov n (Finset.mem_range.mp hn)).mpr hz
    simp [hnil o (Nat.zero_le _)] at hk
  · have hm : m < mm.pages := by simpa using hle
    have hzero := (hcov m hm).mp (hall m le_rfl (by simp))
    refine ⟨mm', _, he, ?_⟩
    have herase : (Finset.range mm'.pages).filter (fun n => mm'.ref (mm'.frame n) = 0) =
        ((Finset.range mm.pages).filter fun n => mm.ref (mm.frame n) = 0).erase m := by
      ext n
      simp only [pages_of_fixed hfixed, frame_of_fixed hfixed, href, Finset.mem_filter, Finset.mem_range,
        Finset.mem_erase, pow_zero]
      by_cases hnm : n = m
      · subst n
        simp [hzero]
      · rw [if_neg (show ¬(m ≤ n ∧ n < m + 1) by omega)]
        simp [hnm]
    rw [freeCount, herase, Finset.card_erase_of_mem (by simp [hm, hzero])]
    have := hroom
    unfold freeCount at this ⊢
    omega

theorem Holds.freeCount_eq (h : Holds mm own) :
    mm.freeCount = {n | n < mm.pages ∧ ∀ s, own s ≠ some n}.ncard := by
  rw [freeCount, ← Set.ncard_coe_finset]
  congr 1
  ext n
  rw [Finset.mem_coe, Finset.mem_filter, Finset.mem_range, Set.mem_ofPred_eq]
  refine and_congr_right fun hn => ?_
  rw [← h.finite.eq_zero_iff, ← h.counted n hn]
  exact ⟨fun h0 => by rw [h0]; rfl, fun h0 => BitVec.eq_of_toNat_eq h0⟩

theorem Holds.freeCount_take {own' : σ → Option Nat} (h : Holds mm own) (h' : Holds mm' own')
    (hpages : mm'.pages = mm.pages) {news : Finset Nat} (hnew : ∀ n ∈ news, n < mm.pages ∧ ∀ s, own s ≠ some n)
    (hheld : ∀ k, (∃ s, own' s = some k) ↔ (∃ s, own s = some k) ∨ k ∈ news) :
    mm'.freeCount + news.card = mm.freeCount := by
  have hset : {k | k < mm'.pages ∧ ∀ s, own' s ≠ some k} = {k | k < mm.pages ∧ ∀ s, own s ≠ some k} \ news := by
    ext k
    rw [Set.mem_sdiff, Set.mem_ofPred_eq, Set.mem_ofPred_eq, Finset.mem_coe, hpages, and_assoc]
    refine and_congr_right fun _ => ?_
    have hk := not_congr (hheld k)
    rwa [not_exists, not_or, not_exists] at hk
  rw [h.freeCount_eq, h'.freeCount_eq, hset, ← Set.ncard_coe_finset]
  exact Set.ncard_sdiff_add_ncard_of_subset (fun n hn => hnew n hn)
    ((Set.finite_lt_nat mm.pages).subset fun k hk => hk.1)

theorem Holds.alloc_none (h : Holds mm own) (hfull : mm.freeCount = 0) : ∃ mm', mm.allocPages 0 = (mm', none) := by
  obtain ⟨b, hok, hfree⟩ := h.lists
  rcases hok.allocPages (show 0 ≤ maxOrder from Nat.zero_le _) with ⟨mm', he, -⟩ |
    ⟨b', m, mm', -, -, -, -, hle, hall, -⟩
  · exact ⟨mm', he⟩
  · rw [pow_zero] at hle hall
    have hnew := h.finite.eq_zero_iff.mp ((hfree m (by omega)).mp (hall m (Nat.le_refl m) (by omega)))
    rw [h.freeCount_eq, Set.ncard_eq_zero ((Set.finite_lt_nat mm.pages).subset fun k hk => hk.1)] at hfull
    have hmem : m ∈ {n | n < mm.pages ∧ ∀ s, own s ≠ some n} := ⟨by omega, hnew⟩
    rw [hfull] at hmem
    exact absurd hmem (Set.notMem_empty m)

theorem Holds.block_of_pair (h : Holds mm own) {k : Nat} (hk : 2 * k + 1 < mm.pages) (h1 : ∀ s, own s ≠ some (2 * k))
    (h2 : ∀ s, own s ≠ some (2 * k + 1)) : ∃ o, 1 ≤ o ∧ o ≤ maxOrder ∧ mm.links.next (.head o) ≠ .head o := by
  obtain ⟨b, hok, hfree⟩ := h.lists
  have hblock : ∀ o n, n ∈ b.free o → 1 ≤ o → ∃ o, 1 ≤ o ∧ o ≤ maxOrder ∧ mm.links.next (.head o) ≠ .head o := by
    intro o n hn ho
    have hle := hok.wf.order o n hn
    refine ⟨o, ho, hle, ?_⟩
    cases hf : b.free o with
    | nil =>
      rw [hf] at hn
      cases hn
    | cons m ms =>
      rw [hok.next_cons hle hf]
      exact FreeNode.noConfusion
  obtain ⟨o, n, hn, hin⟩ := (hfree _ (by omega)).mpr (h.finite.eq_zero_iff.mpr h1)
  obtain ⟨o', n', hn', hin'⟩ := (hfree _ hk).mpr (h.finite.eq_zero_iff.mpr h2)
  rcases Nat.eq_zero_or_pos o with rfl | ho
  · rcases Nat.eq_zero_or_pos o' with rfl | ho'
    · rw [pow_zero] at hin hin'
      obtain rfl : n = k * 2 ^ (0 + 1) := by omega
      obtain rfl : n' = k * 2 ^ (0 + 1) + 2 ^ 0 := by omega
      exact absurd ⟨hn, hn'⟩ (hok.wf.apart 0 (by decide) k)
    · exact hblock o' n' hn' ho'
  · exact hblock o n hn ho

end

theorem Holds.alloc (h : Holds mm own) {addr : Word} (ha : mm.allocPages 0 = (mm', some addr))
    (hs : own s = none) : ∃ n, addr = mm.pageAddr n ∧ n < mm.pages ∧ (∀ t, own t ≠ some n) ∧
      Holds mm' (update own s (some n)) ∧ mm'.fixed = mm.fixed := by
  obtain ⟨b, hok, hfree⟩ := h.lists
  rcases hok.allocPages (show 0 ≤ maxOrder from Nat.zero_le _) with ⟨mm'', he, _⟩ |
    ⟨b', m, mm'', he, hok', hfixed, _, hle, hall, hcov, href⟩
  · rw [he] at ha
    simp at ha
  rw [he] at ha
  simp only [Prod.mk.injEq, Option.some.injEq] at ha
  obtain ⟨rfl, rfl⟩ := ha
  rw [pow_zero] at hle hall hcov href
  have hm : m < mm.pages := by omega
  have hzero : holdCount own m = 0 := (hfree m hm).mp (hall m le_rfl (by omega))
  refine ⟨m, rfl, hm, h.finite.eq_zero_iff.mp hzero, h.take hfree hok' hfixed hcov hall href (h.finite.update s _)
    (fun t k hk => ?_) (fun k => ?_), hfixed⟩
  · by_cases hts : t = s
    · subst t
      rw [update_self, Option.some.injEq] at hk
      exact hk ▸ hm
    · rw [update_of_ne hts] at hk
      exact h.inside t k hk
  · rw [h.finite.count_take hs]
    congr 1
    simp only [show (m ≤ k ∧ k < m + 1) ↔ k = m by omega]

theorem Holds.allocPair (h : Holds mm own) {addr : Word} (ha : mm.allocPages 1 = (mm', some addr)) {f : Nat → σ}
    (hf : f.Injective) (hnone : ∀ n, (∀ t, own t ≠ some n) → own (f n) = none) :
    ∃ n, addr = mm.pageAddr n ∧ n + 1 < mm.pages ∧ (∀ t, own t ≠ some n) ∧ (∀ t, own t ≠ some (n + 1)) ∧
      Holds mm' (update (update own (f n) (some n)) (f (n + 1)) (some (n + 1))) ∧ mm'.fixed = mm.fixed := by
  obtain ⟨b, hok, hfree⟩ := h.lists
  rcases hok.allocPages (show 1 ≤ maxOrder by decide) with ⟨mm'', he, _⟩ |
    ⟨b', m, mm'', he, hok', hfixed, _, hle, hall, hcov, href⟩
  · rw [he] at ha
    simp at ha
  rw [he] at ha
  simp only [Prod.mk.injEq, Option.some.injEq] at ha
  obtain ⟨rfl, rfl⟩ := ha
  rw [pow_one] at hle hall hcov href
  have h1 := h.finite.eq_zero_iff.mp ((hfree m (by omega)).mp (hall m (by omega) (by omega)))
  have h2 := h.finite.eq_zero_iff.mp ((hfree (m + 1) (by omega)).mp (hall (m + 1) (by omega) (by omega)))
  have hne : f (m + 1) ≠ f m := fun he => absurd (hf he) (by omega)
  refine ⟨m, rfl, by omega, h1, h2, h.take hfree hok' hfixed hcov hall href ((h.finite.update _ _).update _ _)
    (fun t k hk => ?_) (fun k => ?_), hfixed⟩
  · by_cases ht2 : t = f (m + 1)
    · subst t
      rw [update_self, Option.some.injEq] at hk
      omega
    · rw [update_of_ne ht2] at hk
      by_cases ht1 : t = f m
      · subst t
        rw [update_self, Option.some.injEq] at hk
        omega
      · rw [update_of_ne ht1] at hk
        exact h.inside t k hk
  · rw [(h.finite.update _ _).count_take (by rw [update_of_ne hne]; exact hnone _ h2),
      h.finite.count_take (hnone m h1), Nat.add_assoc]
    congr 1
    split_ifs <;> omega

theorem Holds.inc (h : Holds mm own) (ht : own t = some n) (hs : own s = none)
    (hlt : holdCount own n < 2 ^ 31) :
    Holds (mm.incPageRef (va2pa (mm.pageAddr n))) (update own s (some n)) := by
  obtain ⟨b, hok, hfree⟩ := h.lists
  have hn := h.inside t n ht
  have href := incPageRef_ref hok.layout hn.le
  refine ⟨h.finite.update s _, ?_, ?_, b, hok.of_eq rfl rfl rfl, ?_⟩
  · intro u k hk
    by_cases hus : u = s
    · subst u
      rw [update_self, Option.some.injEq] at hk
      exact hk ▸ hn
    · rw [update_of_ne hus] at hk
      exact h.inside u k hk
  · intro k hk
    show ((mm.incPageRef (va2pa (mm.pageAddr n))).ref (mm.frame k)).toNat = _
    rw [href, h.finite.count_take hs, ← h.counted k hk]
    by_cases hkn : k = n
    · subst k
      rw [← h.counted n hn] at hlt
      rw [update_self, if_pos rfl]
      bv_omega
    · have hne : mm.frame k ≠ mm.frame n := by unfold frame; omega
      rw [update_of_ne hne, if_neg hkn, Nat.add_zero]
  · intro k hk
    rw [hfree k hk, h.finite.count_take hs]
    by_cases hkn : k = n
    · subst k
      have := h.finite.pos ht
      simp [this.ne']
    · simp [hkn]

theorem Holds.free (h : Holds mm own) (hs : own s = some n) (hlt : holdCount own n < 2 ^ 31) :
    ∃ mm', mm.freePages (mm.pageAddr n) 0 = some mm' ∧ Holds mm' (update own s none) ∧
      mm'.fixed = mm.fixed := by
  obtain ⟨b, hok, hfree⟩ := h.lists
  have hn := h.inside s n hs
  have hpos := h.finite.pos hs
  have hcount := h.counted n hn
  have hclear : b.Clear 0 n := by
    apply Buddy.clear_of_not_covers
    intro p h1 h2 hcov
    obtain rfl : p = n := by rw [pow_zero] at h2; omega
    exact hpos.ne' ((hfree p hn).mp hcov)
  obtain ⟨mm', b', he, hok', hfixed, href, hcov⟩ := hok.freePages (show 0 ≤ maxOrder from Nat.zero_le _)
    (by simp) (by rw [pow_zero]; omega) hclear (by
      rw [BitVec.toInt_eq_toNat_of_lt (by omega)]
      omega)
  have hpages := pages_of_fixed hfixed
  have hdrop : ∀ k, holdCount own k = holdCount (update own s none) k +
      if k = n then 1 else 0 := fun k => h.finite.count_drop hs
  refine ⟨mm', he, ⟨h.finite.update s _, ?_, ?_, b', hok', ?_⟩, hfixed⟩
  · intro u k hk
    rw [hpages]
    by_cases hus : u = s
    · subst u
      simp at hk
    · rw [update_of_ne hus] at hk
      exact h.inside u k hk
  · intro k hk
    rw [hpages] at hk
    have hk' := h.counted k hk
    rw [hdrop k] at hk'
    rw [frame_of_fixed hfixed, href]
    by_cases hkn : k = n
    · subst k
      rw [if_pos rfl] at hk'
      rw [update_self]
      bv_omega
    · have hne : mm.frame k ≠ mm.frame n := by unfold frame; omega
      rw [update_of_ne hne]
      simpa [hkn] using hk'
  · intro k hk
    rw [hpages] at hk
    rw [hcov, hfree k hk, hdrop k]
    by_cases hkn : k = n
    · subst k
      have h1 := hdrop n
      rw [if_pos rfl] at h1
      rw [if_pos rfl]
      have hiff : mm.ref (mm.frame n) = 1 ↔ holdCount (update own s none) n = 0 := by
        constructor
        · intro hone
          rw [hone] at hcount
          have : (1 : Word).toNat = 1 := rfl
          omega
        · intro hz
          apply BitVec.eq_of_toNat_eq
          rw [hcount, h1, hz]
          rfl
      rw [hiff, pow_zero]
      omega
    · simp only [if_neg hkn, Nat.add_zero, pow_zero]
      refine ⟨fun hc => hc.resolve_right (by omega), Or.inl⟩

theorem Holds.move (h : Holds mm own) (hs : own s = some n) (ht : own t = none) :
    Holds mm (update (update own s none) t (some n)) := by
  obtain ⟨b, hok, hfree⟩ := h.lists
  have hts : t ≠ s := by
    rintro rfl
    simp [hs] at ht
  have hcount : ∀ k, holdCount (update (update own s none) t (some n)) k = holdCount own k := by
    intro k
    rw [(h.finite.update s none).count_take (by rw [update_of_ne hts, ht]), h.finite.count_drop hs]
  refine ⟨(h.finite.update s _).update t _, ?_, ?_, b, hok, ?_⟩
  · intro u k hk
    by_cases hut : u = t
    · subst u
      rw [update_self, Option.some.injEq] at hk
      exact hk ▸ h.inside s n hs
    · rw [update_of_ne hut] at hk
      by_cases hus : u = s
      · subst u
        simp at hk
      · rw [update_of_ne hus] at hk
        exact h.inside u k hk
  · intro k hk
    rw [hcount, h.counted k hk]
  · intro k hk
    rw [hcount, hfree k hk]

end

end Mm

end BabyOS
