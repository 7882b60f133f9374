import BabyOS.MmSpec

open Function

namespace BabyOS

namespace Mm

/-- The memory begins above the kernel image and has two megabytes at least, so that the bitmaps and `m_pages` fit
into it. -/
structure BootMem (mm : Mm) : Prop where
  kernel : kernelBase.toNat ≤ mm.memStart.toNat
  room : mm.memStart.toNat + 2 * 2 ^ 20 ≤ mm.memEnd.toNat

/-- The loop of `init_free_area` at order `i`: the heads below are empty rings and their bitmaps are cleared and
stand one after the other below `m_mem_start`. -/
structure Booting (s e i : Nat) (mm : Mm) : Prop where
  startGe : s ≤ mm.memStart.toNat
  startLe : mm.memStart.toNat ≤ s + i * 32773
  endLe : mm.memEnd.toNat ≤ e
  endGe : e + 2 ^ 13 ≤ mm.memEnd.toNat + 2 ^ (13 + i)
  endDvd : i = 0 ∨ 2 ^ (12 + i) ∣ mm.memEnd.toNat
  heads : ∀ o < i, mm.links.next (.head o) = .head o ∧ mm.links.prev (.head o) = .head o
  below : ∀ o < i, 8 * (mm.map o).toNat + (mm.memEnd.toNat - mm.memStart.toNat) / 2 ^ (12 + o) ≤
    8 * mm.memStart.toNat
  apart : ∀ o o', o < o' → o' < i →
    8 * (mm.map o).toNat + (mm.memEnd.toNat - mm.memStart.toNat) / 2 ^ (12 + o) ≤
      8 * (mm.map o').toNat
  clear : ∀ o < i, ∀ k < (mm.memEnd.toNat - mm.memStart.toNat) / 2 ^ (12 + o),
    mm.bits (8 * (mm.map o).toNat + k) = false

variable {i s e fuel : Nat} {mm : Mm} {b : Buddy}

theorem bitmapSize_bounds {d : Word} (hd : d.toNat < 2 ^ 30) :
    d.toNat / 2 ^ (12 + i) ≤ 8 * (((((d >>> (pageShift + i)) + 7) >>> 3) + 4 - 1) &&& ~~~(4 - 1)).toNat ∧
      (((((d >>> (pageShift + i)) + 7) >>> 3) + 4 - 1) &&& ~~~(4 - 1)).toNat ≤ 32773 := by
  have hmask : (~~~(4 - 1) : Word) = highMask 2 := by decide
  have hq : (d >>> (pageShift + i)).toNat = d.toNat / 2 ^ (12 + i) := by
    rw [BitVec.toNat_ushiftRight, Nat.shiftRight_eq_div_pow]
    rfl
  have hqle : d.toNat / 2 ^ (12 + i) ≤ 2 ^ 18 := by
    rw [pow_add, ← Nat.div_div_eq_div_mul]
    exact (Nat.div_le_self _ _).trans (by omega)
  generalize hx : d >>> (pageShift + i) = x at *
  have h1 : (x + 7).toNat = x.toNat + 7 := by bv_omega
  have h2 : ((x + 7) >>> 3).toNat = (x.toNat + 7) / 8 := by
    rw [BitVec.toNat_ushiftRight, h1, Nat.shiftRight_eq_div_pow]
  have h3 : ((x + 7) >>> 3 + 4 - 1).toNat = (x.toNat + 7) / 8 + 3 := by
    generalize (x + 7) >>> 3 = y at *
    bv_omega
  rw [hmask, toNat_and_highMask, h3]
  omega

theorem Booting.initOrder (h : Booting s e i mm) (hi : i ≤ maxOrder)
    (hs : kernelBase.toNat ≤ s) (hroom : s + 2 * 2 ^ 20 ≤ e) (he : e < 2 ^ 32) :
    Booting s e (i + 1) (mm.initOrder i (highMask (12 + (i + 1)))) := by
  have hk := toNat_kernelBase
  unfold maxOrder at hi
  obtain ⟨h1, h2, h3, h4, h5, h6, h7, h8, h9⟩ := h
  have hpow : 2 ^ (13 + i) ≤ 2 ^ 19 := Nat.pow_le_pow_right (by decide) (by omega)
  have hpow2 : 2 ^ (13 + (i + 1)) = 2 ^ (13 + i) + 2 ^ (13 + i) := by
    rw [← Nat.add_assoc, pow_succ]; omega
  have hend : (mm.memEnd &&& highMask (12 + (i + 1))).toNat =
      mm.memEnd.toNat / 2 ^ (13 + i) * 2 ^ (13 + i) := by
    rw [toNat_and_highMask, show 12 + (i + 1) = 13 + i by omega]
  have hle : mm.memEnd.toNat / 2 ^ (13 + i) * 2 ^ (13 + i) ≤ mm.memEnd.toNat := Nat.div_mul_le_self _ _
  have hlt : mm.memEnd.toNat < mm.memEnd.toNat / 2 ^ (13 + i) * 2 ^ (13 + i) + 2 ^ (13 + i) :=
    Nat.lt_div_mul_add (Nat.two_pow_pos _)
  generalize hE : mm.memEnd &&& highMask (12 + (i + 1)) = memEnd at hend
  rw [← hend] at hle hlt
  have hd : (memEnd - mm.memStart).toNat = memEnd.toNat - mm.memStart.toNat := by
    have := memEnd.isLt
    have := mm.memStart.isLt
    rw [BitVec.toNat_sub]
    omega
  obtain ⟨hb1, hb2⟩ := bitmapSize_bounds (d := memEnd - mm.memStart) (i := i) (by rw [hd]; omega)
  rw [hd] at hb1
  have hstep : mm.initOrder i (highMask (12 + (i + 1))) =
      { mm with
        links :=
          { next := update mm.links.next (.head i) (.head i)
            prev := update mm.links.prev (.head i) (.head i) }
        memEnd := memEnd
        map := update mm.map i mm.memStart
        bits := fun a => if 8 * mm.memStart.toNat ≤ a ∧ a < 8 * mm.memStart.toNat + 8 *
          (((((memEnd - mm.memStart) >>> (pageShift + i)) + 7) >>> 3) + 4 - 1 &&& ~~~(4 - 1)).toNat
          then false else mm.bits a
        memStart := mm.memStart +
          (((((memEnd - mm.memStart) >>> (pageShift + i)) + 7) >>> 3) + 4 - 1 &&& ~~~(4 - 1)) } := by
    simp only [Mm.initOrder, hE]
  rw [hstep]
  generalize (((((memEnd - mm.memStart) >>> (pageShift + i)) + 7) >>> 3) + 4 - 1 &&& ~~~(4 - 1)) =
    bytes at hb1 hb2 ⊢
  have hstart : (mm.memStart + bytes).toNat = mm.memStart.toNat + bytes.toNat := by
    have := mm.memStart.isLt
    rw [BitVec.toNat_add]
    omega
  have hshrink : ∀ o, (memEnd.toNat - (mm.memStart.toNat + bytes.toNat)) / 2 ^ (12 + o) ≤
      (mm.memEnd.toNat - mm.memStart.toNat) / 2 ^ (12 + o) :=
    fun o => Nat.div_le_div_right (by omega)
  have hshrink' : (memEnd.toNat - (mm.memStart.toNat + bytes.toNat)) / 2 ^ (12 + i) ≤
      (memEnd.toNat - mm.memStart.toNat) / 2 ^ (12 + i) := Nat.div_le_div_right (by omega)
  refine ⟨?_, ?_, ?_, ?_, Or.inr ?_, ?_, ?_, ?_, ?_⟩ <;> dsimp only
  · omega
  · omega
  · omega
  · omega
  · rw [hend, show 12 + (i + 1) = 13 + i by omega]
    exact Dvd.intro_left _ rfl
  · intro o ho
    by_cases hoi : o = i
    · subst o; simp
    · have hne : FreeNode.head o ≠ FreeNode.head i := by simpa using hoi
      rw [update_of_ne hne, update_of_ne hne]
      exact h6 o (by omega)
  · intro o ho
    by_cases hoi : o = i
    · subst o
      rw [update_self, hstart]
      omega
    · rw [update_of_ne hoi, hstart]
      have := h7 o (by omega)
      have := hshrink o
      omega
  · intro o o' hoo ho'
    have hoi : o ≠ i := by omega
    rw [update_of_ne hoi, hstart]
    have hs' := hshrink o
    by_cases hoi' : o' = i
    · subst o'
      rw [update_self]
      have := h7 o (by omega)
      omega
    · rw [update_of_ne hoi']
      have := h8 o o' hoo (by omega)
      omega
  · intro o ho k hk'
    rw [hstart] at hk'
    have hs' := hshrink o
    by_cases hoi : o = i
    · subst o
      rw [update_self, if_pos (by omega)]
    · rw [update_of_ne hoi]
      have := h7 o (by omega)
      rw [if_neg (by omega)]
      exact h9 o (by omega) k (by omega)

theorem Booting.initOrders (h : Booting s e i mm)
    (hf : i + fuel = maxOrder + 1) (hs : kernelBase.toNat ≤ s) (hroom : s + 2 * 2 ^ 20 ≤ e) (he : e < 2 ^ 32) :
    Booting s e (maxOrder + 1) (mm.initOrders fuel i (highMask (12 + i))).1 ∧
      (mm.initOrders fuel i (highMask (12 + i))).2 = highMask 19 := by
  induction fuel generalizing i mm with
  | zero =>
    have hi : i = maxOrder + 1 := by omega
    subst i
    exact ⟨h, rfl⟩
  | succ fuel ih =>
    simp only [Mm.initOrders, highMask_add_self]
    exact ih (h.initOrder (by omega) hs hroom he) (by omega)

theorem Booting.ready {mask : Word} (h : Booting s e (maxOrder + 1) mm)
    (hmask : mask = highMask 19) (hs : kernelBase.toNat ≤ s) (hroom : s + 2 * 2 ^ 20 ≤ e) (he : e < 2 ^ 32) :
    let mm' := { mm.initPages with base := (mm.initPages.memStart + ~~~mask) &&& mask }
    Ok mm' ⟨fun _ => [], fun _ _ => false⟩ ∧ (∀ n < mm'.pages, mm'.ref (mm'.frame n) = 1) ∧
      s ≤ mm'.base.toNat ∧ (∀ k, s + 2 ^ 22 + 4096 * k ≤ e → k < mm'.pages) := by
  subst mask
  have hk := toNat_kernelBase
  obtain ⟨h1, h2, h3, h4, h5, h6, h7, h8, h9⟩ := h
  unfold maxOrder at *
  have hend : 2 ^ 19 ∣ mm.memEnd.toNat := h5.resolve_left (by decide)
  have hnum : ((mm.memEnd - kernelBase) / pageSize).toNat =
      (mm.memEnd.toNat - kernelBase.toNat) / 4096 := by
    have hsub : (mm.memEnd - kernelBase).toNat = mm.memEnd.toNat - kernelBase.toNat := by
      rw [BitVec.toNat_sub]
      omega
    rw [BitVec.toNat_udiv, hsub]
    rfl
  have hstart : mm.initPages.memStart.toNat =
      mm.memStart.toNat + (mm.memEnd.toNat - kernelBase.toNat) / 4096 * 4 := by
    simp only [initPages, BitVec.toNat_add, BitVec.toNat_mul, hnum]
    rw [show BitVec.toNat (4 : Word) = 4 from rfl]
    omega
  have hbase : ((mm.initPages.memStart + ~~~highMask 19) &&& highMask 19).toNat =
      (mm.initPages.memStart.toNat + (2 ^ 19 - 1)) / 2 ^ 19 * 2 ^ 19 := by
    have hnot : (~~~highMask 19).toNat = 2 ^ 19 - 1 := by decide
    rw [toNat_and_highMask, BitVec.toNat_add, hnot, Nat.mod_eq_of_lt (by omega)]
  generalize hb : (mm.initPages.memStart + ~~~highMask 19) &&& highMask 19 = base at hbase
  intro mm'
  have hpages : mm'.pages = (mm.memEnd.toNat - base.toNat) / 4096 := rfl
  have hdiv : ∀ o, mm'.pages / 2 ^ (o + 1) ≤
      (mm.memEnd.toNat - mm.memStart.toNat) / 2 ^ (12 + o) := by
    intro o
    have hle : mm'.pages / 2 ^ (o + 1) ≤ mm'.pages / 2 ^ o :=
      Nat.div_le_div_left (Nat.pow_le_pow_right (by decide) (by omega)) (Nat.two_pow_pos o)
    rw [pow_add 2 12 o, ← Nat.div_div_eq_div_mul]
    exact hle.trans (Nat.div_le_div_right (by rw [hpages]; omega))
  refine ⟨⟨⟨?_, hend, ?_, ?_⟩, ⟨?_, ?_⟩, ?_⟩, ?_, ?_, fun k hbig => by rw [hpages]; omega⟩
  · show 2 ^ 19 ∣ base.toNat
    rw [hbase]
    exact Dvd.intro_left _ rfl
  · show kernelBase.toNat ≤ base.toNat
    omega
  · intro o o' hoo ho'
    have := h8 o o' hoo (by unfold maxOrder at ho'; omega)
    have := hdiv o
    show 8 * (mm.map o).toNat + mm'.pages / 2 ^ (o + 1) ≤ 8 * (mm.map o').toNat
    omega
  · intro o ho
    obtain ⟨hn, hp⟩ := h6 o (by unfold maxOrder at ho; omega)
    exact ⟨by simp, hn, hp⟩
  · intro o ho k hk'
    exact h9 o (by unfold maxOrder at ho; omega) k (hk'.trans_le (hdiv o))
  · constructor <;> simp
  · intro n hn
    have hlt : mm'.frame n < ((mm.memEnd - kernelBase) / pageSize).toNat := by
      rw [hnum]
      rw [hpages] at hn
      show (base.toNat - kernelBase.toNat) / 4096 + n < _
      omega
    show (if mm'.frame n < ((mm.memEnd - kernelBase) / pageSize).toNat then 1 else
      mm.ref (mm'.frame n)) = 1
    rw [if_pos hlt]
  · show s ≤ base.toNat
    omega

theorem freePageNum_freePages {mm' : Mm} {addr : Word} {order : Nat}
    (h : mm.freePages addr order = some mm') (hone : mm.getPageRef (va2pa addr) = 1) :
    mm'.freePageNum = mm.freePageNum + mathPow 2 order := by
  have hdec : mm.decPageRef (va2pa addr) = some
      ({ mm with ref := update mm.ref (va2pa addr >>> pageShift).toNat 0 }, true) := by
    rw [getPageRef] at hone
    unfold decPageRef
    simp only [hone]
    rfl
  rw [Mm.freePages, hdec] at h
  cases h
  exact (fixed_freeLoop _ _ _ _ _ _).2.2

theorem Ok.freeBootLoop (h : Ok mm b) {n : Nat} (hf : n + fuel = mm.pages) (hcov : ∀ p, b.Covers p ↔ p < n)
    (href : ∀ p < mm.pages, mm.ref (mm.frame p) = if p < n then 0 else 1) :
    ∃ mm' b', mm.freeBootLoop fuel (mm.pageAddr n) = some mm' ∧ Ok mm' b' ∧ mm'.fixed = mm.fixed ∧
      (∀ p, b'.Covers p ↔ p < mm.pages) ∧ (∀ p < mm.pages, mm'.ref (mm.frame p) = 0) ∧
      mm'.freePageNum = mm.freePageNum + BitVec.ofNat 32 fuel := by
  induction fuel generalizing mm b n with
  | zero =>
    obtain rfl : n = mm.pages := by omega
    exact ⟨mm, b, rfl, h, rfl, hcov, fun p hp => by rw [href p hp, if_pos hp], (BitVec.add_zero _).symm⟩
  | succ fuel ih =>
    have hn : n < mm.pages := by omega
    have hone : mm.ref (mm.frame n) = 1 := by rw [href n hn, if_neg (lt_irrefl n)]
    have hclear : b.Clear 0 n := by
      apply Buddy.clear_of_not_covers
      intro p h1 h2 hp
      have := (hcov p).mp hp
      omega
    obtain ⟨mm', b', hfree, hok, hfixed, href', hcov'⟩ :=
      h.freePages (show 0 ≤ maxOrder from Nat.zero_le _) (by simp) (by rw [pow_zero]; omega) hclear
        (by rw [hone]; decide)
    have hlt : mm.pageAddr n < mm.memEnd := by
      have := h.layout.end_of_pages hn
      rw [BitVec.lt_def, toNat_pageAddr hn.le]
      omega
    have hpages := pages_of_fixed hfixed
    have haddr : mm.pageAddr n + pageSize = mm'.pageAddr (n + 1) := by
      rw [pageAddr_of_fixed hfixed, ← pageAddr_add, BitVec.add_comm]
      rfl
    unfold Mm.freeBootLoop
    rw [if_pos hlt, hfree]
    simp only [haddr]
    obtain ⟨mm'', b'', h1, h2, h3, h4, h5, h6⟩ := ih hok (n := n + 1) (by omega)
      (by intro p; rw [hcov', hcov]; simp only [hone, true_and]; omega)
      (by
        intro p hp
        rw [hpages] at hp
        rw [frame_of_fixed hfixed, href']
        by_cases hpn : p = n
        · subst p
          rw [update_self, hone, if_pos (by omega)]
          rfl
        · have hne : mm.frame p ≠ mm.frame n := by unfold frame; omega
          rw [update_of_ne hne, href p hp]
          by_cases hlt : p < n
          · rw [if_pos hlt, if_pos (by omega)]
          · rw [if_neg hlt, if_neg (by omega)])
    rw [hpages] at h4 h5
    rw [frame_of_fixed hfixed] at h5
    have hnum : mm'.freePageNum = mm.freePageNum + 1 := freePageNum_freePages hfree (by
      rw [getPageRef, h.layout.frame_eq hn.le, hone])
    refine ⟨mm'', b'', h1, h2, h3.trans hfixed, h4, h5, ?_⟩
    rw [h6, hnum, BitVec.add_assoc, Nat.add_comm fuel, BitVec.ofNat_add]
    rfl

theorem Ok.freeBootMem (h : Ok mm b) (hcov : ∀ p, ¬b.Covers p) (href : ∀ p < mm.pages, mm.ref (mm.frame p) = 1) :
    ∃ mm' b', mm.freeBootMem = some mm' ∧ Ok mm' b' ∧ (∀ p, b'.Covers p ↔ p < mm'.pages) ∧
      (∀ p < mm'.pages, mm'.ref (mm'.frame p) = 0) ∧ mm'.fixed = mm.fixed ∧
      mm'.freePageNum = BitVec.ofNat 32 mm'.pages := by
  have hok : Ok { mm with freePageNum := 0 } b := h.of_eq rfl rfl rfl
  have hfuel : (mm.memEnd.toNat - mm.base.toNat + 4095) / 4096 = mm.pages := by
    have h1 := h.layout.base_dvd
    have h2 := h.layout.end_dvd
    unfold pages
    omega
  obtain ⟨mm', b', h1, h2, h3, h4, h5, h6⟩ := hok.freeBootLoop (show 0 + mm.pages = _ from Nat.zero_add _)
    (fun p => by simp [hcov p]) href
  have haddr : Mm.pageAddr { mm with freePageNum := 0 } 0 = mm.base := by simp [pageAddr]
  rw [haddr] at h1
  refine ⟨mm', b', ?_, h2, ?_, ?_, h3, ?_⟩
  · unfold Mm.freeBootMem
    simp only [hfuel, h1]
  · rw [pages_of_fixed h3]
    exact h4
  · rw [pages_of_fixed h3, frame_of_fixed h3]
    exact h5
  · rw [h6, pages_of_fixed h3]
    exact BitVec.zero_add _

theorem BootMem.initFreeArea (h : BootMem mm) :
    ∃ mm' b, mm.initFreeArea = some mm' ∧ Ok mm' b ∧ (∀ p, b.Covers p ↔ p < mm'.pages) ∧
      (∀ p < mm'.pages, mm'.ref (mm'.frame p) = 0) ∧
      (∀ k, mm.memStart.toNat + 2 ^ 22 + 4096 * k ≤ mm.memEnd.toNat → k < mm'.pages) ∧
      mm.memStart.toNat ≤ mm'.base.toNat ∧ mm'.freePageNum = BitVec.ofNat 32 mm'.pages := by
  have he := mm.memEnd.isLt
  have hstart : Booting mm.memStart.toNat mm.memEnd.toNat 0 mm :=
    ⟨le_rfl, by omega, le_rfl, le_rfl, Or.inl rfl, by simp, by simp, by simp, by simp⟩
  obtain ⟨hboot, hmask⟩ := hstart.initOrders (show 0 + (maxOrder + 1) = maxOrder + 1 by omega) h.kernel h.room he
  obtain ⟨hok, href, hbase, hbig⟩ := hboot.ready hmask h.kernel h.room he
  obtain ⟨mm', b, h1, h2, h3, h4, h5, h6⟩ := hok.freeBootMem (by simp [Buddy.Covers]) href
  unfold Mm.initFreeArea
  rw [pageMask_eq]
  refine ⟨mm', b, h1, h2, h3, h4, fun k hroom => ?_, ?_, h6⟩
  · rw [pages_of_fixed h5]
    exact hbig k hroom
  · rw [show mm'.base = _ from congrArg Prod.fst h5]
    exact hbase

end Mm

end BabyOS
