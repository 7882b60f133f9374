import BabyOS.BuddySystem
import BabyOS.MmPages

open Function BitVec List

namespace BabyOS

namespace Mm

def pages (mm : Mm) : Nat := (mm.memEnd.toNat - mm.base.toNat) / 4096

def pageAddr (mm : Mm) (n : Nat) : Word := mm.base + BitVec.ofNat 32 (4096 * n)

def frame (mm : Mm) (n : Nat) : Nat := (mm.base.toNat - kernelBase.toNat) / 4096 + n

/-- What boot fixes for good: the alignment of the memory and the place of the bitmaps. -/
structure Layout (mm : Mm) : Prop where
  base_dvd : 2 ^ 19 ∣ mm.base.toNat
  end_dvd : 2 ^ 19 ∣ mm.memEnd.toNat
  kernel : kernelBase.toNat ≤ mm.base.toNat
  maps : ∀ o o', o < o' → o' ≤ maxOrder →
    8 * (mm.map o).toNat + mm.pages / 2 ^ (o + 1) ≤ 8 * (mm.map o').toNat

/-- The linked lists and the bitmaps of the allocator hold the abstract buddy system. -/
structure Rep (mm : Mm) (b : Buddy) : Prop where
  rings : ∀ o ≤ maxOrder,
    Ring mm.links (.head o) ((b.free o).map fun n => .block (mm.pageAddr n))
  bits : ∀ o ≤ maxOrder, ∀ k < mm.pages / 2 ^ (o + 1),
    mm.bits (8 * (mm.map o).toNat + k) = b.bit o k

theorem pageMask_eq : pageMask = highMask 12 := by decide

section

variable {mm : Mm} {b : Buddy}

theorem Layout.pages_dvd (h : Layout mm) : 128 ∣ mm.pages := by
  have h1 := h.base_dvd
  have h2 := h.end_dvd
  unfold pages
  omega

variable {n o : Nat} {mm' : Mm}

theorem Layout.end_of_pages (h : Layout mm) (hn : n < mm.pages) :
    mm.base.toNat + 4096 * mm.pages = mm.memEnd.toNat := by
  have h1 := h.base_dvd
  have h2 := h.end_dvd
  unfold pages at hn ⊢
  omega

theorem base_add_pages (mm : Mm) (hn : n ≤ mm.pages) : mm.base.toNat + 4096 * n < 2 ^ 32 := by
  unfold pages at hn
  omega

section

variable (hn : n ≤ mm.pages)
include hn

theorem toNat_pageAddr : (mm.pageAddr n).toNat = mm.base.toNat + 4096 * n := by
  have h := base_add_pages mm hn
  rw [pageAddr, toNat_add, toNat_ofNat]
  omega

theorem pageAddr_inj {m : Nat} (hm : m ≤ mm.pages) (h : mm.pageAddr n = mm.pageAddr m) : n = m := by
  have h' := congrArg BitVec.toNat h
  rw [toNat_pageAddr hn, toNat_pageAddr hm] at h'
  omega

theorem pageAddr_sub_base : (mm.pageAddr n - mm.base).toNat = 4096 * n := by
  have h := base_add_pages mm hn
  rw [toNat_sub, toNat_pageAddr hn]
  omega

theorem mapNr_pageAddr : (mapNr (mm.pageAddr n - mm.base)).toNat = n := by
  rw [mapNr, toNat_ushiftRight, pageAddr_sub_base hn, Nat.shiftRight_eq_div_pow]
  exact Nat.mul_div_cancel_left n (by decide)

theorem toNat_index : (mapNr (mm.pageAddr n - mm.base) >>> (1 + o)).toNat = n / 2 ^ (o + 1) := by
  rw [toNat_ushiftRight, mapNr_pageAddr hn, Nat.shiftRight_eq_div_pow, Nat.add_comm 1 o]

end

theorem Layout.frame_eq (h : Layout mm) (hn : n ≤ mm.pages) :
    (va2pa (mm.pageAddr n) >>> pageShift).toNat = mm.frame n := by
  have h1 := h.kernel
  have h2 := h.base_dvd
  have h3 := base_add_pages mm hn
  rw [toNat_ushiftRight, va2pa, toNat_sub, toNat_pageAddr hn, Nat.shiftRight_eq_div_pow, pageShift, frame]
  omega

theorem Layout.pageAddr_and (h : Layout mm) (hn : n ≤ mm.pages) (ho : o ≤ 7) :
    mm.pageAddr n &&& highMask (12 + o) = mm.pageAddr (n / 2 ^ o * 2 ^ o) := by
  have hle : n / 2 ^ o * 2 ^ o ≤ mm.pages := (Nat.div_mul_le_self n _).trans hn
  apply eq_of_toNat_eq
  rw [toNat_and_highMask, toNat_pageAddr hn, toNat_pageAddr hle, pow_add]
  obtain ⟨c, hc⟩ : 2 ^ 12 * 2 ^ o ∣ mm.base.toNat := by
    rw [← pow_add]
    exact (pow_dvd_pow 2 (by omega)).trans h.base_dvd
  have hpos : 0 < 2 ^ 12 * 2 ^ o := Nat.mul_pos (by decide) (Nat.two_pow_pos o)
  have hdiv : 4096 * n / (2 ^ 12 * 2 ^ o) = n / 2 ^ o := by
    rw [← Nat.div_div_eq_div_mul]
    congr 1
    exact Nat.mul_div_cancel_left n (by decide)
  rw [hc, Nat.mul_add_div hpos, hdiv]
  ring

theorem getBuddy_eq (ho : 12 + o < 32) :
    mm.getBuddy (mm.pageAddr n) (highMask (12 + o)) = mm.pageAddr (n ^^^ 2 ^ o) := by
  have hxor : mm.pageAddr n - mm.base = BitVec.ofNat 32 (4096 * n) := by
    rw [pageAddr, BitVec.add_comm, BitVec.add_sub_cancel]
  have hshift : BitVec.ofNat 32 (4096 * n) ^^^ BitVec.ofNat 32 (2 ^ (12 + o)) =
      BitVec.ofNat 32 (4096 * (n ^^^ 2 ^ o)) := by
    rw [← ofNat_xor]
    congr 1
    have h1 : 4096 * n = n <<< 12 := by rw [Nat.shiftLeft_eq]; ring
    have h2 : 2 ^ (12 + o) = 2 ^ o <<< 12 := by rw [Nat.shiftLeft_eq, pow_add]; ring
    have h3 : 4096 * (n ^^^ 2 ^ o) = (n ^^^ 2 ^ o) <<< 12 := by rw [Nat.shiftLeft_eq]; ring
    rw [h1, h2, h3, Nat.shiftLeft_xor_distrib]
  rw [getBuddy, neg_highMask ho, hxor, hshift, pageAddr, BitVec.add_comm]

theorem Layout.index_lt (h : Layout mm) (ho : o ≤ maxOrder) (hn : n < mm.pages) :
    n / 2 ^ (o + 1) < mm.pages / 2 ^ (o + 1) := by
  have hd : 2 ^ (o + 1) ∣ mm.pages :=
    (pow_dvd_pow 2 (show o + 1 ≤ 7 by unfold maxOrder at ho; omega)).trans h.pages_dvd
  obtain ⟨c, hc⟩ := hd
  have hpos := Nat.two_pow_pos (o + 1)
  rw [hc, Nat.mul_div_cancel_left c hpos]
  rw [hc] at hn
  exact Nat.div_lt_of_lt_mul hn

theorem Rep.toggle (h : Rep mm b) (hl : Layout mm) (ho : o ≤ maxOrder) {nr : Word}
    (hk : nr.toNat < mm.pages / 2 ^ (o + 1)) : Rep (mm.changeBit o nr) (b.toggle o nr.toNat) := by
  refine ⟨h.rings, ?_⟩
  intro o' ho' k hk'
  have hold : mm.oldBit o nr = b.bit o nr.toNat := h.bits o ho _ hk
  show update mm.bits (mm.bitAddr o nr) (!mm.oldBit o nr) (8 * (mm.map o').toNat + k) = _
  rw [hold]
  by_cases hoo : o' = o
  · subst o'
    by_cases hkk : k = nr.toNat
    · subst k
      simp [bitAddr, Buddy.toggle]
    · have hne : 8 * (mm.map o).toNat + k ≠ mm.bitAddr o nr := by unfold bitAddr; omega
      simp only [update_of_ne hne, Buddy.toggle, update_self, update_of_ne hkk]
      exact h.bits o ho k hk'
  · have hne : 8 * (mm.map o').toNat + k ≠ mm.bitAddr o nr := by
      rcases Nat.lt_or_gt_of_ne hoo with hlt | hgt
      · have hk2 : k < mm.pages / 2 ^ (o' + 1) := hk'
        have := hl.maps o' o hlt ho
        unfold bitAddr
        omega
      · have := hl.maps o o' hgt ho'
        unfold bitAddr
        omega
    simp only [update_of_ne hne, Buddy.toggle, update_of_ne hoo]
    exact h.bits o' ho' k hk'

theorem mem_ring (hw : b.Wf maxOrder mm.pages) {o' : Nat} (hn : n ≤ mm.pages) (hx : FreeNode.block (mm.pageAddr n) ∈
    FreeNode.head o' :: (b.free o').map (fun n => FreeNode.block (mm.pageAddr n))) : n ∈ b.free o' := by
  rcases mem_cons.mp hx with hh | hm
  · simp at hh
  · obtain ⟨m, hm, he⟩ := mem_map.mp hm
    have hbm := hw.bound o' m hm
    rwa [← pageAddr_inj (Nat.le_of_add_right_le hbm) hn (by simpa using he)]

theorem rings_disjoint (hw : b.Wf maxOrder mm.pages) {o' : Nat} (hne : o ≠ o') :
    ∀ x ∈ FreeNode.head o :: (b.free o).map (fun n => FreeNode.block (mm.pageAddr n)),
      x ∉ FreeNode.head o' :: (b.free o').map (fun n => FreeNode.block (mm.pageAddr n)) := by
  intro x hx hx'
  rcases mem_cons.mp hx with rfl | hx
  · rcases mem_cons.mp hx' with hh | hm
    · exact hne (by simpa using hh)
    · simp at hm
  · obtain ⟨n, hn, rfl⟩ := mem_map.mp hx
    have hbn := hw.bound o n hn
    have h1 := Nat.two_pow_pos o
    have h2 := Nat.two_pow_pos o'
    have := hw.disjoint o n o' n hn (mem_ring hw (by omega) hx') (fun h => hne h.1)
    omega

theorem Rep.put (h : Rep mm b) (hw : b.Wf maxOrder mm.pages) (ho : o ≤ maxOrder)
    (hc : b.Clear o n) (hb : n + 2 ^ o ≤ mm.pages) : Rep (mm.addToHead o (mm.pageAddr n)) (b.put o n) := by
  refine ⟨?_, h.bits⟩
  intro o' ho'
  have hnm : ∀ j, FreeNode.block (mm.pageAddr n) ∉
      FreeNode.head j :: (b.free j).map (fun n => FreeNode.block (mm.pageAddr n)) := by
    intro j hx
    have h1 := Nat.two_pow_pos o
    have h2 := Nat.two_pow_pos j
    have := hc j n (mem_ring hw (by omega) hx)
    omega
  show Ring (mm.links.insertAfter (.head o) (.block (mm.pageAddr n))) (.head o') _
  by_cases hoo : o' = o
  · subst o'
    simp only [Buddy.put, update_self]
    exact (h.rings o ho).insertAfter (hnm o)
  · simp only [Buddy.put, update_of_ne hoo]
    apply (h.rings o' ho').insertAfter_frame (h.rings o ho) (hnm o)
    intro x hx hx'
    rcases mem_cons.mp hx' with rfl | hx'
    · exact hnm o' hx
    · exact rings_disjoint hw hoo x hx hx'

theorem erase_map_block (hw : b.Wf maxOrder mm.pages) (hn : n ∈ b.free o) :
    ((b.free o).map fun n => FreeNode.block (mm.pageAddr n)).erase (.block (mm.pageAddr n)) =
      ((b.free o).erase n).map fun n => FreeNode.block (mm.pageAddr n) := by
  have hbound : ∀ m ∈ b.free o, m ≤ mm.pages := fun m hm => by
    have := hw.bound o m hm
    have := Nat.two_pow_pos o
    omega
  have hn' := hbound n hn
  revert hbound
  generalize b.free o = xs
  intro hbound
  induction xs with
  | nil => rfl
  | cons x xs ih =>
    have hrec := ih (fun m hm => hbound m (mem_cons_of_mem x hm))
    by_cases hx : x = n
    · subst x; simp
    · have hne : FreeNode.block (mm.pageAddr x) ≠ FreeNode.block (mm.pageAddr n) := by
        intro he
        exact hx (pageAddr_inj (hbound x (by simp)) hn' (by simpa using he))
      rw [map_cons, erase_cons_tail (by simpa using hne),
        erase_cons_tail (by simpa using hx), map_cons, hrec]

theorem Rep.drop (h : Rep mm b) (hw : b.Wf maxOrder mm.pages) (ho : o ≤ maxOrder)
    (hn : n ∈ b.free o) : Rep (mm.removeHead (mm.pageAddr n)) (b.drop o n) := by
  refine ⟨?_, h.bits⟩
  intro o' ho'
  have hmem : FreeNode.block (mm.pageAddr n) ∈
      (b.free o).map (fun n => FreeNode.block (mm.pageAddr n)) := mem_map_of_mem hn
  show Ring (mm.links.unlink (.block (mm.pageAddr n))) (.head o') _
  by_cases hoo : o' = o
  · subst o'
    have hr := (h.rings o ho).unlink hmem
    rw [erase_map_block hw hn] at hr
    simp only [Buddy.drop, update_self]
    exact hr
  · simp only [Buddy.drop, update_of_ne hoo]
    exact (h.rings o' ho').unlink_frame (h.rings o ho) hmem (rings_disjoint hw hoo)

theorem Rep.freeLoop {fuel : Nat} {index : Word} (h : Rep mm b) (hl : Layout mm)
    (hw : b.Wf maxOrder mm.pages) (hf : fuel + o = maxOrder) (ha : 2 ^ o ∣ n)
    (hb : n + 2 ^ o ≤ mm.pages) (hc : b.Clear o n) (hi : index.toNat = n / 2 ^ (o + 1)) :
    Rep (mm.freeLoop fuel o (mm.pageAddr n) (highMask (12 + o)) index) (b.release fuel o n) := by
  have hpos := Nat.two_pow_pos o
  induction fuel generalizing mm b o n index with
  | zero => exact h.put hw (by omega) hc hb
  | succ fuel ih =>
    have ho : o < maxOrder := by omega
    have hlt : index.toNat < mm.pages / 2 ^ (o + 1) := by
      rw [hi]
      exact hl.index_lt (by omega) (by omega)
    have hbit := hw.buddy_mem ho ha hc.not_mem
    have hold : mm.oldBit o index = b.bit o (n / 2 ^ (o + 1)) := by
      rw [← hi]
      exact h.bits o (by omega) _ hlt
    have htog := h.toggle hl (by omega) hlt
    rw [hi] at htog
    by_cases hm : n ^^^ 2 ^ o ∈ b.free o
    · have hset : b.bit o (n / 2 ^ (o + 1)) = true := by simpa [hm] using hbit
      obtain ⟨hdrop, hbound, hclear⟩ := hw.merge ha hb hc hm
      have hrep : Rep ((mm.changeBit o index).removeHead (mm.pageAddr (n ^^^ 2 ^ o)))
          ((b.drop o (n ^^^ 2 ^ o)).toggle o (n / 2 ^ (o + 1))) := by
        refine ⟨(h.drop hw (by omega) hm).rings, htog.bits⟩
      have hindex : (index >>> 1).toNat = n / 2 ^ (o + 1) * 2 ^ (o + 1) / 2 ^ (o + 1 + 1) := by
        rw [toNat_ushiftRight, hi, Nat.shiftRight_eq_div_pow, pow_succ 2 (o + 1),
          ← Nat.div_div_eq_div_mul, Buddy.left_div, Nat.pow_one]
      have hstep := ih hrep ⟨hl.1, hl.2, hl.3, hl.4⟩ hdrop (by omega) (Dvd.intro_left _ rfl)
        hbound hclear hindex (Nat.two_pow_pos _)
      rw [Buddy.release_merge hset]
      simp only [Mm.freeLoop, hold, hset, if_true]
      have hbuddy : (mm.changeBit o index).getBuddy (mm.pageAddr n) (highMask (12 + o)) =
          mm.pageAddr (n ^^^ 2 ^ o) := getBuddy_eq (by unfold maxOrder at ho; omega)
      have hround : mm.pageAddr n &&& highMask (12 + (o + 1)) =
          mm.pageAddr (n / 2 ^ (o + 1) * 2 ^ (o + 1)) :=
        hl.pageAddr_and (by omega) (by unfold maxOrder at ho; omega)
      rw [hbuddy, highMask_shiftLeft, Nat.add_assoc, hround]
      exact hstep
    · have hset : b.bit o (n / 2 ^ (o + 1)) = false := by simpa [hm] using hbit
      rw [Buddy.release_stop hset]
      simp only [Mm.freeLoop, hold, hset, Bool.false_eq_true, if_false]
      exact ⟨(h.put hw (by omega) hc hb).rings, htog.bits⟩

def fixed (mm : Mm) : Word × Word × (Nat → Word) := (mm.base, mm.memEnd, mm.map)

theorem fixed_freeLoop (mm : Mm) (fuel o : Nat) (address mask index : Word) :
    (mm.freeLoop fuel o address mask index).fixed = mm.fixed ∧ (mm.freeLoop fuel o address mask index).ref = mm.ref ∧
      (mm.freeLoop fuel o address mask index).freePageNum = mm.freePageNum := by
  induction fuel generalizing mm o address mask index with
  | zero => exact ⟨rfl, rfl, rfl⟩
  | succ fuel ih =>
    simp only [Mm.freeLoop]
    split
    · exact ih _ _ _ _ _
    · exact ⟨rfl, rfl, rfl⟩

theorem fixed_expandLoop (mm : Mm) (low fuel : Nat) (size addr : Word) :
    (mm.expandLoop low fuel size addr).1.fixed = mm.fixed ∧ (mm.expandLoop low fuel size addr).1.ref = mm.ref ∧
      (mm.expandLoop low fuel size addr).1.freePageNum = mm.freePageNum := by
  induction fuel generalizing mm size addr with
  | zero => exact ⟨rfl, rfl, rfl⟩
  | succ fuel ih => exact ih _ _ _

theorem pages_of_fixed (h : mm'.fixed = mm.fixed) : mm'.pages = mm.pages := by
  simp only [fixed, Prod.mk.injEq] at h
  simp only [pages, h.1, h.2.1]

theorem pageAddr_of_fixed (h : mm'.fixed = mm.fixed) : mm'.pageAddr = mm.pageAddr := by
  simp only [fixed, Prod.mk.injEq] at h
  funext n
  simp only [pageAddr, h.1]

theorem frame_of_fixed (h : mm'.fixed = mm.fixed) : mm'.frame = mm.frame := by
  simp only [fixed, Prod.mk.injEq] at h
  funext n
  simp only [frame, h.1]

theorem Layout.of_fixed (hl : Layout mm) (h : mm'.fixed = mm.fixed) : Layout mm' := by
  have hp := pages_of_fixed h
  simp only [fixed, Prod.mk.injEq] at h
  refine ⟨?_, ?_, ?_, ?_⟩
  · rw [h.1]; exact hl.base_dvd
  · rw [h.2.1]; exact hl.end_dvd
  · rw [h.1]; exact hl.kernel
  · rw [h.2.2, hp]; exact hl.maps

theorem mathPow_two (p : Nat) : mathPow 2 p = BitVec.ofNat 32 (2 ^ p) := by
  induction p with
  | zero => rfl
  | succ p ih =>
    rw [mathPow, ih, pow_succ, ofNat_mul]
    rfl

theorem toNat_mathPow {p : Nat} (hp : p < 32) : (mathPow 2 p).toNat = 2 ^ p := by
  rw [mathPow_two, toNat_ofNat, Nat.mod_eq_of_lt (Nat.pow_lt_pow_right (by decide) hp)]

theorem pageSize_shiftLeft (o : Nat) : pageSize <<< o = BitVec.ofNat 32 (4096 * 2 ^ o) := by
  have h : pageSize = BitVec.ofNat 32 4096 := by decide
  rw [h]
  apply eq_of_toNat_eq
  simp only [toNat_shiftLeft, toNat_ofNat, Nat.shiftLeft_eq]

theorem pageSize_halve (ho : o + 1 ≤ maxOrder) : (pageSize <<< (o + 1)) >>> 1 = pageSize <<< o := by
  unfold maxOrder at ho
  have hlt : 2 ^ (o + 1) ≤ 2 ^ 6 := Nat.pow_le_pow_right (by decide) ho
  apply eq_of_toNat_eq
  rw [toNat_ushiftRight, pageSize_shiftLeft, pageSize_shiftLeft, toNat_ofNat,
    toNat_ofNat, Nat.shiftRight_eq_div_pow]
  rw [pow_succ] at hlt ⊢
  omega

theorem incPageRef_ref (hl : Layout mm) (hn : n ≤ mm.pages) : (mm.incPageRef (va2pa (mm.pageAddr n))).ref =
      update mm.ref (mm.frame n) (mm.ref (mm.frame n) + 1) := by
  simp only [incPageRef, hl.frame_eq hn]

theorem pageAddr_add (n m : Nat) : BitVec.ofNat 32 (4096 * m) + mm.pageAddr n = mm.pageAddr (n + m) := by
  rw [pageAddr, pageAddr, Nat.mul_add, ofNat_add]
  ac_rfl

theorem Rep.expandLoop {low fuel : Nat} (h : Rep mm b) (hl : Layout mm)
    (hw : b.Wf maxOrder mm.pages) (ho : low + fuel ≤ maxOrder) (ha : 2 ^ (low + fuel) ∣ n)
    (hb : n + 2 ^ (low + fuel) ≤ mm.pages) (hc : b.Clear (low + fuel) n) :
    Rep (mm.expandLoop low fuel (pageSize <<< (low + fuel)) (mm.pageAddr n)).1 (b.split low fuel n).1 ∧
      (mm.expandLoop low fuel (pageSize <<< (low + fuel)) (mm.pageAddr n)).2 =
        mm.pageAddr (b.split low fuel n).2 := by
  induction fuel generalizing mm b n with
  | zero => exact ⟨h, rfl⟩
  | succ fuel ih =>
    have hs : 2 ^ (low + (fuel + 1)) = 2 ^ (low + fuel) + 2 ^ (low + fuel) := by
      rw [← Nat.add_assoc, pow_succ]; omega
    obtain ⟨hput, hal, hclear⟩ := hw.halve (o := low + fuel) (by omega) ha hb hc
    have hhalf : b.Clear (low + fuel) n := by
      intro o' m hm
      have := hc o' m hm
      omega
    have hindex := toNat_index (o := low + fuel) (show n ≤ mm.pages by omega)
    have hlt := hl.index_lt (o := low + fuel) (by omega) (show n < mm.pages by omega)
    have hrep : Rep ((mm.addToHead (low + fuel) (mm.pageAddr n)).markUsed (mm.pageAddr n) (low + fuel))
        ((b.put (low + fuel) n).toggle (low + fuel) (n / 2 ^ (low + fuel + 1))) := by
      have htog := h.toggle hl (show low + fuel ≤ maxOrder by omega) (hindex.trans_lt hlt)
      rw [hindex] at htog
      exact ⟨(h.put hw (by omega) hhalf (by omega)).rings, htog.bits⟩
    have hsize : (pageSize <<< (low + (fuel + 1))) >>> 1 = pageSize <<< (low + fuel) := pageSize_halve ho
    simp only [Mm.expandLoop, Buddy.split, hsize]
    have haddr : pageSize <<< (low + fuel) + mm.pageAddr n = mm.pageAddr (n + 2 ^ (low + fuel)) := by
      rw [pageSize_shiftLeft, pageAddr_add]
    rw [haddr]
    exact ih hrep ⟨hl.1, hl.2, hl.3, hl.4⟩ hput (by omega) hal (by show _ ≤ mm.pages; omega) hclear

theorem incPages_spec (hl : Layout mm) {k : Nat} (hn : n + k ≤ mm.pages) :
    (mm.incPages k (mm.pageAddr n)).links = mm.links ∧ (mm.incPages k (mm.pageAddr n)).bits = mm.bits ∧
      (mm.incPages k (mm.pageAddr n)).fixed = mm.fixed ∧
      ∀ j, (mm.incPages k (mm.pageAddr n)).ref (mm.frame j) =
        mm.ref (mm.frame j) + (if n ≤ j ∧ j < n + k then 1 else 0) := by
  induction k generalizing mm n with
  | zero => exact ⟨rfl, rfl, rfl, fun j => by simp [Mm.incPages, show ¬(n ≤ j ∧ j < n) by omega]⟩
  | succ k ih =>
    have hone : pageSize = BitVec.ofNat 32 (4096 * 1) := by decide
    have hnext : mm.pageAddr n + pageSize = mm.pageAddr (n + 1) := by
      rw [hone, BitVec.add_comm, pageAddr_add]
    have hl' : Layout (mm.incPageRef (va2pa (mm.pageAddr n))) := ⟨hl.1, hl.2, hl.3, hl.4⟩
    obtain ⟨h1, h2, h3, h4⟩ := ih hl' (show n + 1 + k ≤ mm.pages by omega)
    simp only [Mm.incPages, hnext]
    refine ⟨h1, h2, h3, fun j => ?_⟩
    have hj : _ = (mm.incPageRef (va2pa (mm.pageAddr n))).ref (mm.frame j) +
        (if n + 1 ≤ j ∧ j < n + 1 + k then 1 else 0) := h4 j
    rw [incPageRef_ref hl (by omega)] at hj
    refine hj.trans ?_
    by_cases hjn : j = n
    · subst j
      simp [show n < n + (k + 1) by omega]
    · have hne : mm.frame j ≠ mm.frame n := by unfold frame; omega
      rw [update_of_ne hne]
      by_cases hin : n ≤ j ∧ j < n + (k + 1)
      · rw [if_pos hin, if_pos (by omega)]
      · rw [if_neg hin, if_neg (by omega)]

end

end Mm

end BabyOS
