import BabyOS.VmInv

open Function Option

open List

namespace BabyOS

open Machine

section

variable {areas : List VmArea} {vma : VmArea} {va : Word}

theorem vpage_of (va : Word) : vpage (pdIndex va) (ptIndex va) = (va &&& pageMask).toNat := by
  rw [← pdIndex_and, ← ptIndex_and, vpage_index]
  rw [toNat_and_pageMask]
  exact Nat.dvd_mul_left _ _

theorem AreasOk.findVma_user (h : AreasOk areas) (hf : findVma areas va = some vma) : va < kernelBase := by
  obtain ⟨xs, ys, rfl, hlt, -⟩ := findVma_split hf
  have hle := (h.inUser vma (by simp)).user
  have hu : userVmSize.toNat = kernelBase.toNat := by decide
  rw [BitVec.lt_def] at hlt ⊢
  omega

theorem AreasOk.covered_page (h : AreasOk areas) (hf : findVma areas va = some vma) (hs : vma.start ≤ va) :
    PageIn areas va := by
  obtain ⟨xs, ys, rfl, hlt, -⟩ := findVma_split hf
  have hdvd := (h.inUser vma (by simp)).start_dvd
  rw [BitVec.lt_def] at hlt
  rw [BitVec.le_def] at hs
  refine ⟨vma, by simp, ?_, ?_⟩ <;> rw [vpage_of, toNat_and_pageMask] <;>
    simp only [VmArea.lo, VmArea.hi] <;> omega

variable {xs ys : List VmArea} {addr prot stop : Word} {pool : Bool}

theorem expandStack_append (hx : ∀ a ∈ xs, a.stop ≤ va) (hv : va < vma.stop) :
    expandStack va (xs ++ vma :: ys) = xs ++ { vma with start := va &&& pageMask } :: ys := by
  induction xs with
  | nil => simp only [nil_append, expandStack, if_pos hv]
  | cons a xs ih =>
    have ha : ¬va < a.stop := by
      rw [BitVec.not_lt]
      exact hx a (by simp)
    rw [cons_append, expandStack, if_neg ha, ih fun b hb => hx b (by simp [hb]), cons_append]

theorem AreasOk.expandStack (h : AreasOk areas) (hf : findVma areas va = some vma)
    (hs : va < vma.start) : AreasOk (expandStack va areas) ∧ (∀ x, InAreas areas x →
        InAreas (BabyOS.expandStack va areas) x) ∧ PageIn (BabyOS.expandStack va areas) va := by
  obtain ⟨xs, ys, rfl, hlt, hxs⟩ := findVma_split hf
  have hmask := toNat_and_pageMask va
  have hin := h.inUser vma (by simp)
  rw [expandStack_append hxs hlt]
  rw [BitVec.lt_def] at hlt hs
  refine ⟨?_, fun x hx => ?_, { vma with start := va &&& pageMask }, by simp, ?_, ?_⟩
  · refine (h.sublist ?_).insert_between ⟨hin.user, ?_, hin.stop_dvd⟩ ?_ (fun a ha => ?_) (fun b hb => ?_)
    · exact Sublist.append_left (sublist_cons_self _ _) _
    · rw [hmask]
      exact Nat.dvd_mul_left _ _
    · simp only [hmask]
      omega
    · have hdvd := (h.inUser a (by simp [ha])).stop_dvd
      have hle := hxs a ha
      rw [BitVec.le_def] at hle
      simp only [VmArea.lo, VmArea.hi, hmask]
      omega
    · exact (pairwise_cons.mp (pairwise_append.mp h.spans.2).2.1).1 b hb
  · rw [InAreas, covered_append, covered_cons] at hx ⊢
    refine hx.imp_right (Or.imp_left fun hmem => ⟨?_, hmem.2⟩)
    have hlow := hmem.1
    simp only [VmArea.lo, hmask] at hlow ⊢
    omega
  · rw [vpage_of]
    rfl
  · rw [vpage_of, hmask]
    simp only [VmArea.hi]
    omega

theorem mapArea_fst {len : Word} (h : (mapArea areas addr len prot pool).1 ≠ -1) :
    (mapArea areas addr len prot pool).1 = addr := by
  unfold mapArea at h ⊢
  cases pool with
  | false => simp at h
  | true =>
    simp only [if_true] at h ⊢
    split at h
    next => exact absurd rfl h
    next => rfl

theorem AreasOk.doMmap_fixed (h : AreasOk areas)
    (hne : (BabyOS.doMmap areas addr pageSize prot mapFixed pool).1 ≠ -1) :
    (BabyOS.doMmap areas addr pageSize prot mapFixed pool).1 = addr ∧ ¬InAreas areas addr.toNat := by
  unfold BabyOS.doMmap at hne ⊢
  simp only [show pageAlign pageSize = pageSize by decide, show ¬pageSize = 0 by decide, if_false,
    if_pos (show mapFixed &&& mapFixed ≠ 0 by decide)] at hne ⊢
  split_ifs at hne ⊢ with hrange hpage
  · exact absurd rfl hne
  · exact absurd rfl hne
  have hsize : pageSize.toNat = 4096 := by decide
  have huser : userVmSize.toNat = 3221225472 := by decide
  simp only [not_or, gt_iff_lt, BitVec.not_lt] at hrange
  obtain ⟨-, -, hle⟩ := hrange
  rw [BitVec.le_def, BitVec.toNat_sub_of_le (by decide), huser, hsize] at hle
  cases hf : findVma areas addr with
  | none =>
    rw [hf] at hne
    refine ⟨mapArea_fst hne, fun ⟨a, ha, h1, h2⟩ => ?_⟩
    have hno := List.find?_eq_none.mp hf a ha
    simp only [decide_eq_true_eq, BitVec.not_lt, BitVec.le_def] at hno
    simp only [VmArea.hi] at h2
    omega
  | some p =>
    rw [hf] at hne
    dsimp only at hne ⊢
    split_ifs at hne ⊢ with hover
    · exact absurd rfl hne
    refine ⟨mapArea_fst hne, fun ⟨a, ha, h1, h2⟩ => ?_⟩
    obtain ⟨xs, ys, rfl, hlt, hxs⟩ := findVma_split hf
    rw [gt_iff_lt, BitVec.not_lt, BitVec.le_def, BitVec.toNat_add, hsize] at hover
    simp only [VmArea.lo, VmArea.hi] at h1 h2
    rcases mem_append.mp ha with ha | ha
    · have := hxs a ha
      rw [BitVec.le_def] at this
      omega
    · rcases mem_cons.mp ha with rfl | ha
      · omega
      · have hp := (pairwise_cons.mp (pairwise_append.mp h.spans.2).2.1).1 a ha
        have hne' := h.spans.1 p (by simp)
        simp only [VmArea.lo, VmArea.hi] at hp hne'
        omega

theorem cutArea_append {flags : Word} (hx : ∀ a ∈ xs, a.stop ≤ va)
    (hv : va < vma.stop) : cutArea va stop prot flags (xs ++ vma :: ys) =
      xs ++ ((if vma.start = va then [] else [{ vma with stop := va }]) ++
        ((if stop = vma.stop then [] else [⟨stop, vma.stop, prot, flags⟩]) ++ ys)) := by
  induction xs with
  | nil => simp only [nil_append, cutArea, if_pos hv, append_assoc]
  | cons a xs ih =>
    have ha : ¬va < a.stop := by
      rw [BitVec.not_lt]
      exact hx a (by simp)
    rw [cons_append, cutArea, if_neg ha, ih fun b hb => hx b (by simp [hb]), cons_append]

theorem AreasOk.cutArea (h : AreasOk areas) (hf : findVma areas va = some vma) (hs : vma.start ≤ va)
    (hlt : va < stop) (hle : stop ≤ vma.stop) (hva : 4096 ∣ va.toNat)
    (hstop : 4096 ∣ stop.toNat) (prot flags : Word) : AreasOk (cutArea va stop prot flags areas) ∧
      ∀ x, InAreas areas x → ¬(va.toNat ≤ x ∧ x < stop.toNat) →
        InAreas (BabyOS.cutArea va stop prot flags areas) x := by
  obtain ⟨xs, ys, rfl, hv, hxs⟩ := findVma_split hf
  have hin := h.inUser vma (by simp)
  obtain ⟨-, hpair, hcross⟩ := pairwise_append.mp h.spans.2
  have hys := (pairwise_cons.mp hpair).1
  have hxv : ∀ a ∈ xs, a.hi ≤ vma.lo := fun a ha => hcross a ha vma (by simp)
  rw [BitVec.lt_def] at hlt
  rw [BitVec.le_def] at hs hle
  rw [cutArea_append hxs hv]
  have hrest : AreasOk (xs ++ ys) :=
    h.sublist (Sublist.append_left (sublist_cons_self _ _) _)
  have hsecond : ∃ second, second = (if stop = vma.stop then [] else [⟨stop, vma.stop, prot, flags⟩]) ∧
      AreasOk (xs ++ (second ++ ys)) ∧ (∀ b ∈ second, va.toNat ≤ b.lo) ∧
      ∀ x, stop.toNat ≤ x → x < vma.hi → InAreas second x := by
    refine ⟨_, rfl, ?_⟩
    split_ifs with heq
    · refine ⟨hrest, by simp, fun x h1 h2 => ?_⟩
      rw [VmArea.hi, ← heq] at h2
      omega
    · have hne : stop.toNat ≠ vma.stop.toNat := fun he => heq (BitVec.eq_of_toNat_eq he)
      refine ⟨hrest.insert_between ⟨hin.user, hstop, hin.stop_dvd⟩ (by dsimp only; omega)
        (fun a ha => ?_) (fun b hb => hys b hb), fun b hb => ?_,
        fun x h1 h2 => covered_cons.mpr (Or.inl ⟨h1, h2⟩)⟩
      · have := hxv a ha
        simp only [VmArea.lo, VmArea.hi] at this ⊢
        omega
      · rw [mem_singleton.mp hb]
        exact hlt.le
  obtain ⟨second, hdef, hok, hlow, hcov⟩ := hsecond
  rw [← hdef]
  split_ifs with heq
  · refine ⟨by simpa using hok, fun x hx hout => ?_⟩
    simp only [covered_append, covered_cons] at hx ⊢
    rcases hx with hx | ⟨h1, h2⟩ | hx
    · exact Or.inl hx
    · refine Or.inr (Or.inr (Or.inl (hcov x ?_ h2)))
      rw [VmArea.lo, heq] at h1
      omega
    · exact Or.inr (Or.inr (Or.inr hx))
  · have hne : vma.start.toNat ≠ va.toNat := fun he => heq (BitVec.eq_of_toNat_eq he)
    refine ⟨hok.insert_between ⟨?_, hin.start_dvd, hva⟩ (by dsimp only; omega) hxv (fun b hb => ?_),
      fun x hx hout => ?_⟩
    · have := hin.user
      dsimp only
      omega
    · rcases mem_append.mp hb with hb | hb
      · exact hlow b hb
      · have := hys b hb
        simp only [VmArea.hi, VmArea.lo] at this ⊢
        omega
    · simp only [covered_append, covered_cons] at hx ⊢
      rcases hx with hx | ⟨h1, h2⟩ | hx
      · exact Or.inl hx
      · rcases Nat.lt_or_ge x va.toNat with hx' | hx'
        · exact Or.inr (Or.inl (Or.inl ⟨h1, hx'⟩))
        · exact Or.inr (Or.inr (Or.inl (hcov x (by omega) h2)))
      · exact Or.inr (Or.inr (Or.inr hx))

end

namespace Sys

section

variable {s s' : Sys} {own own' : Slot → Option Nat} {wr wr' : Slot → Bool} {p n : Nat} {vmm : Vmm}
  {m' : Machine} {va : Word}

theorem views_congr (hfix : s'.machine.mm.fixed = s.machine.mm.fixed)
    (huser : ∀ p i j, own' (.user p i j) = own (.user p i j)) (hmem : ∀ p i j n, own (.user p i j) = some n →
      s'.machine.mem (s.machine.page n) = s.machine.mem (s.machine.page n)) :
    s'.views own' = s.views own := by
  funext p i j
  rw [views, views, huser, page_of_fixed hfix]
  cases hn : own (.user p i j) with
  | none => rfl
  | some n => simp only [map_some, hmem p i j n hn]

variable {write : Bool} {vmm' : Vmm} {e : VmEvent} {c : Nat}

section

variable (h : Inv s own wr) (hp : s.procs p = some vmm)
include h hp

theorem Inv.translate {page : Word} (ht : s.machine.translate vmm.pgDir va write = some page) :
    ∃ n, va < kernelBase ∧ own (.of p va) = some n ∧
      page = s.machine.page n ∧ (write → wr (.of p va) = true) := by
  have hva : va < kernelBase := by
    rw [← BitVec.not_le]
    intro hge
    rw [Machine.translate, if_pos (show va ≥ kernelBase from hge)] at ht
    simp at ht
  rw [(h.walks p vmm hp).translate h.owned hva] at ht
  cases hu : own (.of p va) with
  | none => simp [hu] at ht
  | some n =>
    rw [hu] at ht
    dsimp only at ht
    split at ht
    next => simp at ht
    next hcase =>
      refine ⟨n, hva, rfl, (some.inj ht).symm, fun hwrite => ?_⟩
      by_contra hf
      exact hcase ⟨hwrite, by simpa using hf⟩

theorem Inv.fillUser {i j : Nat} (hu : own (.user p i j) = some n) (bytes : Nat → Byte) :
    Inv { s with machine := s.machine.fill (s.machine.page n) bytes } own wr := by
  obtain ⟨d, hd, hpg⟩ := h.dir_eq hp
  have hother : ∀ {u a}, own u = some a → u.isUser = false →
      (s.machine.fill (s.machine.page n) bytes).mem (s.machine.page a) = s.machine.mem (s.machine.page a) := by
    intro u a ha huser
    refine fill_mem_of_ne _ (h.owned.page_ne ha hu huser ?_).symm
    rintro rfl
    cases huser
  have hinv : Inv (s.setProc p (s.machine.fill (s.machine.page n) bytes) vmm) own wr :=
    h.setProc hp (h.owned.of_eq rfl) rfl rfl (fun _ _ _ => rfl) (fun _ _ => rfl)
      (fun q hq => fill_mem_of_ne _ (hq _ n hu (Or.inr (Or.inr rfl))))
      ((h.walks p vmm hp).congr rfl (by rw [hpg]; exact hother hd rfl) (fun _ => rfl)
        (fun i t ht => hother ht rfl) (fun _ _ _ => rfl) (fun _ _ _ => rfl))
      (h.areas p vmm hp) (h.covered p vmm hp) h.sole
  rwa [Sys.setProc, ← hp, update_eq_self] at hinv

theorem Inv.fill (hu : own (.of p va) = some n)
    (hwr : wr (.of p va) = true) (bytes : Nat → Byte) :
    Inv { s with machine := s.machine.fill (s.machine.page n) bytes } own wr ∧
      { s with machine := s.machine.fill (s.machine.page n) bytes }.views own =
        (s.views own).after (.fresh p va bytes) := by
  have honly := h.sole p _ _ n hu hwr
  have hother : ∀ {u a}, own u = some a → u ≠ .of p va →
      (s.machine.fill (s.machine.page n) bytes).mem (s.machine.page a) =
        s.machine.mem (s.machine.page a) := by
    intro u a ha hne
    refine fill_mem_of_ne _ fun he => ?_
    have := page_inj h.owned.layout (h.owned.holds.inside u a ha)
      (h.owned.holds.inside _ n hu) he
    exact hne (honly u (this ▸ ha))
  refine ⟨h.fillUser hp hu bytes, ?_⟩
  funext q i j
  simp only [Views.after]
  by_cases hq : q = p
  · subst q
    rw [update_self]
    by_cases hij : i = pdIndex va ∧ j = ptIndex va
    · obtain ⟨rfl, rfl⟩ := hij
      rw [if_pos ⟨rfl, rfl⟩, views, hu]
      exact congrArg some (fill_mem_self _)
    · rw [if_neg hij, views, views]
      cases ha : own (.user p i j) with
      | none => rfl
      | some a => exact congrArg some (hother ha (by simpa using hij))
  · rw [update_of_ne hq, views, views]
    cases ha : own (.user q i j) with
    | none => rfl
    | some a => exact congrArg some (hother ha (by simp [hq]))

end

theorem Inv.store (h : Inv s own wr) {b : Byte} (hs : s.store p va b = some s') :
    Follows s own s' (.store p va b) := by
  obtain ⟨vmm, hp, hs⟩ := bind_eq_some_iff.mp hs
  obtain ⟨page, ht, rfl⟩ := map_eq_some_iff.mp hs
  obtain ⟨n, hva, hu, rfl, hwr⟩ := h.translate hp ht
  obtain ⟨hinv, hviews⟩ := h.fill hp hu (hwr rfl)
    (update (s.machine.mem (s.machine.page n)) (pageOffset va) b)
  refine ⟨own, wr, hinv, hviews.trans ?_⟩
  have hview : s.views own p (pdIndex va) (ptIndex va) = some (s.machine.mem (s.machine.page n)) := by
    rw [views, hu, map_some]
  simp only [Views.after]
  congr 1
  funext i j
  by_cases hij : i = pdIndex va ∧ j = ptIndex va
  · obtain ⟨rfl, rfl⟩ := hij
    rw [if_pos ⟨rfl, rfl⟩, if_pos ⟨rfl, rfl⟩, hview, map_some]
  · rw [if_neg hij, if_neg hij]

theorem and_pageMask_lt (h : va < kernelBase) : (va &&& pageMask) < kernelBase := by
  have hmask := toNat_and_pageMask va
  rw [BitVec.lt_def] at h ⊢
  omega

theorem translate_and (hva : va < kernelBase) (m : Machine) (pgDir : Word) (write : Bool) :
    m.translate pgDir (va &&& pageMask) write = m.translate pgDir va write := by
  have hge : ∀ x : Word, x < kernelBase → ¬x ≥ kernelBase := fun x hx => by
    rw [ge_iff_le, BitVec.not_le]
    exact hx
  rw [Machine.translate, if_neg (hge _ (and_pageMask_lt hva)), pdIndex_and, ptIndex_and,
    Machine.translate, if_neg (hge _ hva)]

structure Extends (vmm vmm' : Vmm) : Prop where
  pgDir : vmm'.pgDir = vmm.pgDir
  areas : AreasOk vmm'.areas
  covers : ∀ x, Covered VmArea.lo VmArea.hi vmm.areas x → Covered VmArea.lo VmArea.hi vmm'.areas x

theorem Inv.setAreas (h : Inv s own wr) (hp : s.procs p = some vmm) (he : Extends vmm vmm') :
    Inv (s.setProc p s.machine vmm') own wr :=
  h.setProc hp h.owned rfl he.pgDir (fun _ _ _ => rfl) (fun _ _ => rfl) (fun _ _ => rfl)
    (h.walks p vmm hp) he.areas (fun i j n hn => he.covers _ (h.covered p vmm hp i j n hn)) h.sole

theorem Inv.extend (h : Inv s own wr) (hp : s.procs p = some vmm) (he : Extends vmm vmm') :
    Follows s own (s.setProc p s.machine vmm') .silent :=
  ⟨own, wr, h.setAreas hp he, views_congr rfl (fun _ _ _ => rfl) (fun _ _ _ _ _ => rfl)⟩

variable {addr vaddr : Word} {vma : VmArea} {junk : Nat → Byte} {kept : Word → Bool} {pool : Bool}

section

variable (h : Inv s own wr) (hp : s.procs p = some vmm) (hva : va < kernelBase)
include h hp hva

theorem Inv.firstTouch (hu : own (.of p va) = none) (he : Extends vmm vmm') (hnew : PageIn vmm'.areas va)
    {m1 : Machine} (ha : s.machine.allocPage = some (m1, addr)) {bytes : Nat → Byte}
    (hm : (m1.fill (va2pa addr) bytes).mapPages vmm.pgDir va (va2pa addr) pageSize (pteW ||| pteU) =
      some m') : Follows s own (s.setProc p m' vmm') (.fresh p va bytes) ∧
      (∀ write, m'.translate vmm.pgDir va write = some (va2pa addr)) ∧ m'.mem (va2pa addr) = bytes := by
  obtain ⟨d, hd, hpg⟩ := h.dir_eq hp
  obtain ⟨own', n, t, ht, hw, hpa, hbytes, -⟩ :=
    h.owned.firstTouch h.spare (h.walks p vmm hp) hd hpg hva hu ha hm
  refine ⟨⟨own', _, h.touched hp hd ht hw he.pgDir he.areas he.covers hnew, ?_⟩, fun write => ?_, ?_⟩
  · rw [h.touched_views hd ht, hbytes]
    rfl
  · rw [hw.translate ht.owned hva, ht.user, hpa, page_of_fixed ht.fixed]
    simp
  · rw [hpa, hbytes]

theorem Inv.makePteWrite (hu : own (.of p va) = some n) (he : Extends vmm vmm')
    (href : s.machine.mm.getPageRef (s.machine.va2paOf vmm.pgDir va) = 1) :
    ∃ wr', Inv (s.setProc p (s.machine.makePteWrite vmm.pgDir va) vmm') own wr' ∧
      (s.setProc p (s.machine.makePteWrite vmm.pgDir va) vmm').views own = s.views own := by
  obtain ⟨d, hd, hpg⟩ := h.dir_eq hp
  have hn := h.owned.holds.inside _ _ hu
  have hone : holdCount own n = 1 := by
    rw [(h.walks p vmm hp).va2paOf h.owned hva, hu] at href
    dsimp only at href
    rw [Machine.page, Mm.getPageRef_add h.owned.layout hn
      (by rw [toNat_sub_pageMask]; exact Nat.mod_lt _ (by decide))] at href
    rw [← h.owned.holds.counted n hn, href]
    rfl
  obtain ⟨t, ht, hmm, hmem, hw⟩ := (h.walks p vmm hp).makePteWrite h.owned hd hpg hva hu
  generalize s.machine.makePteWrite vmm.pgDir va = m at *
  have hfix : m.mm.fixed = s.machine.mm.fixed := by rw [hmm]
  refine ⟨_, h.setProc hp (h.owned.of_eq hmm) hfix he.pgDir (fun _ _ _ => rfl)
    (fun u hne => update_of_ne (hne _ _) _ _)
    (fun q hq => hmem q (hq _ t ht (Or.inr (Or.inl ⟨_, rfl⟩)))) hw he.areas
    (fun i j a ha => he.covers _ (h.covered p vmm hp i j a ha)) (fun q i j a ha hwr u hau => ?_), ?_⟩
  · by_cases hq : Slot.user q i j = .of p va
    · cases hq
      obtain rfl : n = a := some.inj (hu.symm.trans ha)
      obtain ⟨b, hb⟩ := Set.ncard_eq_one.mp hone
      have hu1 : u ∈ holders own n := hau
      have hu2 : Slot.of p va ∈ holders own n := ha
      rw [hb] at hu1 hu2
      exact hu1.trans hu2.symm
    · rw [update_of_ne hq] at hwr
      exact h.sole q i j a ha hwr u hau
  · exact views_congr hfix (fun _ _ _ => rfl)
      fun q i j a ha => hmem _ (h.owned.page_ne ht ha rfl (by simp))

theorem Inv.doProtectionFault (hu : own (.of p va) = some n) (he : Extends vmm vmm')
    (hm : s.machine.doProtectionFault vmm.pgDir vma va write = some m') :
    Follows s own (s.setProc p m' vmm') .silent := by
  obtain ⟨d, hd, hpg⟩ := h.dir_eq hp
  unfold Machine.doProtectionFault at hm
  dsimp only at hm
  split at hm
  next =>
    cases hm
    exact h.extend hp he
  split at hm
  next =>
    cases hm
    exact h.extend hp he
  split at hm
  next href =>
    cases hm
    obtain ⟨wr', hinv, hviews⟩ := h.makePteWrite hp hva hu he href
    exact ⟨own, wr', hinv, hviews⟩
  cases ha : s.machine.allocPage with
  | none => simp [ha] at hm
  | some r =>
    rw [ha] at hm
    obtain ⟨own', k, t, ht, hw, hbytes, -⟩ :=
      h.owned.copyOnWrite h.spare (h.walks p vmm hp) hd hpg hva hu ha hm
    refine ⟨own', _, h.touched hp hd ht hw he.pgDir he.areas he.covers
      (he.covers _ (h.covered p vmm hp _ _ n hu)), ?_⟩
    rw [h.touched_views hd ht, hbytes, Views.after]
    refine (congrArg (update (s.views own) p) ?_).trans (update_eq_self _ _)
    funext i j
    split_ifs with hij
    · obtain ⟨rfl, rfl⟩ := hij
      rw [views, hu, map_some]
    · rfl

theorem Inv.goodArea (he : Extends vmm vmm') (hnew : PageIn vmm'.areas va) (hstart : vma.start ≤ va)
    (hm : s.machine.goodArea vmm.pgDir vma va (present s.machine vmm.pgDir va) write junk = some m') :
    Follows s own (s.setProc p m' vmm') (faultEvent p vmm.pgDir va (present s.machine vmm.pgDir va) m') := by
  rw [(h.walks p vmm hp).present h.owned hva] at hm ⊢
  rw [Machine.goodArea, if_pos hstart] at hm
  cases hu : own (.of p va) with
  | some n =>
    rw [hu] at hm
    exact h.doProtectionFault hp hva hu he hm
  | none =>
    simp only [hu, isSome_none, Bool.false_eq_true, if_false] at hm
    cases ha : s.machine.allocPage with
    | none => simp [ha] at hm
    | some r =>
      rw [ha] at hm
      obtain ⟨hf, ht, hbytes⟩ := h.firstTouch hp (and_pageMask_lt hva)
        (by rw [Slot.of_and, hu]) he (by rw [PageIn, pdIndex_and, ptIndex_and]; exact hnew) ha hm
      have ht' : m'.translate vmm.pgDir va false = some (va2pa r.2) := by
        rw [← translate_and hva]
        exact ht false
      simp only [isSome_none, faultEvent, ht', hbytes]
      have hsame : ∀ v : Views, v.after (.fresh p (va &&& pageMask) (r.1.recycled (va2pa r.2) junk)) =
          v.after (.fresh p va (r.1.recycled (va2pa r.2) junk)) := fun v => by
        simp only [Views.after, pdIndex_and, ptIndex_and]
      obtain ⟨own', wr', h1, h2⟩ := hf
      exact ⟨own', wr', h1, h2.trans (hsame _)⟩

end

def Drops (own own' : Slot → Option Nat) : Prop := ∀ u n, own' u = some n → own u = some n

theorem drops_of (hnone : ∀ i j, own' (.user p i j) = none) (htab : ∀ k, own' (.table p k) = none)
    (hkeep : ∀ u, (∀ k, u ≠ .table p k) → (∀ i j, u ≠ .user p i j) → own' u = own u) : Drops own own' := by
  intro u n hu
  rw [← hkeep u, hu]
  · rintro k rfl
    simp [htab] at hu
  · rintro i j rfl
    simp [hnone] at hu

section

variable (h : Inv s own wr)
include h

section

variable (hp : s.procs p = some vmm)
include hp

theorem Inv.release : ∃ m' own', s.machine.release vmm = some (m', { vmm with areas := [] }) ∧
      Inv (s.setProc p m' { vmm with areas := [] }) own' wr ∧
      (s.setProc p m' { vmm with areas := [] }).views own' = (s.views own).after (.release p) ∧
      (∀ i j, own' (.user p i j) = none) ∧ (∀ k, own' (.table p k) = none) ∧
      (∀ u, (∀ k, u ≠ .table p k) → (∀ i j, u ≠ .user p i j) → own' u = own u) ∧
      m'.mm.fixed = s.machine.mm.fixed ∧
      ∀ q, (∀ d, own (.dir p) = some d → q ≠ s.machine.page d) → m'.mem q = s.machine.mem q := by
  obtain ⟨d, hd, hpg⟩ := h.dir_eq hp
  obtain ⟨m', own', he, hown, hfix, hmem, hnone, htab, hkeep, hw⟩ :=
    release_spec h.owned (h.walks p vmm hp) hd hpg (h.areas p vmm hp) (h.covered p vmm hp)
  refine ⟨m', own', he, h.setProc hp hown hfix rfl hkeep (fun _ _ => rfl) (fun q hq => ?_) hw
    ⟨⟨by simp, List.Pairwise.nil⟩, by simp⟩ (fun i j n hn => ?_) (fun q i j n hn hwr u hu => ?_), ?_, hnone,
    htab, hkeep, hfix, fun q hq => hmem q (hq d hd)⟩
  · exact hmem q (hq _ d ((hkeep _ (by simp) (by simp)).trans hd) (Or.inl rfl))
  · simp [hnone] at hn
  · have hdrops := drops_of hnone htab hkeep
    exact h.sole q i j n (hdrops _ _ hn) hwr u (hdrops _ _ hu)
  · funext q i j
    rw [Views.after]
    by_cases hq : q = p
    · subst q
      rw [update_self, views, hnone, map_none]
    · rw [update_of_ne hq, views, views, hkeep _ (by simp) (by simp [hq])]
      cases hn : own (.user q i j) with
      | none => rfl
      | some n =>
        refine congrArg some ?_
        show m'.mem (m'.page n) = _
        rw [page_of_fixed hfix]
        exact hmem _ (h.owned.page_ne hd hn rfl (by simp))

theorem Inv.bury (hnone : ∀ i j, own (.user p i j) = none) (htab : ∀ k, own (.table p k) = none) : Inv { s with
      procs := update s.procs p none
      zombies := update s.zombies p (some vmm.pgDir) } own wr := by
  have hprocs : ∀ {q vq}, update s.procs p none q = some vq → q ≠ p ∧ s.procs q = some vq := by
    intro q vq hq
    by_cases hqp : q = p
    · subst q
      simp at hq
    · rw [update_of_ne hqp] at hq
      exact ⟨hqp, hq⟩
  have hpz : p ≠ 0 := by
    rintro rfl
    simp [h.idle.1] at hp
  refine ⟨h.owned, h.spare, fun q vq hq => h.dirs q vq (hprocs hq).2, fun q dir hq => ?_,
    fun q d hq => ?_, fun q i t hq => ?_, fun q vq hq => h.walks q vq (hprocs hq).2,
    fun q vq hq => h.areas q vq (hprocs hq).2, fun q vq hq => h.covered q vq (hprocs hq).2, h.kernel,
    h.kept, ?_, h.idleDir, h.idlePde, h.sole⟩
  · dsimp only at hq ⊢
    by_cases hqp : q = p
    · subst q
      rw [update_self, Option.some.injEq] at hq
      subst hq
      exact ⟨update_self _ _ _, h.dirs p vmm hp⟩
    · rw [update_of_ne hqp] at hq ⊢
      exact h.zombie q dir hq
  · dsimp only
    by_cases hqp : q = p
    · subst q
      simp
    · rw [update_of_ne hqp, update_of_ne hqp]
      exact h.onlyDirs q d hq
  · dsimp only
    by_cases hqp : q = p
    · subst q
      simp [htab] at hq
    · rw [update_of_ne hqp]
      exact h.onlyTables q i t hq
  · dsimp only
    rw [update_of_ne hpz.symm, update_of_ne hpz.symm]
    exact h.idle

theorem Inv.exit (he : s.exit p vmm = some (s', e)) :
    ∃ own', Inv s' own' wr ∧ s'.views own' = (s.views own).after e ∧ Drops own own' := by
  obtain ⟨m', own', hr, hinv, hviews, hnone, htab, hkeep, -⟩ := h.release hp
  rw [Sys.exit, hr] at he
  cases some.inj he
  have hprocs : update (s.setProc p m' { vmm with areas := [] }).procs p none =
      update s.procs p none := update_idem _ _ _
  have hbury := hinv.bury setProc_self hnone htab
  rw [hprocs] at hbury
  exact ⟨own', hbury, hviews, drops_of hnone htab hkeep⟩

theorem Inv.exit_follows (he : s.exit p vmm = some (s', e)) : Follows s own s' e := by
  obtain ⟨own', hinv, hviews, -⟩ := h.exit hp he
  exact ⟨own', wr, hinv, hviews⟩

end

theorem Inv.setKept (howned : m'.Owned own') (hfix : m'.mm.fixed = s.machine.mm.fixed) (hmem : m'.mem = s.machine.mem)
    (htab : ∀ q i, own' (.table q i) = own (.table q i))
    (huser : ∀ q i j, own' (.user q i j) = own (.user q i j)) (hspare : own' .spare = none)
    {zombies : Nat → Option Word} (hdirs : ∀ q vq, s.procs q = some vq → own' (.dir q) = own (.dir q))
    (hzombie : ∀ q dir, zombies q = some dir → s.zombies q = some dir ∧ own' (.dir q) = own (.dir q))
    (honly : ∀ q d, own' (.dir q) = some d → (s.procs q).isSome ∨ (zombies q).isSome) (hidle : zombies 0 = none)
    (hkernel : ∀ n k, own' (.kernel n) = some k → k = n ∧ kept (s.machine.mm.pageAddr n) = true)
    (hkept : ∀ addr, kept addr = true → ∃ n, addr = s.machine.mm.pageAddr n ∧ own' (.kernel n) = some n) :
    Inv { s with machine := m', zombies := zombies, kernelPages := kept } own' wr ∧
      { s with machine := m', zombies := zombies, kernelPages := kept }.views own' = s.views own := by
  have hpage := page_of_fixed hfix
  have haddr := Mm.pageAddr_of_fixed hfix
  refine ⟨⟨howned, hspare, fun q vq hq => ?_, fun q dir hq => ?_, honly, fun q i t ht => ?_,
    fun q vq hq => ?_, h.areas, fun q vq hq i j n hn => ?_, fun n k hk => ?_, fun addr hk => ?_,
    ⟨h.idle.1, hidle⟩, fun n hn => ?_, fun i hi => ?_, fun q i j n hn hwr u hu => ?_⟩,
    views_congr hfix huser fun _ _ _ _ _ => by rw [hmem]⟩
  · dsimp only
    rw [hdirs q vq hq, haddr]
    exact h.dirs q vq hq
  · obtain ⟨h1, h2⟩ := hzombie q dir hq
    rw [h2, haddr]
    exact h.zombie q dir h1
  · rw [htab] at ht
    exact h.onlyTables q i t ht
  · exact (h.walks q vq hq).congr hfix (by rw [hmem]) (htab q) (fun _ _ _ => by rw [hmem])
      (fun _ _ _ => huser q _ _) (fun _ _ _ => rfl)
  · rw [huser] at hn
    exact h.covered q vq hq i j n hn
  · dsimp only
    rw [haddr]
    exact hkernel n k hk
  · dsimp only
    rw [haddr]
    exact hkept addr hk
  · dsimp only at hn ⊢
    rw [hpage]
    rw [Mm.pages_of_fixed hfix] at hn
    exact h.idleDir n hn
  · dsimp only
    rw [entry_congr (m := s.machine) (by rw [hmem])]
    exact h.idlePde i hi
  · have huu : u.isUser := by
      by_contra hf
      have := howned.shape.alone u (.user q i j) n (by simpa using hf) hu hn
      rw [← this] at hf
      exact hf rfl
    cases u with
    | user a b c =>
      rw [huser] at hn hu
      exact h.sole q i j n hn hwr _ hu
    | dir | table | kernel | spare => simp [Slot.isUser] at huu

omit h in
theorem drops_update (own : Slot → Option Nat) (u : Slot) : Drops own (update own u none) := by
  intro v n hv
  by_cases hvu : v = u
  · subst v
    simp at hv
  · rwa [update_of_ne hvu] at hv

theorem Inv.reap (hs : s.reap p = some s') :
    ∃ own', Drops own own' ∧ Inv s' own' wr ∧ s'.views own' = s.views own := by
  obtain ⟨dir, hz, hs⟩ := bind_eq_some_iff.mp hs
  obtain ⟨m', hm, rfl⟩ := map_eq_some_iff.mp hs
  obtain ⟨hp, d, hd, rfl⟩ := h.zombie p dir hz
  obtain ⟨m1, he, hown, hmem, hfix⟩ := h.owned.freePage hd (by simp)
  obtain rfl : m1 = m' := some.inj (he.symm.trans hm)
  have hkeep : ∀ u, u ≠ .dir p → update own (.dir p) none u = own u :=
    fun u hu => update_of_ne hu _ _
  refine ⟨_, drops_update own (.dir p), h.setKept hown hfix hmem (fun _ _ => hkeep _ (by simp))
    (fun _ _ _ => hkeep _ (by simp)) ((hkeep _ (by simp)).trans h.spare) (fun q vq hq => hkeep _ ?_) (fun q dir' hq => ?_)
    (fun q d' hq => ?_) ?_ (fun n k hk => h.kernel n k ((hkeep _ (by simp)).symm.trans hk))
    (fun addr hk => ?_)⟩
  · rintro ⟨⟩
    simp [hp] at hq
  · by_cases hqp : q = p
    · subst q
      simp at hq
    · rw [update_of_ne hqp] at hq
      exact ⟨hq, hkeep _ (by simpa using hqp)⟩
  · by_cases hqp : q = p
    · subst q
      simp at hq
    · rw [hkeep _ (by simpa using hqp)] at hq
      rw [update_of_ne hqp]
      exact h.onlyDirs q d' hq
  · have hpz : (0 : Nat) ≠ p := by
      rintro rfl
      simp [h.idle.2] at hz
    rw [update_of_ne hpz]
    exact h.idle.2
  · obtain ⟨n, h1, h2⟩ := h.kept addr hk
    exact ⟨n, h1, (hkeep _ (by simp)).trans h2⟩

theorem Inv.setKernel (hown : m'.Owned own') (hfix : m'.mm.fixed = s.machine.mm.fixed) (hmem : m'.mem = s.machine.mem)
    (hslots : ∀ u, (∀ n, u ≠ .kernel n) → own' u = own u)
    (hkernel : ∀ k a, own' (.kernel k) = some a → a = k ∧ kept (s.machine.mm.pageAddr k) = true)
    (hkept : ∀ addr, kept addr = true → ∃ k, addr = s.machine.mm.pageAddr k ∧ own' (.kernel k) = some k) :
    Inv { s with machine := m', kernelPages := kept } own' wr ∧
      { s with machine := m', kernelPages := kept }.views own' = s.views own :=
  h.setKept hown hfix hmem (fun _ _ => hslots _ (by simp)) (fun _ _ _ => hslots _ (by simp))
    ((hslots _ (by simp)).trans h.spare) (fun _ _ _ => hslots _ (by simp))
    (fun _ _ hq => ⟨hq, hslots _ (by simp)⟩) (fun q d hq => h.onlyDirs q d ((hslots _ (by simp)).symm.trans hq))
    h.idle.2 hkernel hkept

theorem Inv.kernel_none {n : Nat} (hnew : ∀ u, own u ≠ some n) : own (.kernel n) = none := by
  cases hk : own (.kernel n) with
  | none => rfl
  | some k => exact absurd ((h.kernel n k hk).1 ▸ hk) (hnew _)

theorem Inv.kalloc (hs : s.kalloc = some s') : ∃ n, Inv s' (update own (.kernel n) (some n)) wr ∧
      s'.views (update own (.kernel n) (some n)) = s.views own := by
  obtain ⟨r, ha, rfl⟩ := map_eq_some_iff.mp hs
  obtain ⟨n, hpa, haddr, hlt, hnew, -, -, -⟩ := h.owned.allocPage ha h.spare (by simp) (by simp)
  have hnone := h.kernel_none hnew
  obtain ⟨k, hpa', -, hlt', -, hown, hfix, hmem⟩ := h.owned.allocPage ha hnone (by simp) (by simp)
  obtain rfl : n = k := page_inj h.owned.layout hlt hlt' (hpa.symm.trans hpa')
  have hkeep : ∀ u, u ≠ .kernel n → update own (.kernel n) (some n) u = own u :=
    fun u hu => update_of_ne hu _ _
  refine ⟨n, h.setKernel hown hfix hmem (fun u hu => hkeep u (hu n)) (fun k a hk => ?_) (fun addr hk => ?_)⟩
  · by_cases hkn : k = n
    · subst k
      rw [update_self, Option.some.injEq] at hk
      exact ⟨hk.symm, by rw [← haddr, update_self]⟩
    · rw [hkeep _ (by simpa using hkn)] at hk
      obtain ⟨h1, h2⟩ := h.kernel k a hk
      refine ⟨h1, ?_⟩
      rw [update_apply, h2, ite_self]
  · by_cases hr : addr = r.2
    · exact ⟨n, hr.trans haddr, update_self _ _ _⟩
    · rw [update_of_ne hr] at hk
      obtain ⟨k, h1, h2⟩ := h.kept addr hk
      refine ⟨k, h1, (hkeep _ ?_).trans h2⟩
      rintro ⟨⟩
      simp [hnone] at h2

theorem Inv.kfree (hs : s.kfree addr = some s') :
    ∃ own', Drops own own' ∧ Inv s' own' wr ∧ s'.views own' = s.views own := by
  rw [Sys.kfree] at hs
  split_ifs at hs with hkept
  obtain ⟨m', hm, rfl⟩ := map_eq_some_iff.mp hs
  obtain ⟨n, rfl, hn⟩ := h.kept addr hkept
  obtain ⟨m1, he, hown, hmem, hfix⟩ := h.owned.freePage hn (by simp)
  obtain rfl : m1 = m' := some.inj (he.symm.trans hm)
  have hkeep : ∀ u, u ≠ .kernel n → update own (.kernel n) none u = own u :=
    fun u hu => update_of_ne hu _ _
  have hinj : ∀ k < s.machine.mm.pages, s.machine.mm.pageAddr k = s.machine.mm.pageAddr n → k = n :=
    fun k hk hkn => page_inj h.owned.layout hk (h.owned.holds.inside _ _ hn)
      (by rw [Machine.page, Machine.page, hkn])
  refine ⟨_, drops_update own (.kernel n), h.setKernel hown hfix hmem (fun u hu => hkeep u (hu n)) (fun k a hk => ?_) (fun addr hk => ?_)⟩
  · by_cases hkn : k = n
    · subst k
      simp at hk
    · rw [hkeep _ (by simpa using hkn)] at hk
      obtain ⟨rfl, h2⟩ := h.kernel k a hk
      refine ⟨rfl, ?_⟩
      rw [update_of_ne, h2]
      exact fun he => hkn (hinj a (h.owned.holds.inside _ _ hk) he)
  · by_cases hr : addr = s.machine.mm.pageAddr n
    · subst addr
      simp at hk
    · rw [update_of_ne hr] at hk
      obtain ⟨k, h1, h2⟩ := h.kept addr hk
      refine ⟨k, h1, (hkeep _ ?_).trans h2⟩
      rintro ⟨⟩
      exact hr h1

end

structure Source (s : Sys) (own : Slot → Option Nat) (wr : Slot → Bool) (p : Nat) (vmm : Vmm) : Prop where
  walks : s.machine.Walks own wr p (va2pa vmm.pgDir) ∅
  dir : ∀ n < s.machine.mm.pages, s.machine.page n = va2pa vmm.pgDir → own (.dir p) = some n
  areas : AreasOk vmm.areas
  covered : ∀ i j n, own (.user p i j) = some n → Covered VmArea.lo VmArea.hi vmm.areas (vpage i j)
  only : ∀ v, s.procs p = some v → v = vmm

section

variable (h : Inv s own wr)
include h

theorem Inv.not_live (hp : s.procs p = none) : (∀ i, own (.table p i) = none) ∧ ∀ i j, own (.user p i j) = none := by
  have htab : ∀ i, own (.table p i) = none := by
    intro i
    cases ht : own (.table p i) with
    | none => rfl
    | some t => simpa [hp] using h.onlyTables p i t ht
  refine ⟨htab, fun i j => ?_⟩
  cases hu : own (.user p i j) with
  | none => rfl
  | some n =>
    obtain ⟨t, ht⟩ := h.owned.shape.backed p i j n hu
    simp [htab] at ht

theorem Inv.unused (hp : s.procs p = none) (hz : s.zombies p = none) : Machine.Unused own p := by
  refine ⟨?_, h.not_live hp⟩
  cases hd : own (.dir p) with
  | none => rfl
  | some d => simpa [hp, hz] using h.onlyDirs p d hd

theorem Inv.source
    (hs : (if p = 0 then some ⟨[], s.kernelPgDir⟩ else s.procs p) = some vmm) : Source s own wr p vmm := by
  split_ifs at hs with hp
  · subst hp
    obtain ⟨htab, hnone⟩ := h.not_live h.idle.1
    cases some.inj hs
    refine ⟨⟨fun i hi => ?_, fun i t ht => ?_⟩, fun n hn he => absurd he (h.idleDir n hn),
      ⟨⟨by simp, List.Pairwise.nil⟩, by simp⟩, fun i j n hn => ?_, by simp [h.idle.1]⟩
    · rw [htab]
      exact h.idlePde i hi
    · simp [htab] at ht
    · simp [hnone] at hn
  · obtain ⟨d, hd, hpg⟩ := h.dir_eq hs
    refine ⟨h.walks p vmm hs, fun n hn he => ?_, h.areas p vmm hs, h.covered p vmm hs,
      fun v hv => some.inj (hv.symm.trans hs)⟩
    rw [page_inj h.owned.layout hn (h.owned.holds.inside _ _ hd) (he.trans hpg), hd]

theorem Inv.forked {d : Nat} (hv : Source s own wr p vmm) (hne : p ≠ c) (hc0 : c ≠ 0)
    (hzc : s.zombies c = none) (hf : Machine.Forking s.machine m' own own' wr p c d vmm.pgDir userPtrsPerPgd) :
    Inv (s.setProc c m' ⟨vmm.areas, s.machine.mm.pageAddr d⟩) own' (Machine.protect wr p c) := by
  have hdir : ∀ {q}, q ≠ c → own' (.dir q) = own (.dir q) :=
    fun hq => hf.keeps _ (by simpa using hq) (by simp) (by simp)
  have htab : ∀ {q k}, q ≠ c → own' (.table q k) = own (.table q k) :=
    fun hq => hf.keeps _ (by simp) (by simp [hq]) (by simp)
  have huser : ∀ {q i j}, q ≠ c → own' (.user q i j) = own (.user q i j) :=
    fun hq => hf.keeps _ (by simp) (by simp) (by simp [hq])
  refine h.install hc0 hzc hf.owned hf.fixed hf.keeps ⟨d, hf.dir, rfl⟩ (hf.mem _ fun u a hu _ => ?_) ?_
    (fun q vq hqc hq => ?_) hv.areas (fun i j n hn => ?_) (fun q i j n hn hwr u hu => ?_)
  · refine (h.idleDir a ?_).symm
    rw [← Mm.pages_of_fixed hf.fixed]
    exact hf.owned.holds.inside u a hu
  · have hw := hf.walks_child h.owned.shape
    rwa [page_of_fixed hf.fixed] at hw
  · by_cases hqp : q = p
    · subst q
      rw [hv.only vq hq]
      exact hf.walks_parent hne
    · obtain ⟨a, ha, hpg⟩ := h.dir_eq hq
      refine (h.walks q vq hq).congr hf.fixed ?_ (fun _ => htab hqc) (fun i t ht => ?_)
        (fun _ _ _ => huser hqc) (fun _ _ _ => ?_)
      · rw [hpg]
        exact hf.mem_other ((hdir hqc).trans ha) (by simp [hqc]) (by simp) (by simp)
      · exact hf.mem_other ((htab hqc).trans ht) (by simp) (by simp [hqp]) (by simp [hqc])
      · simp [Machine.protect, hqp, hqc]
  · rw [hf.child h.owned.shape] at hn
    exact hv.covered i j n hn
  · simp only [Machine.protect] at hwr
    split_ifs at hwr with hq
    rw [not_or] at hq
    have honly := h.sole q i j n ((huser hq.2).symm.trans hn) hwr
    by_cases huser' : ∃ k b, u = .user c k b
    · obtain ⟨k, b, rfl⟩ := huser'
      rw [hf.child h.owned.shape] at hu
      have := honly _ hu
      simp only [Slot.user.injEq] at this
      exact absurd this.1.symm hq.1
    · by_cases hnew : u = .dir c ∨ ∃ k, u = .table c k
      · refine (hf.owned.shape.alone u _ n ?_ hu hn).symm
        rcases hnew with rfl | ⟨k, rfl⟩ <;> rfl
      · simp only [not_or, not_exists] at hnew huser'
        rw [hf.keeps u hnew.1 hnew.2 huser'] at hu
        exact honly u hu

theorem Inv.fork_shares (hs : s.fork p c = some s') :
    ∃ own' wr', Inv s' own' wr' ∧ s'.views own' = (s.views own).after (.fork p c) ∧
      (∀ i j, own' (.user c i j) = own (.user p i j)) ∧
      ∀ q i j, q ≠ c → own' (.user q i j) = own (.user q i j) := by
  obtain ⟨vmm, hsrc, hs⟩ := bind_eq_some_iff.mp hs
  have hv := h.source hsrc
  split_ifs at hs with hbusy
  simp only [not_or, Bool.not_eq_true, isSome_eq_false_iff, isNone_iff_eq_none] at hbusy
  obtain ⟨hc0, hpc, hzc⟩ := hbusy
  obtain ⟨r, hr, rfl⟩ := map_eq_some_iff.mp hs
  have hne : p ≠ c := by
    rintro rfl
    simp [hc0, hpc] at hsrc
  obtain ⟨own', d, hd, hf⟩ := copyPageTable_spec h.owned hv.walks hne hv.dir (h.unused hpc hzc) hr
  refine ⟨own', _, hd ▸ h.forked hv hne hc0 hzc hf, ?_, fun i j => hf.child h.owned.shape i j,
    fun q i j hq => hf.keeps _ (by simp) (by simp) (by simp [hq])⟩
  have hview : ∀ q i j, (own' (.user q i j)).map (fun k => r.1.mem (r.1.page k)) =
      (own' (.user q i j)).map fun k => s.machine.mem (s.machine.page k) := by
    intro q i j
    cases hk : own' (.user q i j) with
    | none => rfl
    | some k =>
      rw [map_some, map_some, page_of_fixed hf.fixed, hf.mem_other hk (by simp) (by simp) (by simp)]
  funext q i j
  rw [Views.after]
  by_cases hq : q = c
  · subst q
    rw [update_self]
    show (own' (.user c i j)).map (fun k => r.1.mem (r.1.page k)) = _
    rw [hview, hf.child h.owned.shape, views]
  · rw [update_of_ne hq]
    show (own' (.user q i j)).map (fun k => r.1.mem (r.1.page k)) = _
    rw [hview, hf.keeps _ (by simp) (by simp) (by simp [hq]), views]

theorem Inv.fork (hs : s.fork p c = some s') : Follows s own s' (.fork p c) := by
  obtain ⟨own', wr', hinv, hviews, -⟩ := h.fork_shares hs
  exact ⟨own', wr', hinv, hviews⟩

end

section

variable (h : Inv s own wr) (hp : s.procs p = some vmm)
include h hp

theorem Inv.fault {kernelPresent user : Bool} {esp : Word}
    (hs : s.fault p vmm va (if va < kernelBase then present s.machine vmm.pgDir va else kernelPresent)
      write user esp junk = some (s', e)) : Follows s own s' e := by
  unfold Sys.fault at hs
  cases hf : findVma vmm.areas va with
  | none =>
    rw [hf] at hs
    exact h.exit_follows hp hs
  | some vma =>
    have hareas := h.areas p vmm hp
    have hva := hareas.findVma_user hf
    rw [hf] at hs
    simp only [if_pos hva] at hs
    split at hs
    next hlow =>
      split at hs
      next =>
        obtain ⟨m', hm, he⟩ := map_eq_some_iff.mp hs
        cases he
        obtain ⟨h1, h2, h3⟩ := hareas.expandStack hf hlow
        refine h.goodArea hp hva ⟨rfl, h1, h2⟩ h3 ?_ hm
        have hmask := toNat_and_pageMask va
        simp only [BitVec.le_def]
        omega
      next => exact h.exit_follows hp hs
    next hhigh =>
      obtain ⟨m', hm, he⟩ := map_eq_some_iff.mp hs
      cases he
      rw [gt_iff_lt, BitVec.not_lt] at hhigh
      exact h.goodArea hp hva ⟨rfl, hareas, fun _ hx => hx⟩ (hareas.covered_page hf hhigh) hhigh hm

omit h hp in
theorem exit_setProc (m : Machine) (vmm' : Vmm) (hm : s.machine = m) :
    (s.setProc p m vmm').exit p vmm' = s.exit p vmm' := by
  subst hm
  unfold Sys.exit setProc
  simp only [update_idem]

theorem Inv.segment (ha : Paged vaddr) {r : Word × List VmArea}
    (hr : doMmap vmm.areas vaddr pageSize (protRead ||| protWrite ||| protExec) mapFixed pool = r) :
    Extends vmm { vmm with areas := r.2 } ∧ (¬r.1.toInt < 0 → vaddr < kernelBase ∧
      own (.of p vaddr) = none ∧
      PageIn r.2 vaddr) := by
  have hareas := h.areas p vmm hp
  have hmap : Mapped vmm.areas (pageAlign pageSize) r := by
    rw [← hr]
    exact hareas.doMmap (c := ⟨vaddr, pageSize, protRead ||| protWrite ||| protExec, mapFixed, pool⟩)
      ⟨show pageSize.toNat ≤ _ by decide, fun hno => absurd hno (show ¬mapFixed &&& mapFixed = 0 by decide)⟩
  refine ⟨⟨rfl, hmap.ok, hmap.grows⟩, fun hpos => ?_⟩
  have hne : r.1 ≠ -1 := by
    intro he
    rw [he] at hpos
    exact hpos (by decide)
  obtain ⟨hfst, hfree⟩ := hareas.doMmap_fixed (by rw [hr]; exact hne)
  rw [hr] at hfst
  obtain ⟨hle, hcov⟩ := hmap.covers hne (by decide)
  have hsize : (pageAlign pageSize).toNat = 4096 := by decide
  have hva : vaddr < kernelBase := by
    have huser : userVmSize.toNat = kernelBase.toNat := by decide
    rw [hfst, hsize] at hle
    rw [BitVec.lt_def]
    omega
  have hidx := vpage_index (paged_iff.mp ha)
  refine ⟨hva, ?_, by rw [PageIn, hidx]; exact (hcov _).mpr (Or.inr (by rw [hfst, hsize]; omega))⟩
  cases hu : own (.of p vaddr) with
  | none => rfl
  | some n => exact absurd (hidx ▸ h.covered p vmm hp _ _ n hu) hfree

theorem Inv.loadSegment (ha : Paged vaddr) {content : Nat → Byte}
    (hs : s.loadSegment p vmm vaddr pool content = some (s', e)) : Follows s own s' e := by
  unfold Sys.loadSegment at hs
  generalize hr : doMmap vmm.areas vaddr pageSize (protRead ||| protWrite ||| protExec) mapFixed pool = r
    at hs
  obtain ⟨hext, hplace⟩ := h.segment hp ha hr
  dsimp only at hs
  split at hs
  next =>
    obtain ⟨own', wr', hinv, hviews⟩ := h.extend hp hext
    rw [← exit_setProc s.machine _ rfl] at hs
    obtain ⟨own2, wr2, hinv2, hviews2⟩ := hinv.exit_follows setProc_self hs
    exact ⟨own2, wr2, hinv2, by rw [hviews2, hviews]; rfl⟩
  next hpos =>
    obtain ⟨hva, hu, hcov⟩ := hplace hpos
    cases hal : s.machine.allocPage with
    | none => simp [hal] at hs
    | some a =>
      simp only [hal] at hs
      obtain ⟨m1, hm1, he⟩ := map_eq_some_iff.mp hs
      cases he
      have hsame : a.1.fill (va2pa a.2) (a.1.mem (va2pa a.2)) = a.1 := by
        rw [Machine.fill, update_eq_self]
      obtain ⟨⟨own1, wr1, hinv, hviews⟩, htr, -⟩ := h.firstTouch hp hva hu hext hcov hal
        (by rw [hsame]; exact hm1)
      obtain ⟨n, -, hn, hpage, hwr⟩ := hinv.translate setProc_self (htr true)
      obtain ⟨hinv2, hviews2⟩ := hinv.fill setProc_self hn (hwr rfl) content
      rw [hpage]
      refine ⟨own1, wr1, hinv2, hviews2.trans ?_⟩
      rw [hviews]
      simp only [Views.after, update_idem, update_self]
      congr 1
      funext i j
      split_ifs <;> rfl

theorem Inv.stack_extends : Extends vmm { vmm with areas := (insertVma vmm.areas stackArea).getD vmm.areas } := by
  cases hi : insertVma vmm.areas stackArea with
  | none => exact ⟨rfl, h.areas p vmm hp, fun _ hx => hx⟩
  | some areas =>
    have hstack := stackArea_ok
    obtain ⟨hok, hcov⟩ := (h.areas p vmm hp).insertVma (hstack.inUser _ (by simp))
      (hstack.spans.1 _ (by simp)) hi
    exact ⟨rfl, hok, fun x hx => (hcov x).mpr (Or.inl hx)⟩

theorem Inv.initUserStack (pool : Bool) : Follows s own (s.initUserStack p vmm pool) .silent := by
  unfold Sys.initUserStack
  cases pool with
  | false => exact ⟨own, wr, h, rfl⟩
  | true => exact h.extend hp (h.stack_extends hp)

end

end

end Sys

end BabyOS
