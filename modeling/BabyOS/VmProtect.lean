import BabyOS.VmStackGrow

open Function BitVec List Option

namespace BabyOS

open Machine

structure VmArea.Within (a b : VmArea) : Prop where
  lo : b.lo ≤ a.lo
  hi : a.hi ≤ b.hi
  flags : b.flags = a.flags

def Writable (areas : List VmArea) (x : Nat) : Prop :=
  ∃ a ∈ areas, a.lo ≤ x ∧ x < a.hi ∧ a.flags &&& vmWrite ≠ 0

section

variable {areas areas' : List VmArea} {vma : VmArea} {x : Nat}

theorem VmArea.Within.refl (a : VmArea) : a.Within a := ⟨Nat.le_refl _, Nat.le_refl _, rfl⟩

theorem VmArea.Within.trans {a b c : VmArea} (h : a.Within b) (h' : b.Within c) : a.Within c :=
  ⟨h'.lo.trans h.lo, h.hi.trans h'.hi, h'.flags.trans h.flags⟩

theorem mergeNext_within {ys : List VmArea} (hv : vma.lo < vma.hi) (hy : ∀ b ∈ ys, b.lo < b.hi) :
    ∀ a ∈ vma :: ys, ∃ b ∈ mergeNext vma ys, a.Within b := by
  cases ys with
  | nil => exact fun a ha => ⟨a, ha, .refl a⟩
  | cons q rest =>
    intro a ha
    rw [mergeNext]
    split_ifs with hm
    · obtain ⟨hmeet, -, hflags⟩ := hm
      have hq := hy q mem_cons_self
      have hmeet' : vma.hi = q.lo := congrArg BitVec.toNat hmeet
      rcases mem_cons.mp ha with rfl | ha
      · refine ⟨_, mem_cons_self, Nat.le_refl _, ?_, rfl⟩
        change a.hi ≤ q.hi
        omega
      · rcases mem_cons.mp ha with rfl | ha
        · refine ⟨_, mem_cons_self, ?_, Nat.le_refl _, hflags⟩
          change vma.lo ≤ a.lo
          omega
        · exact ⟨a, mem_cons_of_mem _ ha, .refl a⟩
    · exact ⟨a, ha, .refl a⟩

theorem insertVma_within (h : Spans VmArea.lo VmArea.hi areas) (hv : vma.lo < vma.hi)
    (hi : insertVma areas vma = some areas') : ∀ a, a = vma ∨ a ∈ areas → ∃ b ∈ areas', a.Within b := by
  have hsplit : areas.takeWhile (fun q => q.start < vma.stop) ++
      areas.dropWhile (fun q => q.start < vma.stop) = areas := takeWhile_append_dropWhile
  unfold insertVma at hi
  generalize areas.takeWhile (fun q => q.start < vma.stop) = before at hsplit hi
  generalize areas.dropWhile (fun q => q.start < vma.stop) = after at hsplit hi
  subst hsplit
  have hafter : ∀ b ∈ after, b.lo < b.hi := fun b hb => h.1 b (mem_append_right _ hb)
  have hput : ∀ (xs : List VmArea) (w : VmArea), w.lo < w.hi → ∀ a, a ∈ xs ∨ a ∈ w :: after →
      ∃ b ∈ xs ++ mergeNext w after, a.Within b := by
    intro xs w hw a ha
    rcases ha with ha | ha
    · exact ⟨a, mem_append_left _ ha, .refl a⟩
    · obtain ⟨b, hb, hab⟩ := mergeNext_within hw hafter a ha
      exact ⟨b, mem_append_right _ hb, hab⟩
  have hnew : ∀ a, a = vma ∨ a ∈ before ++ after → a ∈ before ∨ a ∈ vma :: after := by
    intro a ha
    rcases ha with rfl | ha
    · exact Or.inr mem_cons_self
    · rcases mem_append.mp ha with ha | ha
      · exact Or.inl ha
      · exact Or.inr (mem_cons_of_mem _ ha)
  rcases eq_nil_or_concat before with rfl | ⟨xs, prev, rfl⟩
  · simp only [List.getLast?_nil, Option.some.injEq] at hi
    subst hi
    intro a ha
    exact hput [] vma hv a (hnew a ha)
  · rw [concat_eq_append] at h hi hnew
    simp only [List.getLast?_append, List.getLast?_singleton, some_or] at hi
    split at hi
    next => cases hi
    next =>
    split at hi
    next hm =>
      obtain ⟨hmeet, -, hflags⟩ := hm
      have hprev := h.1 prev (by simp)
      have hmeet' : prev.hi = vma.lo := congrArg BitVec.toNat hmeet
      have hw : VmArea.lo { prev with stop := vma.stop } < VmArea.hi { prev with stop := vma.stop } := by
        change prev.lo < vma.hi
        omega
      rw [dropLast_concat] at hi
      cases some.inj hi
      have hfirst := hput xs _ hw
      have hjoin : ∀ a, a = prev ∨ a = vma → a.Within { prev with stop := vma.stop } := by
        intro a ha
        rcases ha with rfl | rfl
        · refine ⟨Nat.le_refl _, ?_, rfl⟩
          change a.hi ≤ vma.hi
          omega
        · refine ⟨?_, Nat.le_refl _, hflags⟩
          change prev.lo ≤ a.lo
          omega
      intro a ha
      obtain ⟨b, hb, hbw⟩ := hfirst _ (Or.inr mem_cons_self)
      rw [concat_eq_append] at ha
      rcases hnew a ha with ha | ha
      · rcases mem_append.mp ha with ha | ha
        · exact hfirst a (Or.inl ha)
        · exact ⟨b, hb, (hjoin a (Or.inl (mem_singleton.mp ha))).trans hbw⟩
      · rcases mem_cons.mp ha with rfl | ha
        · exact ⟨b, hb, (hjoin a (Or.inr rfl)).trans hbw⟩
        · exact hfirst a (Or.inr (mem_cons_of_mem _ ha))
    next =>
      cases some.inj hi
      intro a ha
      rw [concat_eq_append] at ha
      exact hput (xs ++ [prev]) vma hv a (hnew a ha)

theorem AreasOk.mapArea_within (h : AreasOk areas) {addr len prot : Word} {pool : Bool}
    (hle : addr.toNat + len.toNat ≤ userVmSize.toNat) (hpos : 0 < len.toNat) :
    (∀ a ∈ areas, ∃ b ∈ (BabyOS.mapArea areas addr len prot pool).2, a.Within b) ∧
      ((BabyOS.mapArea areas addr len prot pool).1 ≠ -1 → prot &&& vmWrite ≠ 0 →
        Writable (BabyOS.mapArea areas addr len prot pool).2 addr.toNat) := by
  have hstop : (addr + len).toNat = addr.toNat + len.toNat := by
    rw [toNat_add]
    omega
  have hsame : ∀ a ∈ areas, ∃ b ∈ areas, a.Within b := fun a ha => ⟨a, ha, .refl a⟩
  unfold BabyOS.mapArea
  cases pool with
  | false => exact ⟨hsame, fun hne => absurd rfl hne⟩
  | true =>
    simp only [if_true]
    cases hi : BabyOS.insertVma areas ⟨addr, addr + len, prot, prot &&& (vmRead ||| vmWrite ||| vmExec)⟩ with
    | none => exact ⟨hsame, fun hne => absurd rfl hne⟩
    | some areas' =>
      have hlt : VmArea.lo ⟨addr, addr + len, prot, prot &&& (vmRead ||| vmWrite ||| vmExec)⟩ <
          VmArea.hi ⟨addr, addr + len, prot, prot &&& (vmRead ||| vmWrite ||| vmExec)⟩ := by
        change addr.toNat < (addr + len).toNat
        omega
      have hw := insertVma_within h.spans hlt hi
      refine ⟨fun a ha => hw a (Or.inr ha), fun _ hprot => ?_⟩
      obtain ⟨b, hb, hbw⟩ := hw _ (Or.inl rfl)
      refine ⟨b, hb, hbw.lo, lt_of_lt_of_le hlt hbw.hi, ?_⟩
      rw [hbw.flags, BitVec.and_assoc]
      exact hprot

theorem AreasOk.doMmap_within (h : AreasOk areas) {c : MmapCall} (hf : MmapFits areas c) :
    ∀ a ∈ areas, ∃ b ∈ (c.exec areas).2, a.Within b := by
  rcases h.doMmap_cases hf with ⟨-, he⟩ | he | ⟨addr, hle, hpos, -, -, he⟩
  · rw [he]
    exact fun a ha => ⟨a, ha, .refl a⟩
  · rw [he]
    exact fun a ha => ⟨a, ha, .refl a⟩
  · rw [he]
    exact (h.mapArea_within hle hpos).1

theorem AreasOk.doMmap_writable (h : AreasOk areas) {c : MmapCall} (hf : MmapFits areas c) {addr : Word}
    (ha : (c.exec areas).1 = addr) (hne : (c.exec areas).1 ≠ -1) (hprot : c.prot &&& vmWrite ≠ 0)
    (hlen : pageAlign c.len ≠ 0) : Writable (c.exec areas).2 addr.toNat := by
  rcases h.doMmap_cases hf with ⟨hzero, -⟩ | he | ⟨addr', hle, hpos, -, -, he⟩
  · exact absurd hzero hlen
  · rw [he] at hne
    exact absurd rfl hne
  · rw [he] at ha hne ⊢
    rw [← ha, mapArea_fst hne]
    exact (h.mapArea_within hle hpos).2 hne hprot

theorem expandStack_within {va : Word} (hf : findVma areas va = some vma) (hs : va < vma.start) :
    (∀ a ∈ areas, ∃ b ∈ expandStack va areas, a.Within b) ∧
      { vma with start := va &&& pageMask } ∈ expandStack va areas := by
  obtain ⟨xs, ys, rfl, hlt, hxs⟩ := findVma_split hf
  have hmask := toNat_and_pageMask va
  rw [expandStack_append hxs hlt]
  rw [lt_def] at hs
  refine ⟨fun a ha => ?_, mem_append_right _ mem_cons_self⟩
  rcases mem_append.mp ha with ha | ha
  · exact ⟨a, mem_append_left _ ha, .refl a⟩
  · rcases mem_cons.mp ha with rfl | ha
    · refine ⟨_, mem_append_right _ mem_cons_self, ?_, Nat.le_refl _, rfl⟩
      change (va &&& pageMask).toNat ≤ a.start.toNat
      omega
    · exact ⟨a, mem_append_right _ (mem_cons_of_mem _ ha), .refl a⟩

theorem AreasOk.writable_unique (h : AreasOk areas) (hw : Writable areas x) {a : VmArea} (ha : a ∈ areas)
    (hlo : a.lo ≤ x) (hhi : x < a.hi) : a.flags &&& vmWrite ≠ 0 := by
  obtain ⟨b, hb, h1, h2, h3⟩ := hw
  by_cases hab : a = b
  · rwa [hab]
  · have hpair := h.spans.2
    have hdis := pairwise_iff_getElem.mp hpair
    obtain ⟨i, hi, rfl⟩ := getElem_of_mem ha
    obtain ⟨j, hj, rfl⟩ := getElem_of_mem hb
    rcases Nat.lt_trichotomy i j with hij | rfl | hij
    · have := hdis i j hi hj hij
      omega
    · exact h3
    · have := hdis j i hj hi hij
      omega

end

namespace Sys

/-- The pages of every process lie in areas that may be written to. -/
def Guarded (s : Sys) (v : Views) : Prop :=
  ∀ p vmm, s.procs p = some vmm → ∀ i j, v p i j ≠ none → Writable vmm.areas (vpage i j)

/-- A first touch is of an area that may be written to, a `do_mmap` stays in the user part, and nothing is
unmapped. -/
def TouchesWritable (s : Sys) : VmAct → Prop
  | .mmap p c => ∀ vmm, s.procs p = some vmm → MmapFits vmm.areas c
  | .fault p va _ user _ esp _ => ∀ vmm a, s.procs p = some vmm → findVma vmm.areas va = some a →
    present s.machine vmm.pgDir va = false →
    a.start ≤ va ∨ (user ∧ a.flags &&& vmStack ≠ 0 ∧ va + 32 ≥ esp) → a.flags &&& vmWrite ≠ 0
  | .munmap _ _ _ _ _ _ => False
  | _ => True

theorem TouchesWritable.fits {s : Sys} {a : VmAct} (h : s.TouchesWritable a) : s.Fits a := by
  cases a with
  | mmap => exact h
  | munmap => exact h.elim
  | _ => trivial

section

variable {s s' : Sys} {own : Slot → Option Nat} {wr : Slot → Bool} {p : Nat} {vmm vmm' : Vmm} {v : Views}
  {m : Machine} {va : Word}

theorem Guarded.setProc (h : Guarded s v) (hp : s.procs p = some vmm)
    (hw : ∀ a ∈ vmm.areas, ∃ b ∈ vmm'.areas, a.Within b) : Guarded (s.setProc p m vmm') v := by
  intro q vq hq i j hij
  by_cases hqp : q = p
  · subst hqp
    cases setProc_self.symm.trans hq
    obtain ⟨a, ha, h1, h2, h3⟩ := h q vmm hp i j hij
    obtain ⟨b, hb, hab⟩ := hw a ha
    exact ⟨b, hb, hab.lo.trans h1, lt_of_lt_of_le h2 hab.hi, by rwa [hab.flags]⟩
  · rw [setProc_of_ne hqp] at hq
    exact h q vq hq i j hij

theorem Guarded.fresh (h : Guarded s v) (hp : s.procs p = some vmm) (va : Word) (bytes : Nat → Byte)
    (hw : Writable vmm.areas (vpage (pdIndex va) (ptIndex va))) : Guarded s (v.after (.fresh p va bytes)) := by
  intro q vq hq i j hij
  by_cases hqp : q = p
  · subst hqp
    cases hp.symm.trans hq
    rw [Views.after, update_self] at hij
    by_cases hi : i = pdIndex va ∧ j = ptIndex va
    · rw [hi.1, hi.2]
      exact hw
    · rw [if_neg hi] at hij
      exact h q vmm hp i j hij
  · rw [Views.after, update_of_ne hqp] at hij
    exact h q vq hq i j hij

theorem Guarded.release (h : Guarded s v) (ho : ∀ q, q ≠ p → s'.procs q = s.procs q) :
    Guarded s' (v.after (.release p)) := by
  intro q vq hq i j hij
  by_cases hqp : q = p
  · subst hqp
    rw [Views.after, update_self] at hij
    exact absurd rfl hij
  · rw [Views.after, update_of_ne hqp] at hij
    rw [ho q hqp] at hq
    exact h q vq hq i j hij

theorem Guarded.exit (h : Guarded s v) {r : Sys × VmEvent} (he : s.exit p vmm = some r) :
    Guarded r.1 (v.after r.2) := by
  obtain ⟨_, ho⟩ := exit_procs he
  obtain ⟨x, _, hx⟩ := map_eq_some_iff.mp he
  have hev : r.2 = .release p := by rw [← hx]
  rw [hev]
  exact h.release ho

theorem writable_of_mem {areas : List VmArea} {a : VmArea} (ha : a ∈ areas) (hlo : a.start ≤ va)
    (hdvd : 4096 ∣ a.start.toNat) (hhi : va < a.stop) (hflag : a.flags &&& vmWrite ≠ 0) :
    Writable areas (vpage (pdIndex va) (ptIndex va)) := by
  rw [le_def] at hlo
  rw [lt_def] at hhi
  have hmask := toNat_and_pageMask va
  rw [vpage_of]
  refine ⟨a, ha, ?_, ?_, hflag⟩
  · change a.start.toNat ≤ _
    omega
  · change _ < a.stop.toNat
    omega

theorem Guarded.faultEvent (h : Guarded s v) (hp : s.procs p = some vmm) {pgDir : Word} {here : Bool}
    (hw : here = false → Writable vmm.areas (vpage (pdIndex va) (ptIndex va))) :
    Guarded s (v.after (faultEvent p pgDir va here m)) := by
  cases here with
  | true => exact h
  | false =>
    unfold Sys.faultEvent
    cases m.translate pgDir va false with
    | none => exact h
    | some page => exact h.fresh hp va _ (hw rfl)

section

variable (h : Inv s own wr) (hg : Guarded s (s.views own))
include h hg

theorem Inv.guarded_fault (hp : s.procs p = some vmm)
    {write user kernelPresent : Bool} {esp : Word} {junk : Nat → Byte} {e : VmEvent}
    (hc : s.TouchesWritable (.fault p va write user kernelPresent esp junk))
    (hs : s.fault p vmm va (if va < kernelBase then present s.machine vmm.pgDir va else kernelPresent)
      write user esp junk = some (s', e)) : Guarded s' ((s.views own).after e) := by
  have hareas := h.areas p vmm hp
  unfold Sys.fault at hs
  cases hf : findVma vmm.areas va with
  | none =>
    rw [hf] at hs
    exact hg.exit hs
  | some a =>
    have hva := hareas.findVma_user hf
    obtain ⟨xs, ys, hsplit, hlt, -⟩ := findVma_split hf
    have hmem : a ∈ vmm.areas := by
      rw [hsplit]
      exact mem_append_right _ mem_cons_self
    simp only [hf, if_pos hva] at hs
    split at hs
    next hlow =>
      split at hs
      next hgrow =>
        obtain ⟨m, _, he⟩ := map_eq_some_iff.mp hs
        cases he
        obtain ⟨hw, hnew⟩ := expandStack_within hf hlow
        refine (hg.setProc hp hw).faultEvent setProc_self fun hhere => ?_
        have hmask := toNat_and_pageMask va
        refine writable_of_mem hnew ?_ ?_ hlt (hc vmm a hp hf hhere (Or.inr hgrow))
        · change (va &&& pageMask) ≤ va
          rw [le_def]
          omega
        · change 4096 ∣ (va &&& pageMask).toNat
          rw [hmask]
          exact Nat.dvd_mul_left _ _
      next => exact hg.exit hs
    next hhigh =>
      obtain ⟨m, _, he⟩ := Option.map_eq_some_iff.mp hs
      cases he
      rw [gt_iff_lt, BitVec.not_lt] at hhigh
      refine (hg.setProc hp fun b hb => ⟨b, hb, .refl b⟩).faultEvent setProc_self fun hhere => ?_
      exact writable_of_mem hmem hhigh (hareas.inUser a hmem).start_dvd hlt (hc vmm a hp hf hhere (Or.inl hhigh))

theorem Inv.guarded_fork {c : Nat} (hs : s.fork p c = some s') : Guarded s' ((s.views own).after (.fork p c)) := by
  obtain ⟨vmm, hsrc, hs⟩ := bind_eq_some_iff.mp hs
  split_ifs at hs with hbusy
  obtain ⟨r, hr, rfl⟩ := map_eq_some_iff.mp hs
  intro q vq hq i j hij
  by_cases hqc : q = c
  · subst hqc
    cases setProc_self.symm.trans hq
    rw [Views.after, update_self] at hij
    split_ifs at hsrc with hp0
    · rw [hp0, views, (h.not_live h.idle.1).2] at hij
      exact absurd rfl hij
    · exact hg p vmm hsrc i j hij
  · rw [setProc_of_ne hqc] at hq
    rw [Views.after, update_of_ne hqc] at hij
    exact hg q vq hq i j hij

theorem Inv.guarded_loadSegment (hp : s.procs p = some vmm)
    {vaddr : Word} (ha : Paged vaddr) {pool : Bool} {content : Nat → Byte} {e : VmEvent}
    (hs : s.loadSegment p vmm vaddr pool content = some (s', e)) : Guarded s' ((s.views own).after e) := by
  have hareas := h.areas p vmm hp
  have hfits : MmapFits vmm.areas ⟨vaddr, pageSize, protRead ||| protWrite ||| protExec, mapFixed, pool⟩ :=
    ⟨show pageSize.toNat ≤ _ by decide, fun hno => absurd hno (show ¬mapFixed &&& mapFixed = 0 by decide)⟩
  have hwithin := hareas.doMmap_within hfits
  unfold Sys.loadSegment at hs
  dsimp only [MmapCall.exec] at hs hwithin
  split at hs
  next =>
    obtain ⟨_, ho⟩ := exit_procs hs
    obtain ⟨x, _, hx⟩ := map_eq_some_iff.mp hs
    cases hx
    exact hg.release ho
  next hpos =>
    have hne : (doMmap vmm.areas vaddr pageSize (protRead ||| protWrite ||| protExec) mapFixed pool).1 ≠ -1 := by
      intro he
      rw [he] at hpos
      exact hpos (by decide)
    cases hal : s.machine.allocPage with
    | none => simp [hal] at hs
    | some r =>
      simp only [hal] at hs
      obtain ⟨m, _, he⟩ := map_eq_some_iff.mp hs
      cases he
      refine (hg.setProc hp hwithin).fresh setProc_self vaddr content ?_
      rw [vpage_index (paged_iff.mp ha)]
      exact hareas.doMmap_writable hfits (hareas.doMmap_fixed hne).1 hne (show (protRead ||| protWrite ||| protExec) &&& vmWrite ≠ 0 by decide)
        (show pageAlign pageSize ≠ 0 by decide)

theorem Inv.guarded_step {a : VmAct} {e : VmEvent}
    (hc : s.TouchesWritable a) (hs : s.step a = some (s', e)) : Guarded s' ((s.views own).after e) := by
  cases a with
  | store p va b =>
    obtain ⟨ht, rfl⟩ := step_eq hs
    obtain ⟨vmm, hp, ht⟩ := bind_eq_some_iff.mp ht
    obtain ⟨page, _, rfl⟩ := map_eq_some_iff.mp ht
    intro q vq hq i j hij
    refine hg q vq hq i j fun hnone => hij ?_
    simp only [Views.after]
    by_cases hqp : q = p
    · subst hqp
      rw [update_self, hnone]
      exact ite_self none
    · rw [update_of_ne hqp, hnone]
  | fault p va write user kernelPresent esp junk =>
    obtain ⟨vmm, hp, hs⟩ := bind_eq_some_iff.mp hs
    split at hs
    next => cases hs
    next => exact h.guarded_fault hg hp hc hs
  | fork p c =>
    obtain ⟨ht, rfl⟩ := step_eq hs
    exact h.guarded_fork hg ht
  | exit p =>
    obtain ⟨vmm, hp, hs⟩ := bind_eq_some_iff.mp hs
    exact hg.exit hs
  | reap p =>
    obtain ⟨ht, rfl⟩ := step_eq hs
    obtain ⟨dir, _, ht⟩ := bind_eq_some_iff.mp ht
    obtain ⟨m, _, rfl⟩ := map_eq_some_iff.mp ht
    exact hg
  | release p =>
    obtain ⟨vmm, hp, hs⟩ := bind_eq_some_iff.mp hs
    obtain ⟨r, _, he⟩ := map_eq_some_iff.mp hs
    cases he
    exact hg.release fun q hq => setProc_of_ne hq
  | loadSegment p vaddr pool content =>
    obtain ⟨vmm, hp, hs⟩ := bind_eq_some_iff.mp hs
    exact h.guarded_loadSegment hg hp (paged_and vaddr) hs
  | initUserStack p pool =>
    obtain ⟨vmm, hp, he⟩ := map_eq_some_iff.mp hs
    cases he
    unfold Sys.initUserStack
    cases pool with
    | false => exact hg
    | true =>
      refine hg.setProc hp fun a ha => ?_
      cases hi : insertVma vmm.areas stackArea with
      | none => exact ⟨a, ha, .refl a⟩
      | some areas => exact insertVma_within (h.areas p vmm hp).spans (by decide) hi a (Or.inr ha)
  | mmap p c =>
    obtain ⟨vmm, hp, he⟩ := map_eq_some_iff.mp hs
    cases he
    exact hg.setProc hp ((h.areas p vmm hp).doMmap_within (hc vmm hp))
  | munmap => exact hc.elim
  | kalloc =>
    obtain ⟨ht, rfl⟩ := step_eq hs
    obtain ⟨r, _, rfl⟩ := map_eq_some_iff.mp ht
    exact hg
  | kfree addr =>
    obtain ⟨ht, rfl⟩ := step_eq hs
    unfold Sys.kfree at ht
    split_ifs at ht
    obtain ⟨m, _, rfl⟩ := map_eq_some_iff.mp ht
    exact hg

end

def WritablePte (m : Machine) (pgDir va : Word) : Prop :=
  let pde := m.entry (va2pa pgDir) (pdIndex va)
  let pte := m.entry (pde &&& pageMask) (ptIndex va)
  pde &&& pteP ≠ 0 ∧ pte &&& pteP ≠ 0 ∧ pte &&& pteW ≠ 0

theorem Inv.not_writablePte (h : Inv s own wr) (hp : s.procs p = some vmm) (hva : va < kernelBase)
    (hu : own (.of p va) = none) : ¬WritablePte s.machine vmm.pgDir va := by
  intro hw
  obtain ⟨h1, h2, _⟩ := hw
  have hno := (h.walks p vmm hp).present h.owned hva
  rw [hu] at hno
  simp only [present, isSome_none, Bool.and_eq_false_imp] at hno
  have := hno (by simpa using h1)
  exact h2 (by simpa using this)

/-- In every state reached from boot where each first touch is of a writable area, no entry in an area without
the write flag is writable, and no store there completes. -/
theorem write_protection_enforced {s0 : Sys} {acts : List VmAct} (hboot : Booted s0)
    (hfit : Along next TouchesWritable s0 acts) (hrun : run next s0 acts = some s) :
    ∀ p vmm va a, s.procs p = some vmm → a ∈ vmm.areas → a.start ≤ va → va < a.stop →
      a.flags &&& vmWrite = 0 → ¬WritablePte s.machine vmm.pgDir va ∧ ∀ b, s.store p va b = none := by
  have hinv : ∃ own wr, Inv s own wr ∧ Guarded s (s.views own) := by
    refine run_invariant (I := fun s => ∃ own wr, Inv s own wr ∧ Guarded s (s.views own)) ?_
      ⟨_, _, hboot.inv, fun p vmm hp => ?_⟩ hfit hrun
    · rintro s a s' ⟨own, wr, h, hg⟩ hc hs
      obtain ⟨⟨t, e⟩, hstep, rfl⟩ := map_eq_some_iff.mp hs
      obtain ⟨own', wr', h', hv⟩ := h.step hc.fits hstep
      refine ⟨own', wr', h', ?_⟩
      rw [hv]
      exact h.guarded_step hg hc hstep
    · cases (hboot.procs p).symm.trans hp
  obtain ⟨own, wr, h, hg⟩ := hinv
  intro p vmm va a hp ha hlo hhi hflag
  have hareas := h.areas p vmm hp
  have hva : va < kernelBase := by
    have hle := (hareas.inUser a ha).user
    have hk : userVmSize.toNat = kernelBase.toNat := by decide
    rw [lt_def] at hhi ⊢
    omega
  have hu : own (.user p (pdIndex va) (ptIndex va)) = none := by
    cases hu : own (.user p (pdIndex va) (ptIndex va)) with
    | none => rfl
    | some n =>
      have hw := hg p vmm hp (pdIndex va) (ptIndex va) (by rw [views, hu]; simp)
      have hmask := toNat_and_pageMask va
      have hdvd := (hareas.inUser a ha).start_dvd
      rw [le_def] at hlo
      rw [lt_def] at hhi
      rw [vpage_of] at hw
      refine absurd hflag (hareas.writable_unique hw ha ?_ ?_)
      · change a.start.toNat ≤ _
        omega
      · change _ < a.stop.toNat
        omega
  refine ⟨h.not_writablePte hp hva hu, fun b => ?_⟩
  rw [Sys.store, hp, bind_some, (h.walks p vmm hp).translate h.owned hva, hu]
  rfl

theorem write_protection_enforced_read : ∃ mm s vmm, Clients.smallMem.initFreeArea = some mm ∧
    run next (bootSys mm) [.fork 0 1, .initUserStack 1 true, .mmap 1 (onePage 1)] = some s ∧
    s.procs 1 = some vmm ∧ vmm.areas = [⟨0x40000000, 0x40001000, 1, 1⟩, stackArea] ∧
    ¬WritablePte s.machine vmm.pgDir 0x40000000 ∧ ∀ b, s.store 1 0x40000000 b = none := by
  obtain ⟨mm, hinit, hboot, hroom⟩ := smallMem_room
  obtain ⟨m, dir, own, wr, hfork, -⟩ := hboot.inv.fork_idle (lt_of_lt_of_le (by decide) hroom) (c := 1) (by decide) rfl rfl
  have hstack : ((bootSys mm).setProc 1 m ⟨[], dir⟩).next (.initUserStack 1 true) =
      some (((bootSys mm).setProc 1 m ⟨[], dir⟩).setProc 1 m ⟨[stackArea], dir⟩) := rfl
  have hexec : ((onePage 1).exec [stackArea]).2 = [⟨0x40000000, 0x40001000, 1, 1⟩, stackArea] := by decide
  have hmap : (((bootSys mm).setProc 1 m ⟨[], dir⟩).setProc 1 m ⟨[stackArea], dir⟩).next (.mmap 1 (onePage 1)) =
      some ((((bootSys mm).setProc 1 m ⟨[], dir⟩).setProc 1 m ⟨[stackArea], dir⟩).setProc 1 m
        ⟨[⟨0x40000000, 0x40001000, 1, 1⟩, stackArea], dir⟩) := by
    rw [Sys.next, Sys.step, setProc_self, ← hexec]
    rfl
  have hrun := run_step hfork (run_step hstack (run_step hmap (run_nil _)))
  have hfits : (((bootSys mm).setProc 1 m ⟨[], dir⟩).setProc 1 m ⟨[stackArea], dir⟩).TouchesWritable
      (.mmap 1 (onePage 1)) := by
    intro vmm hp
    cases setProc_self.symm.trans hp
    exact onePage_fits 1
  have hfit : Along next TouchesWritable (bootSys mm) [.fork 0 1, .initUserStack 1 true, .mmap 1 (onePage 1)] := by
    refine along_cons trivial hfork (along_cons trivial hstack (along_cons hfits hmap ?_))
    trivial
  exact ⟨mm, _, _, hinit, hrun, setProc_self, rfl, write_protection_enforced hboot hfit hrun 1 _ _ _ setProc_self
    mem_cons_self (by decide) (by decide) (by decide)⟩

theorem Touches.writablePte {own' : Slot → Option Nat} {wr' : Slot → Bool} {n : Nat}
    (h : Touches s s' own own' wr' p va n) (hp : s'.procs p = some vmm) (hva : va < kernelBase) :
    WritablePte s'.machine vmm.pgDir va ∧ ∀ b, (s'.store p va b).isSome := by
  obtain ⟨d, t, -, ht⟩ := h.touched
  have hw := h.inv.walks p vmm hp
  have hwr := h.writable
  refine ⟨?_, fun b => ?_⟩
  · rcases hw.cases h.inv.owned hva with ⟨-, hu⟩ | ⟨t', hlt, -, hpde, hpte⟩
    · cases ht.user.symm.trans hu
    · obtain ⟨-, -, h3, -, h5⟩ := pteOf_some h.inv.owned.layout (h.inv.owned.holds.inside _ _ ht.user) true
      unfold WritablePte
      simp only [hpde, pdeOf_and_pageMask h.inv.owned.layout hlt, hpte, ht.user, hwr]
      exact ⟨pdeOf_and_pteP h.inv.owned.layout hlt, h3, fun hz => by simpa using h5.mp hz⟩
  · rw [Sys.store, hp, bind_some, hw.translate h.inv.owned hva, ht.user, hwr]
    simp

/-- A process maps a page that it may only read and touches it: the entry comes writable and every store
goes through. -/
theorem store_to_read_only_page : ∃ mm s vmm, Clients.smallMem.initFreeArea = some mm ∧
    run next (bootSys mm) (spawn 1 ++ [.mmap 1 (onePage 1), .fault 1 0x40000000 true true false 0 fun _ => 0]) =
      some s ∧ s.procs 1 = some vmm ∧ vmm.areas = [⟨0x40000000, 0x40001000, 1, 1⟩, stackArea] ∧
    (1 : Word) &&& vmWrite = 0 ∧ WritablePte s.machine vmm.pgDir 0x40000000 ∧
    ∀ b, (s.store 1 0x40000000 b).isSome := by
  obtain ⟨mm, s1, own, wr, hinit, hboot, hroom, hrun1, hs⟩ := smallMem_spawned
  have hcount := hs.count
  obtain ⟨s2, dir, hstep, hinv, hp, hm⟩ := hs.mmap (onePage_fits 1)
    (show _ = [⟨0x40000000, 0x40001000, 1, 1⟩, stackArea] by decide)
  have hfree : 2 ≤ s2.machine.mm.freeCount := by
    rw [hm]
    omega
  have hu : own (.user 1 (pdIndex 0x40000000) (ptIndex 0x40000000)) = none :=
    hs.slots _ (by simp) (by simp) (by decide)
  have hf : findVma [⟨0x40000000, 0x40001000, 1, 1⟩, stackArea] 0x40000000 =
      some ⟨0x40000000, 0x40001000, 1, 1⟩ := by decide
  obtain ⟨s, _, _, _, hnext, ht, hproc⟩ := hinv.touch hp hu (by omega) (Or.inl hfree) hf (Or.inl (by decide))
  rw [if_neg (by decide)] at hproc
  refine ⟨mm, s, _, hinit, ?_, hproc, rfl, by decide, ht.writablePte hproc (by decide)⟩
  rw [run_append hrun1]
  exact run_step hstep (run_step hnext (run_nil _))

end

end Sys

end BabyOS
