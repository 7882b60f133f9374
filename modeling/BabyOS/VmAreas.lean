import BabyOS.MmPages
import BabyOS.Runs
import BabyOS.Spans

namespace BabyOS

def userVmSize : Word := 0xc0000000#32
def vmUnmappedBase : Word := userVmSize / 3
def mapFixed : Word := 0x10#32
def protRead : Word := 0x1#32
def protWrite : Word := 0x2#32
def protExec : Word := 0x4#32
def vmRead : Word := 0x1#32
def vmWrite : Word := 0x2#32
def vmExec : Word := 0x4#32
def vmStack : Word := 0x177#32
def userStackTop : Word := 0xc0000000#32

structure VmArea where
  start : Word
  stop : Word
  pageProt : Word
  flags : Word
  deriving DecidableEq

def findVma (areas : List VmArea) (addr : Word) : Option VmArea :=
  areas.find? fun a => addr < a.stop

/-- The second half of `insert_vma`: the area takes in its successor where they meet. -/
def mergeNext (vma : VmArea) : List VmArea → List VmArea
  | [] => [vma]
  | p :: rest =>
    if vma.stop = p.start ∧ vma.pageProt = p.pageProt ∧ vma.flags = p.flags then
      { vma with stop := p.stop } :: rest
    else vma :: p :: rest

def insertVma (areas : List VmArea) (vma : VmArea) : Option (List VmArea) :=
  let before := areas.takeWhile fun p => p.start < vma.stop
  let after := areas.dropWhile fun p => p.start < vma.stop
  match before.getLast? with
  | none => some (mergeNext vma after)
  | some prev =>
    if prev.stop > vma.start then none
    else if prev.stop = vma.start ∧ prev.pageProt = vma.pageProt ∧ prev.flags = vma.flags then
      some (before.dropLast ++ mergeNext { prev with stop := vma.stop } after)
    else some (before ++ mergeNext vma after)

def unmappedLoop (len : Word) : Word → List VmArea → Word
  | addr, [] => addr
  | addr, vma :: rest =>
    if userVmSize - len < addr then 0
    else if addr + len ≤ vma.start then addr
    else unmappedLoop len vma.stop rest

def getUnmappedArea (areas : List VmArea) (len : Word) : Word :=
  unmappedLoop len vmUnmappedBase (areas.dropWhile fun a => ¬vmUnmappedBase < a.stop)

/-- The end of `do_mmap`, after the address is fixed; `pool` tells whether the object pool has
an area to give. -/
def mapArea (areas : List VmArea) (addr len prot : Word) (pool : Bool) : Word × List VmArea :=
  if pool then
    match insertVma areas ⟨addr, addr + len, prot, prot &&& (vmRead ||| vmWrite ||| vmExec)⟩ with
    | none => (-1, areas)
    | some areas' => (addr, areas')
  else (-1, areas)

def doMmap (areas : List VmArea) (addr len prot flags : Word) (pool : Bool) : Word × List VmArea :=
  let len := pageAlign len
  if len = 0 then (addr, areas)
  else if len > userVmSize ∨ addr > userVmSize ∨ addr > userVmSize - len then (-1, areas)
  else if flags &&& mapFixed ≠ 0 then
    if addr &&& ~~~pageMask ≠ 0 then (-1, areas)
    else
      match findVma areas addr with
      | some p => if addr + len > p.start then (-1, areas) else mapArea areas addr len prot pool
      | none => mapArea areas addr len prot pool
  else
    let addr := getUnmappedArea areas len
    if addr = 0 then (-1, areas) else mapArea areas addr len prot pool

def stackArea : VmArea :=
  ⟨userStackTop - pageSize, userStackTop, protRead ||| protWrite, vmStack⟩

def VmArea.lo (a : VmArea) : Nat := a.start.toNat
def VmArea.hi (a : VmArea) : Nat := a.stop.toNat

structure VmArea.InUser (a : VmArea) : Prop where
  user : a.stop.toNat ≤ userVmSize.toNat
  start_dvd : 4096 ∣ a.start.toNat
  stop_dvd : 4096 ∣ a.stop.toNat

structure AreasOk (areas : List VmArea) : Prop where
  spans : Spans VmArea.lo VmArea.hi areas
  inUser : ∀ a ∈ areas, a.InUser

abbrev InAreas (areas : List VmArea) (x : Nat) : Prop := Covered VmArea.lo VmArea.hi areas x

section

variable {areas areas' : List VmArea} {vma : VmArea}

variable {addr : Word} {xs ys : List VmArea}

theorem findVma_split (h : findVma areas addr = some vma) :
    ∃ xs ys, areas = xs ++ vma :: ys ∧ addr < vma.stop ∧ ∀ a ∈ xs, a.stop ≤ addr := by
  obtain ⟨hv, xs, ys, he, hxs⟩ := List.find?_eq_some_iff_append.mp h
  refine ⟨xs, ys, he, by simpa using hv, fun a ha => ?_⟩
  have := hxs a ha
  simpa using this

theorem AreasOk.sublist (h : AreasOk areas) (hs : areas'.Sublist areas) : AreasOk areas' :=
  ⟨⟨fun a ha => h.spans.1 a (hs.subset ha), h.spans.2.sublist hs⟩, fun a ha => h.inUser a (hs.subset ha)⟩

theorem AreasOk.merge {a b : VmArea} (h : AreasOk (xs ++ a :: b :: ys))
    (hmeet : a.stop = b.start) : AreasOk (xs ++ { a with stop := b.stop } :: ys) ∧
      ∀ x, InAreas (xs ++ { a with stop := b.stop } :: ys) x ↔
        InAreas (xs ++ a :: b :: ys) x := by
  have ha := h.spans.1 a (by simp)
  have hb := h.spans.1 b (by simp)
  refine ⟨⟨h.spans.merge rfl rfl, fun d hd => ?_⟩,
    fun x => covered_merge (congrArg BitVec.toNat hmeet) ha hb rfl rfl⟩
  have hau := h.inUser a (by simp)
  have hbu := h.inUser b (by simp)
  simp only [List.mem_append, List.mem_cons] at hd
  rcases hd with hd | rfl | hd
  · exact h.inUser d (by simp [hd])
  · exact ⟨hbu.user, hau.start_dvd, hbu.stop_dvd⟩
  · exact h.inUser d (by simp [hd])

theorem AreasOk.mergeNext (h : AreasOk (xs ++ vma :: ys)) :
    AreasOk (xs ++ mergeNext vma ys) ∧ ∀ x, InAreas (xs ++ mergeNext vma ys) x ↔
      InAreas (xs ++ vma :: ys) x := by
  cases ys with
  | nil => exact ⟨h, fun _ => Iff.rfl⟩
  | cons p rest =>
    simp only [BabyOS.mergeNext]
    split_ifs with hm
    · exact h.merge hm.1
    · exact ⟨h, fun _ => Iff.rfl⟩

theorem AreasOk.insert_between (h : AreasOk (xs ++ ys)) (hu : vma.InUser)
    (hv : vma.start.toNat < vma.stop.toNat) (hx : ∀ a ∈ xs, a.hi ≤ vma.lo)
    (hy : ∀ b ∈ ys, vma.hi ≤ b.lo) : AreasOk (xs ++ vma :: ys) := by
  refine ⟨h.spans.insert hv hx hy, fun a ha => ?_⟩
  simp only [List.mem_append, List.mem_cons] at ha
  rcases ha with ha | rfl | ha
  · exact h.inUser a (by simp [ha])
  · exact hu
  · exact h.inUser a (by simp [ha])

theorem AreasOk.insertVma (h : AreasOk areas) (hu : vma.InUser)
    (hv : vma.start.toNat < vma.stop.toNat) (hi : insertVma areas vma = some areas') :
    AreasOk areas' ∧ ∀ x, Covered VmArea.lo VmArea.hi areas' x ↔
      Covered VmArea.lo VmArea.hi areas x ∨ (vma.lo ≤ x ∧ x < vma.hi) := by
  have hsplit : areas.takeWhile (fun p => p.start < vma.stop) ++
      areas.dropWhile (fun p => p.start < vma.stop) = areas := List.takeWhile_append_dropWhile
  have hafter : ∀ b ∈ areas.dropWhile (fun p => p.start < vma.stop), vma.hi ≤ b.lo :=
    h.spans.dropWhile_le fun a => decide_eq_true_iff
  unfold BabyOS.insertVma at hi
  generalize hbefore : areas.takeWhile (fun p => p.start < vma.stop) = before at hsplit hi
  generalize areas.dropWhile (fun p => p.start < vma.stop) = after at hsplit hi hafter
  subst hsplit
  have hinsert : ∀ {xs ys : List VmArea} {x : Nat}, InAreas (xs ++ vma :: ys) x ↔
      InAreas (xs ++ ys) x ∨ (vma.lo ≤ x ∧ x < vma.hi) := by
    intro xs ys x
    simp only [covered_append, covered_cons]
    tauto
  rcases List.eq_nil_or_concat before with rfl | ⟨xs, prev, rfl⟩
  · simp only [List.getLast?_nil, Option.some.injEq] at hi
    subst hi
    obtain ⟨hok, hcov⟩ := (AreasOk.insert_between (show AreasOk ([] ++ _) from h) hu hv (by simp) hafter).mergeNext
    exact ⟨hok, fun x => (hcov x).trans hinsert⟩
  · rw [List.concat_eq_append] at h hi
    simp only [List.getLast?_append, List.getLast?_singleton, Option.some_or] at hi
    split at hi
    next => simp at hi
    next hno =>
      have hprev : prev.hi ≤ vma.lo := by
        rw [gt_iff_lt, BitVec.lt_def, not_lt] at hno
        exact hno
      have hbefore' : ∀ a ∈ xs ++ [prev], a.hi ≤ vma.lo := by
        intro a ha
        rcases List.mem_append.mp ha with ha | ha
        · have hspan := h.spans
          rw [List.append_assoc] at hspan
          have h1 := (List.pairwise_append.mp hspan.2).2.2 a ha prev (by simp)
          have h2 := h.spans.1 prev (by simp)
          omega
        · obtain rfl : a = prev := by simpa using ha
          exact hprev
      have hins := h.insert_between hu hv hbefore' hafter
      rw [List.concat_eq_append]
      split at hi
      next hm =>
        have hins' : AreasOk (xs ++ prev :: vma :: after) := by simpa using hins
        obtain ⟨hok, hcov⟩ := hins'.merge hm.1
        obtain ⟨hok', hcov'⟩ := hok.mergeNext
        rw [List.dropLast_concat, Option.some.injEq] at hi
        subst hi
        refine ⟨hok', fun x => (hcov' x).trans ((hcov x).trans ?_)⟩
        rw [← hinsert]
        simp
      next =>
        obtain ⟨hok, hcov⟩ := hins.mergeNext
        cases Option.some.inj hi
        exact ⟨hok, fun x => (hcov x).trans hinsert⟩

/-- What mapping `len` bytes owes: the areas stay in order, and unless the call fails they cover
just these bytes more. -/
structure Mapped (areas : List VmArea) (len : Word) (r : Word × List VmArea) : Prop where
  ok : AreasOk r.2
  grows : ∀ x, Covered VmArea.lo VmArea.hi areas x → Covered VmArea.lo VmArea.hi r.2 x
  covers : r.1 ≠ -1 → 0 < len.toNat → r.1.toNat + len.toNat ≤ userVmSize.toNat ∧
    ∀ x, Covered VmArea.lo VmArea.hi r.2 x ↔
      Covered VmArea.lo VmArea.hi areas x ∨ (r.1.toNat ≤ x ∧ x < r.1.toNat + len.toNat)

theorem AreasOk.fail (h : AreasOk areas) (len : Word) : Mapped areas len (-1, areas) :=
  ⟨h, fun _ hx => hx, fun hne => absurd rfl hne⟩

theorem AreasOk.mapArea (h : AreasOk areas) {len prot : Word} {pool : Bool}
    (hle : addr.toNat + len.toNat ≤ userVmSize.toNat) (hpos : 0 < len.toNat)
    (ha : 4096 ∣ addr.toNat) (hl : 4096 ∣ len.toNat) : Mapped areas len (mapArea areas addr len prot pool) := by
  have hstop : (addr + len).toNat = addr.toNat + len.toNat := by
    rw [BitVec.toNat_add]
    omega
  unfold BabyOS.mapArea
  cases pool with
  | false => exact h.fail len
  | true =>
    simp only [if_true]
    cases hi : BabyOS.insertVma areas
      ⟨addr, addr + len, prot, prot &&& (vmRead ||| vmWrite ||| vmExec)⟩ with
    | none => exact h.fail len
    | some areas' =>
      obtain ⟨hok, hcov⟩ := h.insertVma ⟨hstop ▸ hle, ha, hstop ▸ Nat.dvd_add ha hl⟩
        (by simp only [hstop]; omega) hi
      refine ⟨hok, fun x hx => (hcov x).mpr (Or.inl hx), fun _ _ => ⟨hle, fun x => ?_⟩⟩
      rw [hcov, VmArea.lo, VmArea.hi, hstop]

end

def gaps : Word → List VmArea → List (Word × Word)
  | _, [] => []
  | addr, a :: rest => (addr, a.start) :: gaps a.stop rest

def Room (areas : List VmArea) (len : Word) : Prop :=
  ∃ g ∈ gaps vmUnmappedBase (areas.dropWhile fun a => ¬vmUnmappedBase < a.stop),
    g.1.toNat + len.toNat ≤ g.2.toNat ∨ userVmSize.toNat < g.1.toNat + len.toNat

variable {len addr : Word} {areas : List VmArea} {c : MmapCall}

theorem unmappedLoop_bound (h : ∀ a ∈ areas, a.InUser)
    (hs : ∀ a ∈ areas, a.start.toNat < a.stop.toNat) (hlen : len.toNat ≤ userVmSize.toNat)
    (ha : 4096 ∣ addr.toNat) (hroom : ∃ g ∈ gaps addr areas,
      g.1.toNat + len.toNat ≤ g.2.toNat ∨ userVmSize.toNat < g.1.toNat + len.toNat)
    (hne : unmappedLoop len addr areas ≠ 0) : (unmappedLoop len addr areas).toNat + len.toNat ≤ userVmSize.toNat ∧
      4096 ∣ (unmappedLoop len addr areas).toNat := by
  induction areas generalizing addr with
  | nil =>
    obtain ⟨g, hg, _⟩ := hroom
    simp [gaps] at hg
  | cons a rest ih =>
    have hau := h a (by simp)
    have hsub : (userVmSize - len).toNat = userVmSize.toNat - len.toNat := by
      rw [BitVec.toNat_sub]
      omega
    simp only [unmappedLoop] at hne ⊢
    split_ifs at hne ⊢ with h1 h2
    · exact absurd rfl hne
    · rw [BitVec.lt_def, hsub] at h1
      rw [BitVec.le_def, BitVec.toNat_add] at h2
      have := hau.user
      omega
    · refine ih (fun b hb => h b (by simp [hb])) (fun b hb => hs b (by simp [hb])) hau.stop_dvd ?_ hne
      obtain ⟨g, hg, hfit⟩ := hroom
      rcases List.mem_cons.mp hg with rfl | hg
      · rw [BitVec.lt_def, hsub] at h1
        rw [BitVec.le_def, BitVec.toNat_add] at h2
        dsimp only at hfit
        omega
      · exact ⟨g, hg, hfit⟩

structure MmapCall where
  addr : Word
  len : Word
  prot : Word
  flags : Word
  pool : Bool

def MmapCall.exec (areas : List VmArea) (c : MmapCall) : Word × List VmArea :=
  doMmap areas c.addr c.len c.prot c.flags c.pool

/-- The length does not wrap when it is rounded up, and a search for a gap does not run off the end of the list.
-/
def MmapFits (areas : List VmArea) (c : MmapCall) : Prop :=
  c.len.toNat ≤ 0xfffff000 ∧ (c.flags &&& mapFixed = 0 → pageAlign c.len ≤ userVmSize →
    c.addr ≤ userVmSize - pageAlign c.len → Room areas (pageAlign c.len))

theorem toNat_pageAlign (h : len.toNat ≤ 0xfffff000) : (pageAlign len).toNat = (len.toNat + 4095) / 4096 * 4096 := by
  have hmask : pageMask = highMask 12 := by decide
  have hsize : pageSize = 4096#32 := by decide
  have hadd : (len + pageSize - 1).toNat = len.toNat + 4095 := by
    rw [hsize]
    bv_omega
  rw [pageAlign, hmask, toNat_and_highMask, hadd]
  rfl

theorem paged_of_and_eq_zero (h : addr &&& ~~~pageMask = 0) : 4096 ∣ addr.toNat := by
  have hmask : pageMask = highMask 12 := by decide
  have hmod := not_highMask_and addr 12 (by decide)
  rw [← hmask, h] at hmod
  exact Nat.dvd_of_mod_eq_zero hmod.symm

theorem AreasOk.doMmap_cases (h : AreasOk areas) (hf : MmapFits areas c) :
    (pageAlign c.len = 0 ∧ c.exec areas = (c.addr, areas)) ∨ c.exec areas = (-1, areas) ∨
      ∃ addr, addr.toNat + (pageAlign c.len).toNat ≤ userVmSize.toNat ∧ 0 < (pageAlign c.len).toNat ∧
        4096 ∣ addr.toNat ∧ 4096 ∣ (pageAlign c.len).toNat ∧
        c.exec areas = BabyOS.mapArea areas addr (pageAlign c.len) c.prot c.pool := by
  have hbase : 4096 ∣ vmUnmappedBase.toNat := by decide
  obtain ⟨hlen, hroom⟩ := hf
  have hl : 4096 ∣ (pageAlign c.len).toNat := by
    rw [toNat_pageAlign hlen]
    exact Dvd.intro_left _ rfl
  unfold MmapCall.exec BabyOS.doMmap
  by_cases hzero : pageAlign c.len = 0
  · refine Or.inl ⟨hzero, ?_⟩
    simp only [if_pos hzero]
  have hpos : 0 < (pageAlign c.len).toNat := by
    rcases Nat.eq_zero_or_pos (pageAlign c.len).toNat with h0 | h0
    · exact absurd (BitVec.eq_of_toNat_eq h0) hzero
    · exact h0
  simp only [if_neg hzero]
  refine Or.inr ?_
  split_ifs with hrange hfixed hpage hnone
  · exact Or.inl rfl
  · exact Or.inl rfl
  · have ha : 4096 ∣ c.addr.toNat := paged_of_and_eq_zero (by simpa using hpage)
    have hle : c.addr.toNat + (pageAlign c.len).toNat ≤ userVmSize.toNat := by
      simp only [not_or, gt_iff_lt, BitVec.not_lt] at hrange
      obtain ⟨hlen', -, haddr⟩ := hrange
      rw [BitVec.le_def, BitVec.toNat_sub_of_le hlen'] at haddr
      rw [BitVec.le_def] at hlen'
      omega
    cases findVma areas c.addr with
    | none => exact Or.inr ⟨c.addr, hle, hpos, ha, hl, rfl⟩
    | some p =>
      dsimp only
      split_ifs
      · exact Or.inl rfl
      · exact Or.inr ⟨c.addr, hle, hpos, ha, hl, rfl⟩
  · exact Or.inl rfl
  · simp only [not_or, gt_iff_lt, BitVec.not_lt] at hrange
    obtain ⟨hlen', -, haddr⟩ := hrange
    have hsub := areas.dropWhile_sublist fun a => ¬vmUnmappedBase < a.stop
    obtain ⟨hle, ha⟩ := unmappedLoop_bound (fun a hm => h.inUser a (hsub.subset hm))
      (fun a hm => h.spans.1 a (hsub.subset hm)) hlen' hbase
      (hroom (by simpa using hfixed) hlen' haddr) hnone
    exact Or.inr ⟨getUnmappedArea areas (pageAlign c.len), hle, hpos, ha, hl, rfl⟩

theorem AreasOk.doMmap (h : AreasOk areas)
    (hf : MmapFits areas c) : Mapped areas (pageAlign c.len) (c.exec areas) := by
  rcases h.doMmap_cases hf with ⟨hzero, he⟩ | he | ⟨addr, hle, hpos, ha, hl, he⟩
  · rw [he]
    refine ⟨h, fun _ hx => hx, fun _ hpos => ?_⟩
    simp [hzero] at hpos
  · rw [he]
    exact h.fail _
  · rw [he]
    exact h.mapArea hle hpos ha hl

def mmapStep (areas : List VmArea) (c : MmapCall) : Option (List VmArea) := some (c.exec areas).2

theorem stackArea_ok : AreasOk [stackArea] := by
  refine ⟨⟨?_, by simp⟩, ?_⟩
  · simp only [List.mem_singleton, forall_eq]
    decide
  · simp only [List.mem_singleton, forall_eq]
    exact ⟨by decide, by decide, by decide⟩

/-- After every sequence of calls that meet the condition the areas lie in the user part, and what
a further one maps is covered. -/
theorem mmap_run_bounds {calls : List MmapCall} {areas : List VmArea}
    (hfit : Along mmapStep MmapFits [stackArea] calls) (hrun : run mmapStep [stackArea] calls = some areas) :
    (∀ a ∈ areas, a.start < a.stop ∧ a.stop ≤ userVmSize) ∧
      ∀ c, MmapFits areas c → (c.exec areas).1 ≠ -1 → 0 < c.len →
        ∀ x, (c.exec areas).1.toNat ≤ x → x < (c.exec areas).1.toNat + c.len.toNat →
          Covered VmArea.lo VmArea.hi (c.exec areas).2 x := by
  have hok : AreasOk areas := by
    refine run_invariant (fun s c s' hs hc he => ?_) stackArea_ok hfit hrun
    cases Option.some.inj he
    exact (hs.doMmap hc).ok
  refine ⟨fun a ha => ⟨hok.spans.1 a ha, (hok.inUser a ha).user⟩, ?_⟩
  intro c hc hne hpos x h1 h2
  have halign := toNat_pageAlign hc.1
  obtain ⟨-, hcov⟩ := (hok.doMmap hc).covers hne (by omega)
  exact (hcov x).mpr (Or.inr ⟨h1, by omega⟩)

theorem mmap_run_bounds_page : Along mmapStep MmapFits [stackArea] [⟨0, 1, 3, 0, true⟩] ∧
    ∀ a ∈ (MmapCall.exec [stackArea] ⟨0, 1, 3, 0, true⟩).2, a.start < a.stop ∧ a.stop ≤ userVmSize := by
  have hroom : MmapFits [stackArea] ⟨0, 1, 3, 0, true⟩ :=
    ⟨by decide, fun _ _ _ => ⟨(vmUnmappedBase, stackArea.start), by decide, by decide⟩⟩
  have hfit : Along mmapStep MmapFits [stackArea] [⟨0, 1, 3, 0, true⟩] := ⟨hroom, fun _ _ => trivial⟩
  exact ⟨hfit, (mmap_run_bounds hfit rfl).1⟩

/-- Two calls on a fresh process. Half of the address space passes the check but does not fit below the stack:
the search returns the end of the stack. A length that wraps to zero is taken for an empty one, with nothing
mapped. -/
theorem mmap_leaves_user_part :
    MmapCall.exec [stackArea] ⟨0, 0x80000000, 3, 0, true⟩ =
      (0xc0000000, [⟨0xc0000000, 0x40000000, 3, 3⟩, stackArea]) ∧
    (MmapCall.exec [stackArea] ⟨0x10000000, 0xffffffff, 3, mapFixed, true⟩).1 = 0x10000000 ∧
    ¬Covered VmArea.lo VmArea.hi
      (MmapCall.exec [stackArea] ⟨0x10000000, 0xffffffff, 3, mapFixed, true⟩).2 0x10000000 := by
  refine ⟨by decide, by decide, ?_⟩
  have he : (MmapCall.exec [stackArea] ⟨0x10000000, 0xffffffff, 3, mapFixed, true⟩).2 =
      [stackArea] := by decide
  rw [he]
  simp only [Covered, List.mem_singleton, exists_eq_left]
  decide

end BabyOS
