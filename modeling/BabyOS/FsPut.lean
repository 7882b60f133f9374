import BabyOS.FsFrame
import BabyOS.FsOwn

open Function List

namespace BabyOS

open DiskInode

namespace Fs

def freed (s : Fs) (ls : List Nat) : Fs := { s with disk := unmarkAll s.disk (bitmapStart s.disk) ls }

section

variable {s : Fs} {i : InodeIx} {a lba table : Nat} {ls : List Nat}

theorem freed_one : (s.freed ls).disk 1 = s.disk 1 :=
  unmarkAll_of_lt ls (Nat.lt_trans (by decide) (two_lt_bitmapStart s.disk))

theorem freed_cons : (s.freed [a]).freed ls = s.freed (a :: ls) := by
  show { s with disk := unmarkAll (s.freed [a]).disk (bitmapStart (s.freed [a]).disk) ls } = _
  rw [bitmapStart_congr freed_one]
  rfl

theorem freed_mapInode {f : Inode → Inode} : (s.mapInode i f).freed ls = (s.freed ls).mapInode i f := rfl

theorem used_freed : used (s.freed ls).disk (bitmapStart s.disk) lba =
    (!decide (lba ∈ ls) && used s.disk (bitmapStart s.disk) lba) :=
  used_unmarkAll ls

theorem BitmapFree.freed (h : s.BitmapFree) : (s.freed ls).BitmapFree := h.congr freed_one rfl

theorem BitmapFree.freeBlock (h : s.BitmapFree) (hl : lba < nblocks s.disk)
    (hu : used s.disk (bitmapStart s.disk) lba = true) : freeBlock lba s = .ok ((), s.freed [lba]) :=
  freeBlock_used h.super (h.bitmap _ (by omega)) hu

def ownBlocks (d : DiskInode) (ks : List (Fin 13)) : List Nat :=
  (ks.map fun k => (d.addrs k).toNat).filter (· ≠ 0)

def cleared (d : Inode) (ks : List (Fin 13)) : Inode := { d with addrs := fun k => if k ∈ ks then 0 else d.addrs k }

variable {d : Inode} {k : Fin 13} {ks : List (Fin 13)} {l : Nat}

theorem cleared_cons : cleared (cleared d [k]) ks = cleared d (k :: ks) := by
  unfold cleared
  congr 2
  funext l
  by_cases h1 : l = k <;> by_cases h2 : l ∈ ks <;> simp [h1, h2]

theorem cleared_singleton (d : Inode) (k : Fin 13) :
    cleared d [k] = { d with addrs := update d.addrs k 0 } := by
  unfold cleared
  congr 2
  funext l
  simp [update_apply]

theorem setAddr_zero : setAddr i k 0 s = .ok ((), s.mapInode i fun d => cleared d [k]) := by
  simp only [cleared_singleton]
  rfl

theorem cleared_of_zero (h : d.addrs k = 0) : cleared d (k :: ks) = cleared d ks := by
  unfold cleared
  congr 2
  funext l
  by_cases h1 : l = k <;> by_cases h2 : l ∈ ks <;> simp [h1, h2, h]

theorem cleared_addrs {l : Fin 13} (h : l ≠ k) : (cleared d [k]).addrs l = d.addrs l :=
  if_neg fun hl => h (mem_singleton.mp hl)

theorem ownBlocks_cleared (h : k ∉ ks) : ownBlocks (cleared d [k]).toDiskInode ks = ownBlocks d.toDiskInode ks := by
  unfold ownBlocks
  congr 1
  refine map_congr_left fun l hl => ?_
  rw [cleared_addrs (show l ≠ k from fun he => h (he ▸ hl))]

/-- The blocks of the list other than 0 are marked, and none of them is in it twice. -/
structure MarkedOnce (disk : Nat → Block) (ls : List Nat) : Prop where
  marked : ∀ l ∈ ls, l ≠ 0 → l < nblocks disk ∧ used disk (bitmapStart disk) l = true
  once : ls.Pairwise fun a b => a ≠ 0 → a ≠ b

theorem MarkedOnce.of_cons {disk : Nat → Block} (h : MarkedOnce disk (a :: ls)) : MarkedOnce disk ls :=
  ⟨fun l hl => h.marked l (mem_cons_of_mem a hl), (pairwise_cons.mp h.once).2⟩

theorem MarkedOnce.tail (h : MarkedOnce s.disk (a :: ls)) (ha : a ≠ 0) : MarkedOnce (s.freed [a]).disk ls := by
  refine ⟨fun l hl h0 => ?_, h.of_cons.once⟩
  obtain ⟨hlt, hu⟩ := h.of_cons.marked l hl h0
  rw [nblocks_congr freed_one, bitmapStart_congr freed_one, used_freed, hu, Bool.and_true, Bool.not_eq_true',
    decide_eq_false_iff_not, mem_singleton]
  exact ⟨hlt, Ne.symm ((pairwise_cons.mp h.once).1 l hl ha)⟩

theorem BitmapFree.freeDirect (h : s.BitmapFree) (hnodup : ks.Nodup)
    (hm : MarkedOnce s.disk (ks.map fun k => ((s.inodes i).addrs k).toNat)) :
    freeDirect i ks s = .ok ((), (s.freed (ownBlocks (s.inodes i).toDiskInode ks)).mapInode i fun d => cleared d ks) := by
  induction ks generalizing s with
  | nil =>
    show Except.ok ((), s) = .ok ((), { s with inodes := update s.inodes i (s.inodes i) })
    rw [update_eq_self]
  | cons k ks ih =>
    obtain ⟨hk, hks⟩ := nodup_cons.mp hnodup
    rw [Fs.freeDirect, bind_ok inodeAt_ok]
    by_cases hz : (s.inodes i).addrs k = 0
    · have hown : ownBlocks (s.inodes i).toDiskInode (k :: ks) = ownBlocks (s.inodes i).toDiskInode ks := by
        unfold ownBlocks
        rw [map_cons, filter_cons_of_neg (by simp [hz])]
      rw [if_neg (not_not.mpr hz), ih h hks hm.of_cons, hown]
      congr 2
      unfold mapInode
      dsimp only
      rw [cleared_of_zero (d := (s.freed _).inodes i) hz]
    · have h0 : ((s.inodes i).addrs k).toNat ≠ 0 := by simpa [← BitVec.toNat_inj] using hz
      obtain ⟨hlt, hu⟩ := hm.marked _ mem_cons_self h0
      have hown : ownBlocks (s.inodes i).toDiskInode (k :: ks) =
          ((s.inodes i).addrs k).toNat :: ownBlocks (s.inodes i).toDiskInode ks := by
        unfold ownBlocks
        rw [map_cons, filter_cons_of_pos (by simpa using h0)]
      rw [if_pos hz, bind_ok (h.freeBlock hlt hu), bind_ok setAddr_zero]
      generalize ht : (s.freed [((s.inodes i).addrs k).toNat]).mapInode i (fun d => cleared d [k]) = t
      have hti : t.inodes i = cleared (s.inodes i) [k] := by
        rw [← ht]
        exact mapInode_self
      have htd : t.disk = (s.freed [((s.inodes i).addrs k).toNat]).disk := by rw [← ht]; rfl
      have hfree : t.BitmapFree := h.congr (by rw [htd, freed_one]) (by rw [← ht]; rfl)
      rw [ih hfree hks ?_]
      · rw [hti, ownBlocks_cleared hk, hown, ← freed_cons, ← ht]
        refine congrArg (fun u => Except.ok ((), u)) ?_
        show (((s.freed _).freed _).mapInode i fun d => cleared d [k]).mapInode i (fun d => cleared d ks) = _
        rw [mapInode_mapInode]
        simp only [cleared_cons]
      · rw [hti, htd, map_congr_left fun l hl => by rw [cleared_addrs (show l ≠ k from fun he => hk (he ▸ hl))]]
        exact hm.tail h0

def freeAll (ls : List Nat) : FsM Unit := forM ls Fs.freeBlock

theorem BitmapFree.freeAll (h : s.BitmapFree) (hm : MarkedOnce s.disk ls) (h0 : 0 ∉ ls) :
    freeAll ls s = .ok ((), s.freed ls) := by
  induction ls generalizing s with
  | nil => rfl
  | cons l ls ih =>
    rw [mem_cons, not_or] at h0
    obtain ⟨hlt, hu⟩ := hm.marked l mem_cons_self (Ne.symm h0.1)
    rw [Fs.freeAll, forM_cons, bind_ok (h.freeBlock hlt hu)]
    exact (ih h.freed (hm.tail (Ne.symm h0.1)) h0.2).trans (by rw [freed_cons])

def clearEntries (b : Block) (es : List Nat) : Block := es.foldl (fun b e => setWord b (4 * e) 0) b

theorem freeEntries_eq {b : Block} {es : List Nat} (hnodup : es.Nodup) : freeEntries b es =
    freeAll (es.map fun e => (getWord b (4 * e)).toNat) >>= fun _ => pure (clearEntries b es) := by
  induction es generalizing b with
  | nil => rfl
  | cons e es ih =>
    obtain ⟨he, hes⟩ := nodup_cons.mp hnodup
    have hword : ∀ l ∈ es, getWord (setWord b (4 * e) 0) (4 * l) = getWord b (4 * l) := by
      intro l hl
      have hne : l ≠ e := fun hle => he (hle ▸ hl)
      exact getWord_setWord_ne (by omega)
    rw [freeEntries, ih hes, map_congr_left fun l hl => by rw [hword l hl], map_cons, freeAll, freeAll, forM_cons,
      bind_assoc]
    rfl

theorem BitmapFree.freeIndirect (h : s.BitmapFree) (hz : (s.inodes i).addrs 12 ≠ 0)
    (htable : ((s.inodes i).addrs 12).toNat = table) (hbuf : s.bufs table ≠ 0) (hmeta : metaEnd s.disk ≤ table)
    (hes : ((List.range nindirect).map fun e => (getWord (s.disk table) (4 * e)).toNat) = ls)
    (hm : MarkedOnce s.disk (table :: ls)) (h0 : 0 ∉ ls) :
    ∃ t, freeIndirect i s = .ok ((), t) ∧ t.bufs = s.bufs ∧ t.disk 1 = s.disk 1 ∧
      (t.inodes i).inum = (s.inodes i).inum ∧ ∀ l, l / 4096 < (nblocks s.disk + 4095) / 4096 →
        (used t.disk (bitmapStart s.disk) l = true ↔ used s.disk (bitmapStart s.disk) l = true ∧ l ≠ table ∧ l ∉ ls) := by
  have hbase := two_lt_bitmapStart s.disk
  have htwo : 2 < table := by
    unfold metaEnd at hmeta
    omega
  obtain ⟨hlt, hu⟩ := hm.marked table mem_cons_self (by omega)
  have hnot : table ∉ ls := fun hl => (pairwise_cons.mp hm.once).1 table hl (by omega) rfl
  have hfree : freeEntries (s.disk table) (List.range nindirect) (s.held table) =
      .ok (clearEntries (s.disk table) (List.range nindirect), (s.held table).freed ls) := by
    rw [freeEntries_eq nodup_range, hes]
    exact bind_ok ((h.held hmeta).freeAll hm.of_cons h0)
  generalize clearEntries (s.disk table) (List.range nindirect) = b at hfree
  have hone' : ((s.freed ls).setBlock table b).disk 1 = s.disk 1 := (setBlock_of_ne (by omega)).trans freed_one
  have hmeta' : metaEnd (s.freed ls).disk ≤ table := by rwa [metaEnd_congr freed_one]
  have hold : ∀ l, l / 4096 < (nblocks s.disk + 4095) / 4096 →
      used ((s.freed ls).setBlock table b).disk (bitmapStart s.disk) l =
        (!decide (l ∈ ls) && used s.disk (bitmapStart s.disk) l) := by
    intro l hl
    rw [← used_freed, ← bitmapStart_congr (show (s.freed ls).disk 1 = s.disk 1 from freed_one)]
    rw [← nblocks_congr (show (s.freed ls).disk 1 = s.disk 1 from freed_one)] at hl
    unfold metaEnd at hmeta'
    exact used_congr (update_of_ne (by omega) _ _)
  have hlast := (h.congr (t := (s.freed ls).setBlock table b) hone' rfl).freeBlock
    (show table < _ by rwa [nblocks_congr hone']) (by
      rw [bitmapStart_congr hone', hold table (by omega), hu, Bool.and_true, Bool.not_eq_true', decide_eq_false_iff_not]
      exact hnot)
  refine ⟨(((s.freed ls).setBlock table b).freed [table]).mapInode i fun d => cleared d [12], ?_, rfl,
    freed_one.trans hone', by rw [mapInode_self]; rfl, fun l hl => ?_⟩
  · unfold Fs.freeIndirect
    rw [bind_ok inodeAt_ok, if_pos hz, htable, bind_ok (devRead_ok hbuf), bind_ok hfree]
    show (devWrite table b >>= fun _ => releaseBlock table >>= _) ((s.freed ls).held table) = _
    rw [store_held (s := s.freed ls) hbuf, bind_ok hlast]
    exact setAddr_zero
  · show used (((s.freed ls).setBlock table b).freed [table]).disk (bitmapStart s.disk) l = true ↔ _
    rw [← bitmapStart_congr hone', used_freed, bitmapStart_congr hone', hold l hl]
    simp only [mem_singleton, Bool.and_eq_true, Bool.not_eq_true', decide_eq_false_iff_not]
    exact ⟨fun hx => ⟨hx.2.2, hx.1, hx.2.1⟩, fun hx => ⟨hx.2.1, hx.2.2, hx.1⟩⟩

def Marked (s : Fs) (l : Nat) : Prop := used s.disk (bitmapStart s.disk) l = true

/-- An inode without links whose last reference is put back, while no buffer is locked and its blocks are its own.
-/
structure Unlinked (s : Fs) (i : InodeIx) : Prop where
  valid : (s.inodes i).valid = true
  nlinks : (s.inodes i).nlinks = 0
  ref : (s.inodes i).ref = 1
  sem : (s.inodes i).sem = 1
  bufs : ∀ l, s.bufs l = 1
  slot : (s.inodes i).inum.toNat / 8 + 2 < bitmapStart s.disk
  placed : (s.inodes i).toDiskInode.Placed s.disk

def LeadsTo (s : Fs) (i : InodeIx) (l : Nat) : Prop :=
  l ≠ 0 ∧ ∃ k < addrCount, (s.inodes i).toDiskInode.addr s.disk k = l

theorem Unlinked.bitmapFree (h : Unlinked s i) : s.BitmapFree :=
  ⟨by rw [h.bufs]; decide, fun c _ => by rw [h.bufs]; decide⟩

def direct : List (Fin 13) := (List.finRange 13).take ndirect

theorem mem_direct : k ∈ direct ↔ k.val < 12 := by
  revert k
  decide

theorem mem_ownBlocks_direct {d : DiskInode} : l ∈ ownBlocks d direct ↔ l ≠ 0 ∧ ∃ k < 12, d.addr s.disk k = l := by
  unfold ownBlocks
  simp only [mem_filter, mem_map, mem_direct, decide_eq_true_eq, ne_eq]
  constructor
  · rintro ⟨⟨k, hk, rfl⟩, h0⟩
    exact ⟨h0, k, hk, addr_own k.isLt⟩
  · rintro ⟨h0, k, hk, hl⟩
    refine ⟨⟨⟨k, by omega⟩, hk, ?_⟩, h0⟩
    rw [← hl, addr_own (by omega)]

/-- The state in which `put_inode` has freed what the inode's own table leads to. -/
def directFreed (s : Fs) (i : InodeIx) : Fs :=
  (s.freed (ownBlocks (s.inodes i).toDiskInode direct)).mapInode i
    fun e => cleared { e with sem := e.sem - 1, type := 0 } direct

/-- What is left to do in `put_inode` from there on. -/
def putRest (i : InodeIx) : FsM Unit := do
  freeIndirect i
  setInode i fun e => { e with size := 0 }
  writeToDisk i
  setInode i fun e => { e with valid := false }
  unlock i
  setInode i fun e => { e with ref := e.ref - 1 }

theorem Unlinked.markedOnce (h : Unlinked s i) {ns : List Nat} (hns : ∀ k ∈ ns, k < addrCount) (hnodup : ns.Nodup) :
    MarkedOnce s.disk (ns.map ((s.inodes i).toDiskInode.addr s.disk)) := by
  refine ⟨fun l hl h0 => ?_, pairwise_map.mpr (hnodup.imp_of_mem fun {k l} hk hl hne h0 he => ?_)⟩
  · obtain ⟨k, hk, rfl⟩ := mem_map.mp hl
    exact (h.placed.data k (hns k hk) h0).2
  · exact hne (h.placed.inj k (hns k hk) l (hns l hl) h0 he)

theorem Unlinked.putInode (h : Unlinked s i) : putInode i s = putRest i (s.directFreed i) := by
  have hsem : (s.inodes i).sem ≠ 0 := by rw [h.sem]; decide
  have hown : MarkedOnce s.disk (direct.map fun k => ((s.inodes i).addrs k).toNat) := by
    have hmap : (direct.map fun k => ((s.inodes i).addrs k).toNat) =
        (direct.map Fin.val).map ((s.inodes i).toDiskInode.addr s.disk) := by
      rw [map_map]
      exact map_congr_left fun k _ => (addr_own k.isLt).symm
    rw [hmap]
    exact h.markedOnce (by decide) (by decide)
  unfold Fs.putInode
  rw [bind_ok (lock_ok hsem), bind_ok inodeAt_ok, mapInode_self, if_pos ⟨h.valid, h.nlinks, h.ref⟩,
    bind_ok setInode_ok, mapInode_mapInode]
  generalize hs' : s.mapInode i (fun e => { e with sem := e.sem - 1, type := 0 }) = s'
  have hi : s'.inodes i = { s.inodes i with sem := (s.inodes i).sem - 1, type := 0 } := by
    rw [← hs', mapInode_self]
  have hd : s'.disk = s.disk := by rw [← hs']; rfl
  have hfree : s'.BitmapFree := h.bitmapFree.congr (by rw [hd]) (by rw [← hs']; rfl)
  have hfd := hfree.freeDirect (i := i) (show direct.Nodup by decide) (by rw [hi, hd]; exact hown)
  refine (bind_ok hfd).trans ?_
  have hstate : (s'.freed (ownBlocks (s'.inodes i).toDiskInode direct)).mapInode i (fun d => cleared d direct) =
      s.directFreed i := by
    rw [hi, ← hs', freed_mapInode, mapInode_mapInode]
    rfl
  rw [hstate]
  rfl

theorem putRest_after {t : Fs} (h : freeIndirect i s = .ok ((), t)) (hbufs : ∀ l, t.bufs l = 1) :
    ∃ b u, putRest i s = .ok ((), u) ∧ u.bufs = t.bufs ∧
      u.disk = update t.disk ((t.inodes i).inum.toNat / 8 + 2) b := by
  generalize hs' : t.mapInode i (fun e => { e with size := 0 }) = s'
  have hi : (s'.inodes i).inum = (t.inodes i).inum := by rw [← hs', mapInode_self]
  have hw := writeToDisk_ok (s := s') (i := i) (by rw [← hs']; exact (hbufs _).symm ▸ Nat.one_ne_zero)
  rw [hi] at hw
  generalize (s'.inodes i).toDiskInode.store _ _ = b at hw
  have hput : putRest i s = .ok ((), (((s'.setBlock ((t.inodes i).inum.toNat / 8 + 2) b).mapInode i
      fun e => { e with valid := false }).mapInode i fun e => { e with sem := e.sem + 1 }).mapInode i
      fun e => { e with ref := e.ref - 1 }) := by
    unfold putRest
    rw [bind_ok h, bind_ok setInode_ok, hs', bind_ok hw]
    rfl
  exact ⟨b, _, hput, by rw [← hs']; rfl, by rw [← hs']; rfl⟩

theorem directFreed_one : (s.directFreed i).disk 1 = s.disk 1 := freed_one

theorem directFreed_inode : (s.directFreed i).inodes i =
    cleared { s.inodes i with sem := (s.inodes i).sem - 1, type := 0 } direct :=
  mapInode_self

theorem directFreed_table : ((s.directFreed i).inodes i).addrs 12 = (s.inodes i).addrs 12 := by
  rw [directFreed_inode]
  rfl

theorem used_directFreed : used (s.directFreed i).disk (bitmapStart s.disk) l = true ↔
    s.Marked l ∧ ¬(l ≠ 0 ∧ ∃ k < 12, (s.inodes i).toDiskInode.addr s.disk k = l) := by
  show used (s.freed _).disk _ _ = true ↔ _
  rw [used_freed, Bool.and_eq_true, Bool.not_eq_true', decide_eq_false_iff_not, mem_ownBlocks_direct (s := s),
    and_comm]
  rfl

theorem leadsTo_iff : s.LeadsTo i lba ↔ lba ≠ 0 ∧ ((∃ k < 12, (s.inodes i).toDiskInode.addr s.disk k = lba) ∨
    ((s.inodes i).addrs 12).toNat = lba ∨ ∃ e < nindirect, (s.inodes i).toDiskInode.addr s.disk (e + 13) = lba) := by
  have htable : (s.inodes i).toDiskInode.addr s.disk 12 = ((s.inodes i).addrs 12).toNat :=
    addr_own (by decide)
  refine and_congr_right fun _ => ⟨?_, ?_⟩
  · rintro ⟨k, hk, hl⟩
    unfold addrCount at hk
    rcases Nat.lt_trichotomy k 12 with h | h | h
    · exact Or.inl ⟨k, h, hl⟩
    · exact Or.inr (Or.inl (by rw [← htable, ← h, hl]))
    · refine Or.inr (Or.inr ⟨k - 13, by unfold nindirect; omega, ?_⟩)
      rwa [Nat.sub_add_cancel (by omega)]
  · rintro (⟨k, hk, hl⟩ | hl | ⟨e, he, hl⟩)
    · exact ⟨k, by unfold addrCount; omega, hl⟩
    · exact ⟨12, by decide, by rw [htable, hl]⟩
    · unfold nindirect at he
      exact ⟨e + 13, by unfold addrCount; omega, hl⟩

theorem entry_lt {e : Nat} (he : e < nindirect) : e + 13 < addrCount := by
  unfold nindirect at he
  unfold addrCount
  omega

def entries (s : Fs) (i : InodeIx) : List Nat :=
  (List.range nindirect).map fun e => (s.inodes i).toDiskInode.addr s.disk (e + 13)

theorem mem_entries : l ∈ s.entries i ↔ ∃ e < nindirect, (s.inodes i).toDiskInode.addr s.disk (e + 13) = l := by
  unfold entries
  simp only [mem_map, mem_range]

theorem Unlinked.kept (h : Unlinked s i) (htable : ((s.inodes i).addrs 12).toNat = table) :
    MarkedOnce (s.directFreed i).disk (table :: s.entries i) := by
  have hlist : table :: s.entries i =
      (12 :: (List.range nindirect).map (· + 13)).map ((s.inodes i).toDiskInode.addr s.disk) := by
    rw [map_cons, map_map, ← htable]
    rfl
  have hns : ∀ k ∈ 12 :: (List.range nindirect).map (· + 13), 12 ≤ k ∧ k < addrCount := by
    intro k hk
    rcases mem_cons.mp hk with rfl | hk
    · decide
    · obtain ⟨e, he, rfl⟩ := mem_map.mp hk
      exact ⟨by omega, entry_lt (mem_range.mp he)⟩
  have hnodup : (12 :: (List.range nindirect).map (· + 13)).Nodup := by
    refine nodup_cons.mpr ⟨fun h12 => ?_, nodup_range.map (add_left_injective 13)⟩
    obtain ⟨e, -, he⟩ := mem_map.mp h12
    omega
  rw [hlist]
  obtain ⟨hmarked, honce⟩ := h.markedOnce (fun k hk => (hns k hk).2) hnodup
  refine ⟨fun l hl h0 => ?_, honce⟩
  obtain ⟨hlt, hu⟩ := hmarked l hl h0
  obtain ⟨k, hk, rfl⟩ := mem_map.mp hl
  rw [nblocks_congr directFreed_one, bitmapStart_congr directFreed_one, used_directFreed]
  refine ⟨hlt, hu, ?_⟩
  rintro ⟨-, l, hl, heq⟩
  obtain ⟨h12, hk⟩ := hns k hk
  have := h.placed.inj l (by unfold addrCount; omega) k hk (by rwa [heq]) heq
  omega

theorem Unlinked.indirect (h : Unlinked s i) (hz : (s.inodes i).addrs 12 ≠ 0)
    (htable : ((s.inodes i).addrs 12).toNat = table) : metaEnd s.disk ≤ table ∧
      (s.directFreed i).disk table = s.disk table ∧
      ((List.range nindirect).map fun e => (getWord (s.disk table) (4 * e)).toNat) = s.entries i := by
  have ha12 : (s.inodes i).toDiskInode.addr s.disk 12 = table := (addr_own (by decide)).trans htable
  have hmeta := (h.placed.data 12 (by decide) (by
    rw [ha12, ← htable]
    simpa [← BitVec.toNat_inj] using hz)).1
  rw [ha12] at hmeta
  refine ⟨hmeta, unmarkAll_of_ge (fun a ha => ?_) hmeta, map_congr_left fun e _ => ?_⟩
  · obtain ⟨h0, k, hk, rfl⟩ := (mem_ownBlocks_direct (s := s)).mp ha
    have hd := h.placed.data k (by unfold addrCount; omega) h0
    unfold metaEnd
    omega
  · rw [addr_entry hz, htable]

/-- `free_indirect` returns and leaves the marks of the blocks that the inode does not lead to. -/
def IndirectFreed (s : Fs) (i : InodeIx) : Prop :=
  ∃ t, freeIndirect i (s.directFreed i) = .ok ((), t) ∧ t.bufs = s.bufs ∧ t.disk 1 = s.disk 1 ∧
    (t.inodes i).inum = (s.inodes i).inum ∧ ∀ l, l / 4096 < (nblocks s.disk + 4095) / 4096 →
      (used t.disk (bitmapStart s.disk) l = true ↔ s.Marked l ∧ ¬s.LeadsTo i l)

theorem Unlinked.frees_indirect (h : Unlinked s i) (hz : (s.inodes i).addrs 12 ≠ 0) (hfull : 0 ∉ s.entries i) :
    s.IndirectFreed i := by
  generalize htable : ((s.inodes i).addrs 12).toNat = table
  obtain ⟨hmeta, hdisk, hes⟩ := h.indirect hz htable
  obtain ⟨t, hrun, hbufs, hone, hinum, hbits⟩ := (h.bitmapFree.congr (t := s.directFreed i) directFreed_one
    rfl).freeIndirect (i := i) (by rwa [directFreed_table]) (by rwa [directFreed_table])
    (show s.bufs table ≠ 0 by rw [h.bufs]; decide) (by rwa [metaEnd_congr directFreed_one]) (by rwa [hdisk])
    (h.kept htable) hfull
  rw [bitmapStart_congr directFreed_one, nblocks_congr directFreed_one] at hbits
  refine ⟨t, hrun, hbufs, hone.trans directFreed_one, hinum.trans (by rw [directFreed_inode]; rfl), fun l hl => ?_⟩
  rw [hbits l hl, used_directFreed, leadsTo_iff, htable, ← mem_entries]
  constructor
  · rintro ⟨⟨hm, hk⟩, ht, he⟩
    refine ⟨hm, ?_⟩
    rintro ⟨hl0, hl | hl | hl⟩
    · exact hk ⟨hl0, hl⟩
    · exact ht hl.symm
    · exact he hl
  · rintro ⟨hm, hn⟩
    refine ⟨⟨hm, fun hk => hn ⟨hk.1, Or.inl hk.2⟩⟩, fun ht => hn ⟨?_, Or.inr (Or.inl ht.symm)⟩, fun he => ?_⟩
    · have hbase := two_lt_bitmapStart s.disk
      unfold metaEnd at hmeta
      omega
    · exact hn ⟨fun hl0 => hfull (hl0 ▸ he), Or.inr (Or.inr he)⟩

/-- `put_inode` returns, clears just the marks of the blocks that the inode leads to, and keeps no buffer locked. -/
def Frees (s : Fs) (i : InodeIx) : Prop :=
  ∃ t, Fs.putInode i s = .ok ((), t) ∧ t.bufs = s.bufs ∧
    ∀ l, l / 4096 < (nblocks s.disk + 4095) / 4096 → (t.Marked l ↔ s.Marked l ∧ ¬s.LeadsTo i l)

/-- The second case is that of an indirect block without a zero, whose buffer no `get_block` takes in the meantime. -/
theorem Unlinked.frees (h : Unlinked s i) (hfull : (s.inodes i).addrs 12 = 0 ∨
    ∀ e < nindirect, (s.inodes i).toDiskInode.addr s.disk (e + 13) ≠ 0) : s.Frees i := by
  have hind : s.IndirectFreed i := by
    by_cases hz : (s.inodes i).addrs 12 = 0
    · refine ⟨s.directFreed i, ?_, rfl, directFreed_one, by rw [directFreed_inode]; rfl, fun l _ => ?_⟩
      · unfold freeIndirect
        rw [bind_ok inodeAt_ok, if_neg (by rw [directFreed_table]; exact not_not.mpr hz)]
        rfl
      · rw [used_directFreed, leadsTo_iff]
        refine and_congr_right fun _ => not_congr (and_congr_right fun h0 => ⟨Or.inl, ?_⟩)
        rintro (hk | hl | ⟨e, -, hl⟩)
        · exact hk
        · exact absurd (hl.symm.trans (by rw [hz]; rfl)) h0
        · exact absurd (hl.symm.trans (addr_eq_zero hz)) h0
    · refine h.frees_indirect hz fun h0 => ?_
      obtain ⟨e, he, heq⟩ := mem_entries.mp h0
      exact hfull.resolve_left hz e he heq
  obtain ⟨t, hrun, hbufs, hone, hinum, hbits⟩ := hind
  obtain ⟨b, u, hput, hub, hud⟩ := putRest_after hrun fun l => by rw [hbufs, h.bufs]
  have hslot := h.slot
  have hu1 : u.disk 1 = s.disk 1 := by
    rw [hud, update_of_ne (by omega), hone]
  refine ⟨u, h.putInode.trans hput, hub.trans hbufs, fun l hl => ?_⟩
  rw [← hbits l hl, Marked, bitmapStart_congr hu1, hud, hinum, used_congr (update_of_ne (by omega) _ _)]

/-- A zero entry of the indirect block: the mark of block 0 is gone, or, where it had none, the first bitmap
buffer is locked for good. -/
def Spoiled (base : Nat) (marked : Bool) (t : Fs) : Prop :=
  bitmapStart t.disk = base ∧ if marked then used t.disk base 0 = false else t.bufs base = 0

section

variable {base : Nat} {marked : Bool}

theorem Spoiled.congr {t : Fs} (h : Spoiled base marked s) (h1 : t.disk 1 = s.disk 1)
    (h2 : t.disk base = s.disk base) (h3 : t.bufs base = s.bufs base) : Spoiled base marked t := by
  refine ⟨(bitmapStart_congr h1).trans h.1, ?_⟩
  have hs := h.2
  rwa [h3, used_congr (show t.disk (base + 0 / 4096) = s.disk (base + 0 / 4096) from h2)]

theorem Spoiled.freeBlock (h : Spoiled base marked s) :
    Ends (fun _ => True) (Fs.freeBlock lba) (fun _ t => Spoiled base marked t) s := by
  by_cases h1 : s.bufs 1 = 0
  · exact (ends_of_error (bind_error (bind_error (bind_error (devRead_locked h1))))).mpr trivial
  have hbase := two_lt_bitmapStart s.disk
  by_cases hb : s.bufs (bitmapStart s.disk + lba / 4096) = 0
  · refine (ends_of_error (e := .bufferLock) ?_).mpr trivial
    rw [freeBlock_read h1, bind_error (devRead_locked hb)]
  obtain ⟨hst, hsp⟩ := h
  cases hu : used s.disk (bitmapStart s.disk) lba with
  | true =>
    refine (ends_of_ok (freeBlock_used h1 hb hu)).mpr ⟨?_, ?_⟩
    · exact (bitmapStart_congr (unmark_of_lt (by omega))).trans hst
    · cases marked with
      | true =>
        show used (unmark s.disk (bitmapStart s.disk) lba) base 0 = false
        rw [if_pos rfl] at hsp
        rw [hst, used_unmark, hsp, Bool.and_false]
      | false => exact hsp
  | false =>
    refine (ends_of_ok (freeBlock_unused h1 hb hu)).mpr ⟨hst, ?_⟩
    cases marked with
    | true => exact hsp
    | false =>
      show update s.bufs (bitmapStart s.disk + lba / 4096) _ base = 0
      have hsp' : s.bufs base = 0 := hsp
      rw [update_of_ne, hsp']
      intro he
      exact hb (he ▸ hsp')

theorem Spoiled.freeAll (h : Spoiled base marked s) :
    Ends (fun _ => True) (Fs.freeAll ls) (fun _ t => Spoiled base marked t) s := by
  induction ls generalizing s with
  | nil => exact h
  | cons l ls ih =>
    rw [Fs.freeAll, forM_cons, ends_bind]
    exact h.freeBlock.imp fun _ t ht => ih ht

theorem BitmapFree.spoil (h : s.BitmapFree) (hm : MarkedOnce s.disk ls) (h0 : 0 ∈ ls)
    (hbuf : s.bufs (bitmapStart s.disk) = 1) : Ends (fun _ => True) (Fs.freeAll ls)
      (fun _ t => Spoiled (bitmapStart s.disk) (used s.disk (bitmapStart s.disk) 0) t) s := by
  induction ls generalizing s with
  | nil => exact absurd h0 not_mem_nil
  | cons l ls ih =>
    have hbase := two_lt_bitmapStart s.disk
    rw [Fs.freeAll, forM_cons, ends_bind]
    by_cases hz : l = 0
    · have hb0 : s.bufs (bitmapStart s.disk + 0 / 4096) ≠ 0 := hbuf.symm ▸ Nat.one_ne_zero
      rw [hz]
      cases hu : used s.disk (bitmapStart s.disk) 0 with
      | true =>
        refine (ends_of_ok (freeBlock_used h.super hb0 hu)).mpr (Spoiled.freeAll ⟨?_, ?_⟩)
        · exact bitmapStart_congr (unmark_of_lt (by omega))
        · show used (unmark _ _ _) _ 0 = false
          rw [used_unmark]
          rfl
      | false =>
        refine (ends_of_ok (freeBlock_unused h.super hb0 hu)).mpr (Spoiled.freeAll ⟨rfl, ?_⟩)
        show update s.bufs (bitmapStart s.disk) (s.bufs (bitmapStart s.disk) - 1) (bitmapStart s.disk) = 0
        rw [update_self, hbuf]
    · obtain ⟨hlt, hu⟩ := hm.marked l mem_cons_self hz
      have hstart : bitmapStart (s.freed [l]).disk = bitmapStart s.disk := bitmapStart_congr freed_one
      refine (ends_of_ok (h.freeBlock hlt hu)).mpr ?_
      have hrest := ih h.freed (hm.tail hz) ((mem_cons.mp h0).resolve_left (Ne.symm hz)) (by rw [hstart]; exact hbuf)
      rw [hstart, used_freed] at hrest
      simpa [Ne.symm hz, Fs.freeAll] using hrest

theorem Spoiled.writeToDisk (h : Spoiled base marked s) (hslot : (s.inodes i).inum.toNat / 8 + 2 < base) :
    Ends (fun _ => True) (Fs.writeToDisk i) (fun _ t => Spoiled base marked t) s := by
  by_cases hb : s.bufs ((s.inodes i).inum.toNat / 8 + 2) = 0
  · have herr : Fs.writeToDisk i s = .error .bufferLock := (bind_ok inodeAt_ok).trans (bind_error (devRead_locked hb))
    exact (ends_of_error herr).mpr trivial
  · have hbase := two_lt_bitmapStart s.disk
    exact (ends_of_ok (writeToDisk_ok hb)).mpr
      (h.congr (setBlock_of_ne (by omega)) (setBlock_of_ne (by omega)) rfl)

theorem Spoiled.putTail (h : Spoiled base marked s) (table : Nat) (hslot : (s.inodes i).inum.toNat / 8 + 2 < base) :
    Ends (fun _ => True) (do
      Fs.freeBlock table
      setAddr i 12 0
      setInode i fun e => { e with size := 0 }
      Fs.writeToDisk i
      setInode i fun e => { e with valid := false }
      unlock i
      setInode i fun e => { e with ref := e.ref - 1 } : FsM Unit) (fun _ t => Spoiled base marked t) s := by
  rw [ends_bind]
  refine (h.freeBlock.and (keeps_freeBlock table s)).mono (fun _ _ => trivial) fun _ t ht => ?_
  obtain ⟨hsp, honly⟩ := ht
  have hinum : (((t.mapInode i fun e => cleared e [12]).mapInode i fun e => { e with size := 0 }).inodes i).inum =
      (s.inodes i).inum := by
    rw [mapInode_self, mapInode_self, honly.inodes]
    rfl
  rw [ends_congr (bind_ok setAddr_zero), ends_congr (bind_ok setInode_ok), ends_bind]
  have hsp' : Spoiled base marked ((t.mapInode i fun e => cleared e [12]).mapInode i fun e => { e with size := 0 }) :=
    hsp.congr rfl rfl rfl
  exact (hsp'.writeToDisk (by rwa [hinum])).imp fun _ u hu => hu.congr rfl rfl rfl

end

theorem Unlinked.spoils (h : Unlinked s i) (hz : (s.inodes i).addrs 12 ≠ 0) (hzero : 0 ∈ s.entries i) :
    Ends (fun _ => True) (Fs.putInode i)
      (fun _ t => Spoiled (bitmapStart s.disk) (used s.disk (bitmapStart s.disk) 0) t) s := by
  generalize htable : ((s.inodes i).addrs 12).toNat = table
  obtain ⟨hmeta, hdisk, hes⟩ := h.indirect hz htable
  have hbase := two_lt_bitmapStart s.disk
  have hbt : bitmapStart s.disk < table := by
    have hlt := ((h.kept htable).marked table mem_cons_self (by unfold metaEnd at hmeta; omega)).1
    rw [nblocks_congr directFreed_one] at hlt
    unfold metaEnd at hmeta
    omega
  have hstart : bitmapStart (s.directFreed i).disk = bitmapStart s.disk := bitmapStart_congr directFreed_one
  have hmark0 : used (s.directFreed i).disk (bitmapStart s.disk) 0 = used s.disk (bitmapStart s.disk) 0 := by
    rw [Bool.eq_iff_iff, used_directFreed]
    exact ⟨fun hm => hm.1, fun hm => ⟨hm, fun hn => hn.1 rfl⟩⟩
  have hfree : ((s.directFreed i).held table).BitmapFree :=
    (h.bitmapFree.congr directFreed_one rfl).held (by rwa [metaEnd_congr directFreed_one])
  have hspoil : Ends (fun _ => True) (Fs.freeEntries (s.disk table) (List.range nindirect)) (fun _ t =>
      Spoiled (bitmapStart (s.directFreed i).disk) (used (s.directFreed i).disk (bitmapStart (s.directFreed i).disk) 0) t)
      ((s.directFreed i).held table) := by
    rw [freeEntries_eq nodup_range, hes, ends_bind]
    refine hfree.spoil (h.kept htable).of_cons hzero ?_
    show update s.bufs table _ (bitmapStart (s.directFreed i).disk) = 1
    rw [hstart, update_of_ne (by omega), h.bufs]
  rw [ends_congr h.putInode, putRest, ends_bind, freeIndirect, ends_congr (bind_ok inodeAt_ok), directFreed_table,
    if_pos hz, htable, ends_congr (bind_ok (devRead_ok (h.bufs table ▸ Nat.one_ne_zero))), hdisk, ends_bind]
  refine (hspoil.and (keeps_freeEntries _ _ _)).mono (fun _ _ => trivial) fun b t ht => ?_
  obtain ⟨hsp, honly⟩ := ht
  have hsp' : Spoiled (bitmapStart s.disk) (used s.disk (bitmapStart s.disk) 0) t := by
    rw [← hmark0, ← hstart]
    exact hsp
  have hinum : (t.inodes i).inum = (s.inodes i).inum := by
    rw [honly.inodes]
    show ((s.directFreed i).inodes i).inum = _
    rw [directFreed_inode]
    rfl
  have htail := (hsp'.congr (t := { t with
      disk := update t.disk table b, bufs := update t.bufs table (t.bufs table + 1) })
    (update_of_ne (by omega) _ _) (update_of_ne (by omega) _ _)
    (update_of_ne (by omega) _ _)).putTail table (by rw [hinum]; exact h.slot)
  simp only [ends_bind] at htail ⊢
  exact htail

theorem Unlinked.not_frees (h : Unlinked s i) (hz : (s.inodes i).addrs 12 ≠ 0) (hzero : 0 ∈ s.entries i) :
    ¬s.Frees i := by
  rintro ⟨t, hrun, hbufs, hbits⟩
  have ha12 : (s.inodes i).toDiskInode.addr s.disk 12 = ((s.inodes i).addrs 12).toNat := addr_own (by decide)
  have hlt := (h.placed.data 12 (by decide) (by rw [ha12]; simpa [← BitVec.toNat_inj] using hz)).2.1
  obtain ⟨hstart, hsp⟩ := (h.spoils hz hzero).of_ok hrun
  have h0 := hbits 0 (by omega)
  unfold Marked at h0
  rw [hstart] at h0
  cases hm : used s.disk (bitmapStart s.disk) 0 with
  | true =>
    rw [hm, if_pos rfl] at hsp
    rw [hm, hsp] at h0
    exact absurd (h0.mpr ⟨rfl, fun hl => hl.1 rfl⟩) (by decide)
  | false =>
    rw [hm] at hsp
    have hb : t.bufs (bitmapStart s.disk) = 0 := hsp
    rw [hbufs, h.bufs] at hb
    exact absurd hb (by decide)

end

def smallDisk (marked : Nat) : Nat → Block
  | 1 => setWord (setWord (setWord (fun _ => 0) 0 64) 4 64) 8 16
  | 5 => fun k => if k < marked / 8 then 255 else if k = marked / 8 then BitVec.ofNat 8 (2 ^ (marked % 8) - 1) else 0
  | 18 => setWord (fun _ => 0) 0 19
  | _ => fun _ => 0

def oneFile (blocks : Nat) : Fs :=
  { fresh (smallDisk (7 + blocks)) ⟨fun _ => []⟩ with
    inodes := update (fresh (fun _ _ => 0) ⟨fun _ => []⟩).inodes 0
      { type := typeFile, major := 0, minor := 0, nlinks := 0, size := 0, dev := 1, inum := 2, ref := 1, valid := true
        sem := 1, addrs := fun k => if k.val < blocks then BitVec.ofNat 32 (6 + k.val) else 0 } }

theorem oneFile_addr {blocks : Nat} (h : blocks = 3 ∨ blocks = 13) :
    ∀ k < addrCount, ((oneFile blocks).inodes 0).toDiskInode.addr (smallDisk (7 + blocks)) k ≠ 0 →
      ((oneFile blocks).inodes 0).toDiskInode.addr (smallDisk (7 + blocks)) k = 6 + k ∧
      metaEnd (smallDisk (7 + blocks)) ≤ 6 + k ∧ 6 + k < nblocks (smallDisk (7 + blocks)) ∧
      used (smallDisk (7 + blocks)) (bitmapStart (smallDisk (7 + blocks))) (6 + k) = true := by
  rcases h with rfl | rfl
  · decide +kernel
  · decide +kernel

theorem oneFile_unlinked {blocks : Nat} (h : blocks = 3 ∨ blocks = 13) : Unlinked (oneFile blocks) 0 := by
  refine ⟨rfl, rfl, rfl, rfl, fun _ => rfl, ?_, fun k hk h0 => ?_, fun k hk l hl h0 hkl => ?_⟩
  · exact Nat.lt_of_lt_of_le (show (2 : Word).toNat / 8 + 2 < 3 by decide) (Nat.le_add_right 3 _)
  · obtain ⟨h1, h2⟩ := oneFile_addr h k hk h0
    exact h1.symm ▸ h2
  · have h1 := (oneFile_addr h k hk h0).1
    have h2 := (oneFile_addr h l hl (hkl ▸ h0)).1
    have h3 : 6 + k = 6 + l := h1.symm.trans (hkl.trans h2)
    omega

end Fs

end BabyOS
