import BabyOS.FsFormat
import BabyOS.FsOwn

open Function

namespace BabyOS

open DiskInode

namespace DiskInode

theorem load_store (d : DiskInode) (b : Block) (o : Nat) : load (d.store b o) o = d := by
  obtain ⟨type, major, minor, nlinks, size, addrs⟩ := d
  simp only [load, store, DiskInode.mk.injEq]
  refine ⟨?_, ?_, ?_, ?_, ?_, funext fun k => getWord_setWords k⟩
  · rw [getHalf_setWords_ne (by omega), getHalf_setWord_ne (by omega), getHalf_setHalf_ne (by omega),
      getHalf_setHalf_ne (by omega), getHalf_setHalf_ne (by omega), getHalf_setHalf_self]
  · rw [getHalf_setWords_ne (by omega), getHalf_setWord_ne (by omega), getHalf_setHalf_ne (by omega),
      getHalf_setHalf_ne (by omega), getHalf_setHalf_self]
  · rw [getHalf_setWords_ne (by omega), getHalf_setWord_ne (by omega), getHalf_setHalf_ne (by omega),
      getHalf_setHalf_self]
  · rw [getHalf_setWords_ne (by omega), getHalf_setWord_ne (by omega), getHalf_setHalf_self]
  · rw [getWord_setWords_ne (by omega), getWord_setWord_self]

theorem load_congr {b b' : Block} {o : Nat} (h : ∀ k, o ≤ k → k < o + inodeSize → b' k = b k) :
    load b' o = load b o := by
  unfold inodeSize at h
  unfold load
  rw [getHalf_congr fun k h1 h2 => h k (by omega) (by omega), getHalf_congr fun k h1 h2 => h k (by omega) (by omega),
    getHalf_congr fun k h1 h2 => h k (by omega) (by omega), getHalf_congr fun k h1 h2 => h k (by omega) (by omega),
    getWord_congr fun k h1 h2 => h k (by omega) (by omega)]
  congr 1
  funext k
  exact getWord_congr fun j h1 h2 => h j (by omega) (by omega)

end DiskInode

namespace Fs

def ninodes (disk : Nat → Block) : Nat := (superBlock disk).ninodes.toNat

def diskNode (disk : Nat → Block) (n : Nat) : DiskInode :=
  DiskInode.load (disk (inodeBlock n)) (inodeOffset n * inodeSize)

def storeNode (disk : Nat → Block) (n : Nat) (d : DiskInode) : Nat → Block :=
  update disk (inodeBlock n) (d.store (disk (inodeBlock n)) (inodeOffset n * inodeSize))

section

variable {disk : Nat → Block} {n m : Nat} {d : DiskInode} {s : Fs} {i : InodeIx}

theorem inodeBlock_lt (htable : ninodes disk * inodeSize < 2 ^ 32) (hn : n < ninodes disk) :
    inodeBlock n < bitmapStart disk := by
  have hstart : bitmapStart disk = 3 + ninodes disk * inodeSize / blockSize :=
    congrArg (3 + · / blockSize) (Nat.mod_eq_of_lt htable)
  rw [hstart]
  unfold inodeBlock inodeSize blockSize
  omega

theorem diskNode_storeNode (d : DiskInode) : diskNode (storeNode disk n d) m = if m = n then d else diskNode disk m := by
  unfold diskNode storeNode
  by_cases hmn : m = n
  · rw [if_pos hmn, hmn, update_self, load_store]
  rw [if_neg hmn]
  by_cases hb : inodeBlock m = inodeBlock n
  · rw [hb, update_self]
    refine load_congr fun k h1 h2 => store_of_not_mem ?_
    unfold inodeBlock inodeOffset blockSize inodeSize at *
    omega
  · rw [update_of_ne hb]

theorem inodeBlock_ne_one : inodeBlock n ≠ 1 := by
  unfold inodeBlock blockSize inodeSize
  omega

theorem storeNode_of_ne {l : Nat} (h : l ≠ inodeBlock n) : storeNode disk n d l = disk l :=
  update_of_ne h _ _

/-- The entry that `get_inode` makes for an inode that is not in the cache. -/
def newEntry (dev n : Word) (e : Inode) : Inode :=
  { e with dev := dev, inum := n, ref := 1, valid := false, sem := 1, size := 0, addrs := fun _ => 0 }

def loaded (disk : Nat → Block) (n : Word) (e : Inode) : Inode :=
  { e with toDiskInode := diskNode disk n.toNat, valid := true }

theorem readFromDisk_load {n : Word} (h : (s.inodes i).valid = false) (hb : s.bufs (inodeBlock n.toNat) ≠ 0) :
    readFromDisk i n s = .ok ((), s.mapInode i (loaded s.disk n)) := by
  unfold readFromDisk
  rw [bind_ok inodeAt_ok, if_neg (by rw [h]; decide)]
  exact fetch_block hb

end

def booted (disk : Nat → Block) (env : FsEnv) : Fs :=
  { fresh disk env with
    inodes := update (fresh disk env).inodes 0 (loaded disk rootInum (newEntry rootDev rootInum
      ((fresh disk env).inodes 0)))
    procs := update (fresh disk env).procs 0 (some { cwd := 0 }) }

section

variable {disk : Nat → Block} {env : FsEnv}

theorem cached_fresh (dev n : Word) : (fresh disk env).cached dev n = none := by
  unfold cached
  rw [List.find?_eq_none]
  intro j _
  simp [fresh]

theorem emptyEntry_fresh : (fresh disk env).emptyEntry = some 0 := by
  unfold emptyEntry
  rw [List.finRange_succ, List.find?_cons_of_pos]
  rfl

theorem getRoot_fresh : getRoot (fresh disk env) = .ok (some 0, (fresh disk env).mapInode 0 fun e =>
    loaded disk rootInum (newEntry rootDev rootInum e)) := by
  have hnew : getInode rootDev rootInum (fresh disk env) =
      .ok (some 0, (fresh disk env).mapInode 0 (newEntry rootDev rootInum)) := by
    unfold getInode
    rw [bind_ok (show (get : FsM Fs) _ = .ok (_, _) from rfl), cached_fresh]
    rw [emptyEntry_fresh]
    rfl
  unfold getRoot
  rw [bind_ok hnew]
  dsimp only
  rw [bind_ok (readFromDisk_load (by rw [mapInode_self]; rfl) Nat.one_ne_zero), mapInode_mapInode]
  rfl

theorem startInitProc_fresh : startInitProc (fresh disk env) = .ok ((), booted disk env) := by
  rw [startInitProc, bind_ok getRoot_fresh]
  rfl

end

/-- The loop of `alloc_inode` over the numbers that are left. -/
def allocInodeLoop (dev : Word) (type : Half) : List Nat → FsM (Option InodeIx)
  | [] => pure none
  | i :: is => do
    let block := 2 + i / (blockSize / inodeSize)
    let offset := i % (blockSize / inodeSize)
    let b ← devRead block
    if getHalf b (offset * inodeSize) = 0 then do
      devWrite block (store ⟨type, 0, 0, 0, 0, fun _ => 0⟩ b (offset * inodeSize))
      releaseBlock block
      getInode dev (.ofNat 32 i)
    else do
      releaseBlock block
      allocInodeLoop dev type is

def allocInode (dev : Word) (type : Half) : FsM (Option InodeIx) := do
  let sb ← readSuperBlock
  allocInodeLoop dev type (List.range' 1 (sb.ninodes.toNat - 1))

def InSlot (n l k : Nat) : Prop :=
  l = inodeBlock n ∧ inodeOffset n * inodeSize ≤ k ∧ k < inodeOffset n * inodeSize + inodeSize

/-- `read_from_disk` now finds this inode, and no byte outside its place has changed. -/
structure Puts (s t : Fs) (n : Nat) (d : DiskInode) : Prop where
  found : diskNode t.disk n = d
  outside : ∀ l k, ¬InSlot n l k → t.disk l k = s.disk l k

variable {s t : Fs} {i j : InodeIx} {dev inum : Word} {type : Half} {r : Option InodeIx} {n : Nat} {d : DiskInode}

theorem puts_storeNode (h : t.disk = storeNode s.disk n d) : Puts s t n d := by
  refine ⟨by rw [h, diskNode_storeNode, if_pos rfl], fun l k hlk => ?_⟩
  rw [h]
  by_cases hl : l = inodeBlock n
  · subst hl
    rw [storeNode, Function.update_self]
    exact store_of_not_mem fun hk => hlk ⟨rfl, hk⟩
  · rw [storeNode_of_ne hl]

theorem writeToDisk_puts (hb : s.bufs (inodeBlock (s.inodes i).inum.toNat) ≠ 0) :
    ∃ t, writeToDisk i s = .ok ((), t) ∧ t.inodes = s.inodes ∧ t.bufs = s.bufs ∧
      Puts s t (s.inodes i).inum.toNat (s.inodes i).toDiskInode := by
  unfold inodeBlock at hb
  rw [Nat.add_comm] at hb
  refine ⟨_, writeToDisk_ok hb, rfl, rfl, puts_storeNode ?_⟩
  rw [Nat.add_comm]
  rfl

/-- `get_inode` leaves the disk, and the entry that it hands out is for the inode it was asked for; it fails only when
every entry is in use. -/
theorem getInode_spec (dev inum : Word) (s : Fs) : ∃ r t, getInode dev inum s = .ok (r, t) ∧ t.disk = s.disk ∧
    (∀ k, r = some k → (t.inodes k).dev = dev ∧ (t.inodes k).inum = inum) ∧ (r = none → ∀ k, (s.inodes k).ref ≠ 0) := by
  unfold getInode
  rw [bind_ok (show (get : FsM Fs) s = .ok (s, s) from rfl)]
  cases hc : s.cached dev inum with
  | some j =>
    have hj := List.find?_some hc
    rw [decide_eq_true_eq] at hj
    refine ⟨some j, s.mapInode j fun e => { e with ref := e.ref + 1 }, rfl, rfl, fun k hk => ?_, nofun⟩
    cases hk
    rw [mapInode_self]
    exact hj.2
  | none =>
    cases he : s.emptyEntry with
    | some j =>
      refine ⟨some j, s.mapInode j (newEntry dev inum), rfl, rfl, fun k hk => ?_, nofun⟩
      cases hk
      rw [mapInode_self]
      exact ⟨rfl, rfl⟩
    | none =>
      refine ⟨none, s, rfl, rfl, nofun, fun _ k => ?_⟩
      simpa using List.find?_eq_none.mp he k (List.mem_finRange k)

/-- What `alloc_inode` does with the number `n`: its place on the disk was free, and those from `start` on were not; the
new inode is written there, and the entry handed out is for that number. -/
structure Takes (s t : Fs) (dev : Word) (type : Half) (r : Option InodeIx) (start n : Nat) : Prop where
  free : (diskNode s.disk n).type = 0
  first : ∀ m, start ≤ m → m < n → (diskNode s.disk m).type ≠ 0
  puts : Puts s t n ⟨type, 0, 0, 0, 0, fun _ => 0⟩
  handed : ∀ k, r = some k → (t.inodes k).dev = dev ∧ (t.inodes k).inum = .ofNat 32 n
  full : r = none → ∀ k, (s.inodes k).ref ≠ 0

theorem allocInodeLoop_spec (hb : ∀ l, s.bufs l ≠ 0) (dev : Word) (type : Half) (start count : Nat) :
    ∃ r t, allocInodeLoop dev type (List.range' start count) s = .ok (r, t) ∧
      ((∀ n, start ≤ n → n < start + count → (diskNode s.disk n).type ≠ 0) ∧ r = none ∧ t = s ∨
        ∃ n, start ≤ n ∧ n < start + count ∧ Takes s t dev type r start n) := by
  induction count generalizing start with
  | zero => exact ⟨none, s, rfl, Or.inl ⟨fun n h1 h2 => by omega, rfl, rfl⟩⟩
  | succ count ih =>
    rw [List.range'_succ]
    unfold allocInodeLoop
    rw [bind_ok (devRead_ok (hb _))]
    split
    next h0 =>
      rw [store_held (hb _)]
      obtain ⟨r, t, hget, hdisk, hhand, hfull⟩ := getInode_spec dev (.ofNat 32 start) (s.setBlock _ _)
      exact ⟨r, t, hget, Or.inr ⟨start, le_rfl, by omega, h0, fun m h1 h2 => by omega, puts_storeNode hdisk, hhand, hfull⟩⟩
    next h0 =>
      rw [bind_ok (releaseBlock_held (hb _))]
      have hne : (diskNode s.disk start).type ≠ 0 := h0
      obtain ⟨r, t, hloop, hspec⟩ := ih (start + 1)
      refine ⟨r, t, hloop, ?_⟩
      have hfirst : ∀ m n, (∀ m, start + 1 ≤ m → m < n → (diskNode s.disk m).type ≠ 0) → start ≤ m → m < n →
          (diskNode s.disk m).type ≠ 0 := by
        intro m n h h1 h2
        rcases Nat.eq_or_lt_of_le h1 with rfl | h1
        · exact hne
        · exact h m h1 h2
      rcases hspec with ⟨hnone, hr, ht⟩ | ⟨n, h1, h2, hn⟩
      · exact Or.inl ⟨fun n h1 h2 => hfirst n _ hnone h1 (by omega), hr, ht⟩
      · exact Or.inr ⟨n, by omega, by omega, hn.free, fun m => hfirst m n hn.first, hn.puts, hn.handed, hn.full⟩

theorem inSlot_inj {m l k : Nat} (hn : InSlot n l k) (hm : InSlot m l k) : n = m := by
  unfold InSlot inodeBlock inodeOffset blockSize inodeSize at *
  omega

theorem inode_round_trip (hsmall : ninodes s.disk < 2 ^ 26) (hb : ∀ l, s.bufs l ≠ 0)
    (hj : (s.inodes j).valid = false) :
    (∃ t, writeToDisk i s = .ok ((), t) ∧ Puts s t (s.inodes i).inum.toNat (s.inodes i).toDiskInode ∧
      ∃ u, readFromDisk j (s.inodes i).inum t = .ok ((), u) ∧ u.disk = t.disk ∧
        (u.inodes j).toDiskInode = (s.inodes i).toDiskInode) ∧
    (∀ dev type, ∃ r t, allocInode dev type s = .ok (r, t) ∧
      ((∀ n, 1 ≤ n → n < ninodes s.disk → (diskNode s.disk n).type ≠ 0) ∧ r = none ∧ t = s ∨
        ∃ n, 1 ≤ n ∧ n < ninodes s.disk ∧ Takes s t dev type r 1 n)) ∧
    (∀ n m l k, InSlot n l k → InSlot m l k → n = m) ∧
      ∀ n < ninodes s.disk, inodeBlock n ≠ 1 ∧ ∀ c, inodeBlock n ≠ bitmapStart s.disk + c := by
  refine ⟨?_, fun dev type => ?_, fun n m l k => inSlot_inj, fun n hn => ⟨inodeBlock_ne_one, fun c => ?_⟩⟩
  · obtain ⟨t, hwrite, hinodes, hbufs, hputs⟩ := writeToDisk_puts (i := i) (hb _)
    refine ⟨t, hwrite, hputs, _, readFromDisk_load (by rw [hinodes]; exact hj) (by rw [hbufs]; exact hb _), rfl, ?_⟩
    rw [mapInode_self]
    exact hputs.found
  · obtain ⟨r, t, hloop, hspec⟩ := allocInodeLoop_spec hb dev type 1 (ninodes s.disk - 1)
    refine ⟨r, t, ?_, ?_⟩
    · rw [allocInode, bind_ok (readSuperBlock_ok (hb 1))]
      exact hloop
    · rcases hspec with ⟨hnone, hr⟩ | ⟨n, h1, h2, hn⟩
      · exact Or.inl ⟨fun n h1 h2 => hnone n h1 (by omega), hr⟩
      · exact Or.inr ⟨n, h1, by omega, hn⟩
  · have hlt := inodeBlock_lt (show ninodes s.disk * inodeSize < 2 ^ 32 by unfold inodeSize; omega) hn
    omega

/-- After the boot from an image of `mkfs2` the root inode goes to the disk and back into another entry, and `alloc_inode`
takes number 2. -/
theorem inode_round_trip_root : ∃ s, startInitProc (fresh (Mkfs.disk 64 24) ⟨fun _ => []⟩) = .ok ((), s) ∧
    (∃ t u, writeToDisk 0 s = .ok ((), t) ∧ readFromDisk 1 1 t = .ok ((), u) ∧
      (u.inodes 1).toDiskInode = (s.inodes 0).toDiskInode) ∧
    ∃ r t, allocInode rootDev typeFile s = .ok (r, t) ∧ Takes s t rootDev typeFile r 1 2 := by
  have hsmall : ninodes (booted (Mkfs.disk 64 24) ⟨fun _ => []⟩).disk < 2 ^ 26 := by decide +kernel
  obtain ⟨⟨t, ht, -, u, hu, -, hsame⟩, halloc, -⟩ :=
    inode_round_trip (i := 0) (j := 1) hsmall (fun _ => Nat.one_ne_zero) rfl
  refine ⟨_, startInitProc_fresh, ⟨t, u, ht, hu, hsame⟩, ?_⟩
  obtain ⟨r, t, halloc, ⟨hnone, -⟩ | ⟨n, h1, h2, hn⟩⟩ := halloc rootDev typeFile
  · exact absurd (by decide +kernel) (hnone 2 (by decide) (by decide +kernel))
  · have hfree : (diskNode (Mkfs.disk 64 24) 2).type = 0 := by decide +kernel
    have hroot : (diskNode (Mkfs.disk 64 24) 1).type ≠ 0 := by decide +kernel
    have hn2 : n = 2 := by
      rcases Nat.lt_trichotomy n 2 with hlt | rfl | hgt
      · obtain rfl : n = 1 := by omega
        exact absurd hn.free hroot
      · rfl
      · exact absurd hfree (hn.first 2 (by decide) hgt)
    rw [hn2] at hn
    exact ⟨r, t, halloc, hn⟩

end Fs

end BabyOS
