import BabyOS.MmRun
import BabyOS.NetRun

open BitVec List

namespace BabyOS

def netBufSize : Word := 256

def extBufSize : Word := 2048

def netBufPages : Word := 1024

def extBufPages : Word := 1024

/-- `num` of `net_t::init`, for the net buffers and for the ext buffers. -/
def carveNum : Nat := (pageSize * mathPow 2 maxOrder / netBufSize).toNat

def carve (size : Word) : Nat → Word → List Word
  | 0, _ => []
  | n + 1, bufs => bufs :: carve size n (bufs + size)

/-- The blocks that a loop of `net_t::init` got, and the buffers that it made of them. -/
structure Pool where
  mm : Mm
  blocks : List Word
  bufs : List Word

/-- The outer loop of `net_t::init`, which makes at least one buffer in a turn. -/
def fillPool (size : Word) (total : Nat) : Nat → Nat → Mm → Pool
  | 0, _, mm => ⟨mm, [], []⟩
  | fuel + 1, n, mm =>
    if n < total then
      let x := mm.allocPages maxOrder
      let p := fillPool size total fuel (n + carveNum) x.1
      ⟨p.mm, x.2.toList ++ p.blocks, carve size carveNum (x.2.getD 0) ++ p.bufs⟩
    else ⟨mm, [], []⟩

def totalBufNum : Nat := (pageSize * netBufPages / netBufSize).toNat

def totalExtNum : Nat := (pageSize * extBufPages / extBufSize).toNat

def netPool (mm : Mm) : Pool := fillPool netBufSize totalBufNum totalBufNum 0 mm

def extPool (mm : Mm) : Pool := fillPool extBufSize totalExtNum totalExtNum 0 (netPool mm).mm

def netBlocks (mm : Mm) : List Word := (netPool mm).blocks ++ (extPool mm).blocks

structure NetMem where
  net : Net
  held : List Nat

namespace NetMem

inductive Act
  | alloc (len : Nat)
  | append (b : Nat) (bs : List Byte)
  | appendZero (b len : Nat)
  | popFront (b len : Nat)
  | free (b : Nat)

/-- A call with a buffer that is held; the panic of a second free has no next state. -/
def step (s : NetMem) : Act → Option NetMem
  | .alloc len =>
    match s.net.allocNetBuffer len with
    | (none, net) => some ⟨net, s.held⟩
    | (some b, net) => some ⟨net, b :: s.held⟩
  | .append b bs => if b ∈ s.held then some ⟨(s.net.append b bs).2, s.held⟩ else none
  | .appendZero b len => if b ∈ s.held then some ⟨(s.net.appendZero b len).2, s.held⟩ else none
  | .popFront b len => if b ∈ s.held then some ⟨(s.net.popFront b len).2, s.held⟩ else none
  | .free b =>
    if b ∈ s.held ∧ b ∉ s.net.netBuffers then some ⟨s.net.freeNetBuffer b, s.held.erase b⟩ else none

structure Start (mm : Mm) (s : NetMem) : Prop where
  netBuffers : s.net.netBuffers = (netPool mm).bufs.map BitVec.toNat
  extBuffers : s.net.extBuffers = (extPool mm).bufs.map BitVec.toNat
  held : s.held = []

/-- The data area of a buffer, by its address and size: behind the header, or the ext buffer. -/
def dataArea (s : Net) (b : Nat) : Nat × Nat :=
  match (s.bufs b).ext with
  | none => (b + 16, 240)
  | some e => (e, 2048)

def storage (s : Net) (b : Nat) : List (Nat × Nat) := [(b, 16), dataArea s b]

def Inside (blocks : List Word) (r : Nat × Nat) : Prop :=
  ∃ a ∈ blocks, a.toNat ≤ r.1 ∧ r.1 + r.2 ≤ a.toNat + 4096 * 2 ^ maxOrder

def Disjoint (r q : Nat × Nat) : Prop := r.1 + r.2 ≤ q.1 ∨ q.1 + q.2 ≤ r.1

/-- The storage of the held buffers lies in the blocks, disjoint, with room for all that `append` lets in. -/
structure Safe (blocks : List Word) (s : NetMem) : Prop where
  nodup : s.held.Nodup
  inside : ∀ b ∈ s.held, ∀ r ∈ storage s.net b, Inside blocks r
  disjoint : ∀ b ∈ s.held, ∀ c ∈ s.held, b ≠ c → ∀ r ∈ storage s.net b, ∀ q ∈ storage s.net c, Disjoint r q
  room : ∀ b ∈ s.held, (s.net.bufs b).data + (s.net.bufs b).dataLen + (s.net.bufs b).left ≤ (dataArea s.net b).2

def heldExts (s : NetMem) : List Nat := s.held.filterMap fun b => (s.net.bufs b).ext

/-- A buffer with an ext buffer is taken only while fewer than 128 ext buffers, the room of a block, are held. -/
def Careful (s : NetMem) : Act → Prop
  | .alloc len => 240 < len → s.heldExts.length < 128
  | _ => True

end NetMem

section

variable {mm : Mm} {b : Buddy}

theorem carveNum_eq : carveNum = 1024 := by decide

theorem carve_append (size a : Word) (k n : Nat) :
    carve size (k + n) a = carve size k a ++ carve size n (a + BitVec.ofNat 32 k * size) := by
  induction k generalizing a with
  | zero =>
    rw [Nat.zero_add, show BitVec.ofNat 32 0 * size = 0 from zero_mul]
    rw [show a + 0 = a from add_zero a]
    rfl
  | succ k ih =>
    have hnext : a + size + BitVec.ofNat 32 k * size = a + BitVec.ofNat 32 (k + 1) * size := by
      rw [ofNat_add, add_mul, add_assoc, add_comm size]
      rw [show BitVec.ofNat 32 1 * size = size from one_mul size]
    rw [Nat.succ_add, carve, ih, hnext]
    rfl

theorem length_carve (size a : Word) (n : Nat) : (carve size n a).length = n := by
  induction n generalizing a with
  | zero => rfl
  | succ n ih => exact congrArg Nat.succ (ih _)

theorem map_carve {size a : Word} {n : Nat} (h : a.toNat + size.toNat * n ≤ 2 ^ 32) :
    (carve size n a).map BitVec.toNat = (List.range n).map fun i => a.toNat + size.toNat * i := by
  induction n generalizing a with
  | zero => rfl
  | succ n ih =>
    rw [carve, map_cons, range_succ_eq_map, map_cons, map_map, Nat.mul_zero, Nat.add_zero]
    congr 1
    cases n with
    | zero => rfl
    | succ n =>
      have hmul : size.toNat * (n + 1 + 1) = size.toNat + size.toNat * (n + 1) := by ring
      have hpos : size.toNat ≤ size.toNat * (n + 1) := Nat.le_mul_of_pos_right _ (Nat.succ_pos n)
      have hlt := a.isLt
      have hnext : (a + size).toNat = a.toNat + size.toNat := by
        rw [toNat_add, Nat.mod_eq_of_lt (by omega)]
      rw [ih (by omega), hnext]
      refine map_congr_left fun i _ => ?_
      simp only [Function.comp_apply, Nat.succ_eq_add_one, Nat.mul_add, Nat.mul_one]
      omega

theorem Mm.Ok.fillPool (h : mm.Ok b) (size : Word) {total fuel n k : Nat} (hn : n + carveNum * k = total)
    (hf : k ≤ fuel) (hk : k ≤ (b.free maxOrder).length) :
    ∃ b', (fillPool size total fuel n mm).mm.Ok b' ∧ (fillPool size total fuel n mm).mm.fixed = mm.fixed ∧
      b'.free maxOrder = (b.free maxOrder).drop k ∧
      (fillPool size total fuel n mm).blocks = ((b.free maxOrder).take k).map mm.pageAddr ∧
      (fillPool size total fuel n mm).bufs =
        ((b.free maxOrder).take k).flatMap fun m => carve size carveNum (mm.pageAddr m) := by
  have hnum : carveNum = 1024 := carveNum_eq
  induction k generalizing mm b n fuel with
  | zero =>
    have hstop : BabyOS.fillPool size total fuel n mm = ⟨mm, [], []⟩ := by
      cases fuel with
      | zero => rfl
      | succ fuel => exact if_neg (by omega)
    rw [hstop]
    exact ⟨b, h, rfl, rfl, rfl, rfl⟩
  | succ k ih =>
    cases fuel with
    | zero => omega
    | succ fuel =>
      cases hfree : b.free maxOrder with
      | nil =>
        rw [hfree] at hk
        cases hk
      | cons m ms =>
        obtain ⟨mm', b', ha, hok', hfixed, hrest⟩ := h.allocTop hfree
        rw [hfree, length_cons] at hk
        have haddr := Mm.pageAddr_of_fixed hfixed
        obtain ⟨b'', h1, h2, h3, h4, h5⟩ := ih hok' (show n + carveNum + carveNum * k = total by rw [← hn]; ring)
          (Nat.le_of_succ_le_succ hf) (by rw [hrest]; omega)
        have hgo : BabyOS.fillPool size total (fuel + 1) n mm =
            ⟨(BabyOS.fillPool size total fuel (n + carveNum) mm').mm,
              mm.pageAddr m :: (BabyOS.fillPool size total fuel (n + carveNum) mm').blocks,
              carve size carveNum (mm.pageAddr m) ++ (BabyOS.fillPool size total fuel (n + carveNum) mm').bufs⟩ := by
          rw [BabyOS.fillPool, if_pos (by rw [← hn, hnum]; omega), ha]
          rfl
        rw [hgo]
        refine ⟨b'', h1, h2.trans hfixed, ?_, ?_, ?_⟩
        · rw [h3, hrest, drop_succ_cons]
        · dsimp only
          rw [h4, hrest, haddr, take_succ_cons, map_cons]
        · dsimp only
          rw [h5, hrest, haddr, take_succ_cons, flatMap_cons]

end

namespace NetMem

open Net

/-- There is room in the data area of a buffer for what it holds and for what `append` still lets in. -/
def Room (s : Net) (b : Nat) : Prop :=
  (s.bufs b).data + (s.bufs b).dataLen + (s.bufs b).left ≤ (dataArea s b).2

/-- Where the buffers are: all are free or held, and the ext buffers that have ever been taken are the first ones. -/
structure Inv (nets exts : List Nat) (s : NetMem) : Prop where
  nets : (s.net.netBuffers ++ s.held).Perm nets
  exts : ∃ k front, k ≤ 128 ∧ s.net.extBuffers = front ++ exts.drop k ∧ (front ++ s.heldExts).Perm (exts.take k)
  room : ∀ b ∈ s.held, Room s.net b

section

variable {nets exts : List Nat} {s s' : NetMem} {t : Net} {b len : Nat}

theorem room_congr {c : Nat} (h : t.bufs c = s.net.bufs c) (hr : Room s.net c) : Room t c := by
  unfold Room dataArea at hr ⊢
  rw [h]
  exact hr

theorem heldExts_congr {held : List Nat} (h : ∀ b ∈ held, (t.bufs b).ext = (s.net.bufs b).ext) :
    heldExts ⟨t, held⟩ = heldExts ⟨s.net, held⟩ := filterMap_congr h

theorem heldExts_cons (t : Net) (b : Nat) (held : List Nat) :
    heldExts ⟨t, b :: held⟩ = (t.bufs b).ext.toList ++ heldExts ⟨t, held⟩ := by
  unfold heldExts
  rw [filterMap_cons]
  cases (t.bufs b).ext with
  | none => rfl
  | some e => rfl

theorem Inv.still (h : Inv nets exts s) (hs : Still s.net t) (hr : ∀ b ∈ s.held, Room t b) : Inv nets exts ⟨t, s.held⟩ := by
  obtain ⟨k, front, hk, he, hp⟩ := h.exts
  refine ⟨?_, ⟨k, front, hk, hs.extBuffers.trans he, ?_⟩, hr⟩
  · change (t.netBuffers ++ s.held).Perm nets
    rw [hs.netBuffers]
    exact h.nets
  · rw [heldExts_congr fun b _ => hs.ext b]
    exact hp

theorem Inv.append (h : Inv nets exts s) (b : Nat) (bs : List Byte) : Inv nets exts ⟨(s.net.append b bs).2, s.held⟩ := by
  refine h.still (still_append s.net b bs) fun c hc => ?_
  by_cases hl : (s.net.bufs b).left < bs.length
  · rw [append_full hl]
    exact h.room c hc
  · by_cases hcb : c = b
    · subst hcb
      have hroom := h.room c hc
      unfold Room dataArea at hroom ⊢
      rw [append_bufs (Nat.le_of_not_lt hl)]
      dsimp only
      omega
    · refine room_congr ?_ (h.room c hc)
      unfold Net.append
      rw [if_neg hl, setBuf_of_ne hcb, setArea_bufs]

theorem Inv.popFront (h : Inv nets exts s) (b n : Nat) : Inv nets exts ⟨(s.net.popFront b n).2, s.held⟩ := by
  refine h.still (still_popFront s.net b n) fun c hc => ?_
  unfold Net.popFront
  dsimp only
  split
  · exact h.room c hc
  · by_cases hcb : c = b
    · subst hcb
      have hroom := h.room c hc
      unfold Room dataArea at hroom ⊢
      rw [setBuf_self]
      dsimp only
      omega
    · exact room_congr (setBuf_of_ne hcb) (h.room c hc)

theorem ext_of_took (h : Took s.net len b t) :
    (240 < len ∧ ∃ e, (t.bufs b).ext = some e) ∨ (¬240 < len ∧ (t.bufs b).ext = none) := by
  have hleft := h.left
  rw [h.buf] at hleft
  cases hx : (t.bufs b).ext with
  | none =>
    rw [hx] at hleft
    split at hleft
    · cases hleft
    · next hl => exact Or.inr ⟨hl, rfl⟩
  | some e =>
    rw [hx] at hleft
    split at hleft
    · next hl => exact Or.inl ⟨hl, e, rfl⟩
    · cases hleft

theorem room_of_took (h : Took s.net len b t) : Room t b := by
  unfold Room dataArea
  have hbuf := h.buf
  cases hx : (t.bufs b).ext with
  | none | some e =>
    rw [hx] at hbuf
    rw [hbuf]
    exact Nat.le_refl _

theorem took_places (ht : Took s.net len b t) (hn : (s.net.netBuffers ++ s.held).Nodup) :
    b ∉ s.held ∧ (t.netBuffers ++ b :: s.held).Perm (s.net.netBuffers ++ s.held) ∧
      heldExts ⟨t, b :: s.held⟩ = (t.bufs b).ext.toList ++ s.heldExts := by
  have hperm : (t.netBuffers ++ b :: s.held).Perm (s.net.netBuffers ++ s.held) := by
    rw [ht.netBuffers]
    exact perm_middle
  have hnot : b ∉ s.held := (nodup_cons.mp (nodup_append.mp (hperm.nodup_iff.mpr hn)).2.1).1
  refine ⟨hnot, hperm, ?_⟩
  rw [heldExts_cons]
  congr 1
  refine heldExts_congr fun c hc => ?_
  rw [ht.bufs c fun hcb => hnot (hcb ▸ hc)]

theorem Inv.took (h : Inv nets exts s) (hn : nets.Nodup) (hc : 240 < len → s.heldExts.length < 128)
    (ht : Took s.net len b t) : Inv nets exts ⟨t, b :: s.held⟩ := by
  obtain ⟨k, front, hk, he, hp⟩ := h.exts
  obtain ⟨hnot, hperm, hheld⟩ := took_places ht (h.nets.nodup_iff.mpr hn)
  refine ⟨hperm.trans h.nets, ?_, ?_⟩
  · have hext := ht.extBuffers
    rcases ext_of_took ht with ⟨hl, e, hx⟩ | ⟨-, hx⟩
    · rw [hx, he] at hext
      rw [hx] at hheld
      cases front with
      | nil =>
        have hlen := hp.length_eq
        rw [nil_append, length_take] at hlen
        have hdrop : exts.drop k = e :: t.extBuffers := hext
        have hklt : k < exts.length := by
          by_contra hge
          rw [drop_eq_nil_of_le (Nat.le_of_not_lt hge)] at hdrop
          cases hdrop
        have hcons := drop_eq_getElem_cons hklt
        rw [hdrop] at hcons
        obtain ⟨hhead, htail⟩ := cons.inj hcons
        refine ⟨k + 1, [], by omega, htail, ?_⟩
        rw [hheld, take_succ_eq_append_getElem hklt, ← hhead]
        exact (List.Perm.cons e hp).trans (perm_append_singleton e _).symm
      | cons f front =>
        obtain ⟨hf, hrest⟩ := List.cons.inj hext
        refine ⟨k, front, hk, hrest.symm, ?_⟩
        rw [hheld, ← hf]
        exact perm_middle.trans hp
    · rw [hx, he] at hext
      rw [hx] at hheld
      exact ⟨k, front, hk, hext.symm, by rw [hheld]; exact hp⟩
  · intro c hc
    rcases mem_cons.mp hc with rfl | hc
    · exact room_of_took ht
    · exact room_congr (ht.bufs c fun hcb => hnot (hcb ▸ hc)) (h.room c hc)

theorem Inv.free (h : Inv nets exts s) (hb : b ∈ s.held) : Inv nets exts ⟨s.net.freeNetBuffer b, s.held.erase b⟩ := by
  obtain ⟨k, front, hk, he, hp⟩ := h.exts
  obtain ⟨hn, hbufs, -⟩ := freeNetBuffer_rest s.net b
  have herase := perm_cons_erase hb
  have hsame : heldExts ⟨s.net.freeNetBuffer b, s.held.erase b⟩ = heldExts ⟨s.net, s.held.erase b⟩ :=
    heldExts_congr fun c _ => by rw [hbufs]
  have hheld : (s.heldExts).Perm ((s.net.bufs b).ext.toList ++ heldExts ⟨s.net.freeNetBuffer b, s.held.erase b⟩) := by
    rw [hsame, ← heldExts_cons]
    exact herase.filterMap _
  refine ⟨?_, ⟨k, (s.net.bufs b).ext.toList ++ front, hk, ?_, ?_⟩, fun c hc => ?_⟩
  · change ((s.net.freeNetBuffer b).netBuffers ++ s.held.erase b).Perm nets
    rw [hn]
    exact (List.perm_middle.symm.trans (List.Perm.append_left _ herase.symm)).trans h.nets
  · rw [freeNetBuffer_ext, he, List.append_assoc]
  · refine List.Perm.trans ?_ hp
    rw [List.append_assoc]
    refine List.perm_append_comm_assoc _ _ _ |>.trans ?_
    exact List.Perm.append_left front hheld.symm
  · exact room_congr (by rw [hbufs]) (h.room c (mem_of_mem_erase hc))

theorem Inv.step {a : Act} (h : Inv nets exts s) (hn : nets.Nodup) (hc : Careful s a) (hs : s.step a = some s') :
    Inv nets exts s' := by
  cases a with
  | alloc len =>
    rcases allocNetBuffer_cases s.net len with ⟨-, heq⟩ | ⟨-, b, t, heq, ht⟩
    · rw [NetMem.step, heq] at hs
      cases hs
      exact h
    · rw [NetMem.step, heq] at hs
      cases hs
      exact h.took hn hc ht
  | append b bs =>
    rw [NetMem.step] at hs
    split at hs
    · cases hs
      exact h.append b bs
    · cases hs
  | appendZero b len =>
    rw [NetMem.step] at hs
    split at hs
    · cases hs
      exact h.append b _
    · cases hs
  | popFront b len =>
    rw [NetMem.step] at hs
    split at hs
    · cases hs
      exact h.popFront b len
    · cases hs
  | free b =>
    rw [NetMem.step] at hs
    split at hs
    · next hb =>
      cases hs
      exact h.free hb.1
    · cases hs

end

section

variable {mm : Mm} {buddy : Buddy} {s : NetMem} {ms : List Nat} {m₁ m₂ : Nat}

/-- What `net_t::init` makes of the first eighteen blocks: net buffers of sixteen, and ext buffers of two. -/
structure Carved (mm : Mm) (ms : List Nat) (m₁ m₂ : Nat) : Prop where
  nodup : (ms ++ [m₁, m₂]).Nodup
  aligned : ∀ m ∈ ms ++ [m₁, m₂], 64 ∣ m ∧ m + 64 ≤ mm.pages
  blocks : netBlocks mm = (ms ++ [m₁, m₂]).map mm.pageAddr
  nets : (netPool mm).bufs = ms.flatMap fun m => carve netBufSize 1024 (mm.pageAddr m)
  exts : (extPool mm).bufs = carve extBufSize 1024 (mm.pageAddr m₁) ++ carve extBufSize 1024 (mm.pageAddr m₂)

theorem exists_carved (h : mm.Ok buddy) (hlen : 18 ≤ (buddy.free maxOrder).length) :
    ∃ ms m₁ m₂, ms.length = 16 ∧ Carved mm ms m₁ m₂ := by
  obtain ⟨b', hok', hfixed, hrest, hblocks, hbufs⟩ := h.fillPool netBufSize (n := 0) (k := 16)
    (show 0 + carveNum * 16 = totalBufNum by decide) (show 16 ≤ totalBufNum by decide) (by omega)
  have hlen' : (b'.free maxOrder).length + 16 = (buddy.free maxOrder).length := by
    rw [hrest, length_drop]
    omega
  obtain ⟨b'', -, -, -, hblocks', hbufs'⟩ := hok'.fillPool extBufSize (n := 0) (k := 2)
    (show 0 + carveNum * 2 = totalExtNum by decide) (show 2 ≤ totalExtNum by decide) (by omega)
  rw [hrest] at hblocks' hbufs' hlen'
  have hsplit := take_append_drop 16 (buddy.free maxOrder)
  obtain ⟨m₁, m₂, rest, hdrop⟩ : ∃ m₁ m₂ rest, (buddy.free maxOrder).drop 16 = m₁ :: m₂ :: rest := by
    match hd : (buddy.free maxOrder).drop 16 with
    | [] =>
      rw [hd] at hlen'
      change 0 + 16 = _ at hlen'
      omega
    | [m] =>
      rw [hd] at hlen'
      change 1 + 16 = _ at hlen'
      omega
    | m₁ :: m₂ :: rest => exact ⟨m₁, m₂, rest, rfl⟩
  rw [hdrop] at hsplit hblocks' hbufs'
  have hsub : ((buddy.free maxOrder).take 16 ++ [m₁, m₂]).Sublist (buddy.free maxOrder) := by
    nth_rewrite 2 [← hsplit]
    exact Sublist.append_left (Sublist.cons_cons _ (Sublist.cons_cons _ (nil_sublist rest))) _
  refine ⟨(buddy.free maxOrder).take 16, m₁, m₂, ?_, ⟨hsub.nodup (h.wf.nodup maxOrder), fun m hm => ?_, ?_, ?_, ?_⟩⟩
  · rw [length_take]
    omega
  · have hmem := hsub.subset hm
    exact ⟨h.wf.aligned _ _ hmem, h.wf.bound _ _ hmem⟩
  · rw [map_append]
    unfold netBlocks netPool extPool
    rw [hblocks]
    congr 1
    rw [← Mm.pageAddr_of_fixed hfixed]
    exact hblocks'
  · rw [← carveNum_eq]
    exact hbufs
  · rw [← carveNum_eq, ← Mm.pageAddr_of_fixed hfixed]
    refine hbufs'.trans ?_
    simp only [take_succ_cons, take_zero, flatMap_cons, flatMap_nil, append_nil]

def netAddrs (mm : Mm) : List Nat := (netPool mm).bufs.map BitVec.toNat

def extAddrs (mm : Mm) : List Nat := (extPool mm).bufs.map BitVec.toNat

section

variable (h : Carved mm ms m₁ m₂)
include h

theorem Carved.netAddrs_eq :
    netAddrs mm = ms.flatMap fun m => (List.range 1024).map fun i => mm.base.toNat + 4096 * m + 256 * i := by
  unfold netAddrs
  rw [h.nets, map_flatMap]
  refine flatMap_congr fun m hm => ?_
  have hm' := (h.aligned m (mem_append_left _ hm)).2
  have haddr := Mm.toNat_pageAddr (show m ≤ mm.pages by omega)
  have hend := mm.base_add_pages hm'
  rw [map_carve]
  · rw [haddr]
    rfl
  · rw [haddr, show netBufSize.toNat = 256 from rfl]
    omega

theorem Carved.mem_netAddrs {b : Nat} :
    b ∈ netAddrs mm ↔ ∃ m ∈ ms, ∃ i < 1024, b = mm.base.toNat + 4096 * m + 256 * i := by
  rw [h.netAddrs_eq]
  simp only [mem_flatMap, mem_map, mem_range, eq_comm]

theorem Carved.length_netAddrs : (netAddrs mm).length = ms.length * 1024 := by
  unfold netAddrs
  rw [h.nets, length_map, length_flatMap]
  simp only [length_carve, map_const', sum_replicate, smul_eq_mul]

theorem Carved.length_extAddrs : (extAddrs mm).length = 2048 := by
  unfold extAddrs
  rw [h.exts, length_map, length_append, length_carve, length_carve]

theorem Carved.netAddrs_nodup : (netAddrs mm).Nodup := by
  rw [h.netAddrs_eq, nodup_flatMap]
  refine ⟨fun m _ => ?_, ?_⟩
  · exact nodup_range.map fun i j hij => by omega
  · have hn := (nodup_append.mp h.nodup).1
    refine hn.imp_of_mem fun {m m'} hm hm' hne => ?_
    obtain ⟨h1, -⟩ := h.aligned m (mem_append_left _ hm)
    obtain ⟨h2, -⟩ := h.aligned m' (mem_append_left _ hm')
    intro x hx hx'
    obtain ⟨i, hi, rfl⟩ := mem_map.mp hx
    obtain ⟨j, hj, heq⟩ := mem_map.mp hx'
    rw [mem_range] at hi hj
    omega

theorem Carved.take_extAddrs :
    (extAddrs mm).take 128 = (List.range 128).map fun i => mm.base.toNat + 4096 * m₁ + 2048 * i := by
  have hm := (h.aligned m₁ (List.mem_append_right _ List.mem_cons_self)).2
  have haddr := Mm.toNat_pageAddr (show m₁ ≤ mm.pages by omega)
  have hend := mm.base_add_pages hm
  unfold extAddrs
  rw [h.exts, show (1024 : Nat) = 128 + 896 from rfl, carve_append, List.append_assoc, ← List.map_take,
    List.take_left' (length_carve _ _ 128), map_carve]
  · rw [haddr]
    rfl
  · rw [haddr, show extBufSize.toNat = 2048 from rfl]
    omega

end

theorem Start.heldExts (h : Start mm s) : s.heldExts = [] := by
  unfold NetMem.heldExts
  rw [h.held]
  rfl

theorem Start.inv (h : Start mm s) : Inv (netAddrs mm) (extAddrs mm) s := by
  have hheld := h.held
  refine ⟨?_, ⟨0, [], Nat.zero_le _, h.extBuffers, ?_⟩, fun b hb => ?_⟩
  · rw [hheld, append_nil, h.netBuffers]
    exact List.Perm.refl _
  · rw [h.heldExts]
    exact List.Perm.refl _
  · rw [hheld] at hb
    cases hb

section

variable (h : Inv (netAddrs mm) (extAddrs mm) s) (hc : Carved mm ms m₁ m₂)
include h hc

theorem Inv.region {b : Nat} (hb : b ∈ s.held) {r : Nat × Nat} (hr : r ∈ storage s.net b) :
    (∃ m ∈ ms, ∃ i < 1024, b = mm.base.toNat + 4096 * m + 256 * i ∧ b ≤ r.1 ∧ r.1 + r.2 ≤ b + 256) ∨
    ∃ j < 128, r = (mm.base.toNat + 4096 * m₁ + 2048 * j, 2048) ∧ (s.net.bufs b).ext = some r.1 := by
  obtain ⟨k, front, hk, -, hp⟩ := h.exts
  obtain ⟨m, hm, i, hi, hbm⟩ := hc.mem_netAddrs.mp (h.nets.subset (mem_append_right _ hb))
  rcases mem_cons.mp hr with rfl | hr
  · exact Or.inl ⟨m, hm, i, hi, hbm, Nat.le_refl b, Nat.add_le_add_left (show 16 ≤ 256 by decide) b⟩
  · obtain rfl := mem_singleton.mp hr
    unfold dataArea
    cases hx : (s.net.bufs b).ext with
    | none => exact Or.inl ⟨m, hm, i, hi, hbm, Nat.le_add_right b 16, Nat.le_refl _⟩
    | some e =>
      have he : e ∈ s.heldExts := mem_filterMap.mpr ⟨b, hb, hx⟩
      have hfirst : e ∈ (extAddrs mm).take 128 :=
        take_subset_take_left _ hk (hp.subset (mem_append_right front he))
      rw [hc.take_extAddrs] at hfirst
      obtain ⟨j, hj, rfl⟩ := mem_map.mp hfirst
      exact Or.inr ⟨j, mem_range.mp hj, rfl, rfl⟩

theorem Inv.ext_ne {b c e : Nat} (hb : b ∈ s.held)
    (hc' : c ∈ s.held) (hne : b ≠ c) (hx : (s.net.bufs b).ext = some e) : (s.net.bufs c).ext ≠ some e := by
  obtain ⟨k, front, hk, -, hp⟩ := h.exts
  have hfirst : ((extAddrs mm).take 128).Nodup := by
    rw [hc.take_extAddrs]
    exact nodup_range.map fun i j hij => by omega
  have htake : ((extAddrs mm).take k).Nodup := by
    have hle : ((extAddrs mm).take 128).take k = (extAddrs mm).take k := by
      rw [take_take, Nat.min_eq_left hk]
    rw [← hle]
    exact (take_sublist k _).nodup hfirst
  have hheld : s.heldExts.Nodup := (nodup_append.mp (hp.nodup_iff.mpr htake)).2.1
  have hpair := pairwise_filterMap.mp hheld
  have hsymm : Std.Symm fun a a' : Nat => ∀ x, (s.net.bufs a).ext = some x → ∀ y, (s.net.bufs a').ext = some y → x ≠ y :=
    ⟨fun a a' hr x hx y hy => (hr y hy x hx).symm⟩
  exact fun hx' => hpair.forall hb hc' hne e hx e hx' rfl

theorem Inv.safe : Safe (netBlocks mm) s := by
  have hnodup := h.nets.nodup_iff.mpr hc.netAddrs_nodup
  have hblock : ∀ m ∈ ms ++ [m₁, m₂], mm.pageAddr m ∈ netBlocks mm ∧
      (mm.pageAddr m).toNat = mm.base.toNat + 4096 * m := by
    intro m hm
    have hle := (hc.aligned m hm).2
    rw [hc.blocks]
    exact ⟨mem_map_of_mem hm, Mm.toNat_pageAddr (by omega)⟩
  have hfirst : m₁ ∈ ms ++ [m₁, m₂] := mem_append_right _ mem_cons_self
  have hapart : ∀ m ∈ ms, m + 64 ≤ m₁ ∨ m₁ + 64 ≤ m := by
    intro m hm
    have hne : m ≠ m₁ := (nodup_append.mp hc.nodup).2.2 m hm m₁ mem_cons_self
    obtain ⟨h1, -⟩ := hc.aligned m (mem_append_left _ hm)
    obtain ⟨h2, -⟩ := hc.aligned m₁ hfirst
    omega
  refine ⟨(nodup_append.mp hnodup).2.1, fun b hb r hr => ?_, fun b hb c hcb hne r hr q hq => ?_, h.room⟩
  · rcases h.region hc hb hr with ⟨m, hm, i, hi, rfl, h1, h2⟩ | ⟨j, hj, rfl, -⟩
    · obtain ⟨hin, haddr⟩ := hblock m (mem_append_left _ hm)
      refine ⟨_, hin, ?_⟩
      rw [haddr, show (2 : Nat) ^ maxOrder = 64 from rfl]
      omega
    · obtain ⟨hin, haddr⟩ := hblock m₁ hfirst
      refine ⟨_, hin, ?_⟩
      rw [haddr, show (2 : Nat) ^ maxOrder = 64 from rfl]
      omega
  · unfold Disjoint
    rcases h.region hc hb hr with ⟨m, hm, i, hi, hbm, h1, h2⟩ | ⟨j, hj, rfl, hx⟩
    · rcases h.region hc hcb hq with ⟨m', hm', i', hi', hcm, h3, h4⟩ | ⟨j', hj', rfl, -⟩
      · omega
      · have := hapart m hm
        omega
    · rcases h.region hc hcb hq with ⟨m', hm', i', hi', hcm, h3, h4⟩ | ⟨j', hj', rfl, hx'⟩
      · have := hapart m' hm'
        omega
      · have hdiff : j ≠ j' := by
          rintro rfl
          exact h.ext_ne hc hb hcb hne hx hx'
        omega

end

/-- While fewer than 128 ext buffers are held whenever one is taken, the held buffers are in the blocks and
disjoint. -/
theorem net_buffers_safe {as : List Act} {t : NetMem} (h : mm.Ok buddy) (hlen : 18 ≤ (buddy.free maxOrder).length)
    (hs : Start mm s) (hc : Along step Careful s as) (hr : run step s as = some t) : Safe (netBlocks mm) t := by
  obtain ⟨ms, m₁, m₂, -, hcarved⟩ := exists_carved h hlen
  have hinv : Inv (netAddrs mm) (extAddrs mm) t :=
    run_invariant (fun _ _ _ hi hc hs => hi.step hcarved.netAddrs_nodup hc hs) hs.inv hc hr
  exact hinv.safe hcarved

theorem run_allocs (s : NetMem) (len n : Nat) (hl : len ≤ 2048) (hn : (s.net.netBuffers ++ s.held).Nodup)
    (hnets : n ≤ s.net.netBuffers.length) (hexts : 240 < len → n ≤ s.net.extBuffers.length) :
    ∃ t, run step s (List.replicate n (.alloc len)) = some t ∧
      t.net.netBuffers.length + n = s.net.netBuffers.length ∧
      t.net.extBuffers.length + (if 240 < len then n else 0) = s.net.extBuffers.length ∧
      (t.net.netBuffers ++ t.held).Perm (s.net.netBuffers ++ s.held) ∧
      (t.net.extBuffers ++ t.heldExts).Perm (s.net.extBuffers ++ s.heldExts) := by
  induction n generalizing s with
  | zero =>
    refine ⟨s, rfl, rfl, ?_, List.Perm.refl _, List.Perm.refl _⟩
    split
    · rfl
    · rfl
  | succ n ih =>
    have ha : s.net.Alloc len := by
      refine ⟨hl, fun hnil => ?_, fun hlen hnil => ?_⟩
      · rw [hnil] at hnets
        cases hnets
      · have := hexts hlen
        rw [hnil] at this
        cases this
    rcases allocNetBuffer_cases s.net len with ⟨hno, -⟩ | ⟨-, b, u, heq, ht⟩
    · exact absurd ha hno
    · obtain ⟨-, hperm, hheld⟩ := took_places ht hn
      have hstep : s.step (.alloc len) = some ⟨u, b :: s.held⟩ := by
        rw [NetMem.step, heq]
      have hpermExt : (u.extBuffers ++ heldExts ⟨u, b :: s.held⟩).Perm (s.net.extBuffers ++ s.heldExts) := by
        rw [hheld, ht.extBuffers, List.append_assoc]
        exact List.perm_append_comm_assoc _ _ _
      have hnetLen := congrArg List.length ht.netBuffers
      have hextLen := congrArg List.length ht.extBuffers
      rw [length_cons] at hnetLen
      rw [length_append] at hextLen
      have hone : (u.bufs b).ext.toList.length = if 240 < len then 1 else 0 := by
        rcases ext_of_took ht with ⟨hlen, e, hx⟩ | ⟨hlen, hx⟩
        · rw [hx, if_pos hlen]
          rfl
        · rw [hx, if_neg hlen]
          rfl
      obtain ⟨t, hr, h1, h2, h3, h4⟩ := ih ⟨u, b :: s.held⟩ (hperm.nodup_iff.mpr hn)
        (show n ≤ u.netBuffers.length by omega) (fun hlen => by
          change n ≤ u.extBuffers.length
          rw [if_pos hlen] at hone
          omega)
      refine ⟨t, run_step hstep hr, ?_, ?_, h3.trans hperm, h4.trans hpermExt⟩
      · change _ = u.netBuffers.length at h1
        omega
      · change _ = u.extBuffers.length at h2
        split at h2
        · next hlen =>
          rw [if_pos hlen] at hone ⊢
          omega
        · next hlen =>
          rw [if_neg hlen] at hone ⊢
          omega

theorem Carved.extAddrs_over (h : Carved mm ms m₁ m₂) : ∃ l r q,
    extAddrs mm = l ++ (mm.base.toNat + 4096 * (m₁ + 64)) :: (r ++ (mm.base.toNat + 4096 * m₂) :: q) := by
  have h1 := (h.aligned m₁ (List.mem_append_right _ List.mem_cons_self)).2
  have h2 := (h.aligned m₂ (List.mem_append_right _ (List.mem_cons_of_mem _ List.mem_cons_self))).2
  have hend := mm.base_add_pages h1
  have hover : (mm.pageAddr m₁ + BitVec.ofNat 32 128 * extBufSize).toNat = mm.base.toNat + 4096 * (m₁ + 64) := by
    rw [toNat_add, Mm.toNat_pageAddr (by omega), show (BitVec.ofNat 32 128 * extBufSize).toNat = 262144 by decide]
    omega
  have hsecond := Mm.toNat_pageAddr (show m₂ ≤ mm.pages by omega)
  have hcons : ∀ n a, (carve extBufSize (n + 1) a).map BitVec.toNat =
      a.toNat :: (carve extBufSize n (a + extBufSize)).map BitVec.toNat := fun n a => rfl
  unfold extAddrs
  rw [h.exts]
  nth_rewrite 1 [show (1024 : Nat) = 128 + (895 + 1) from rfl]
  rw [carve_append, List.map_append, List.map_append, hcons 895, hover, show (1024 : Nat) = 1023 + 1 from rfl, hcons 1023,
    hsecond, List.append_assoc, List.cons_append]
  exact ⟨_, _, _, rfl⟩

theorem Carved.not_safe (hc : Carved mm ms m₁ m₂) (hheld : s.held.Perm (netAddrs mm))
    (hexts : s.heldExts.Perm (extAddrs mm)) : ¬Safe (netBlocks mm) s := by
  intro hsafe
  obtain ⟨l, r, q, hover⟩ := hc.extAddrs_over
  obtain ⟨x, hx⟩ : ∃ x, x = mm.base.toNat + 4096 * (m₁ + 64) := ⟨_, rfl⟩
  rw [← hx] at hover
  have harea : ∀ {b e : Nat}, (s.net.bufs b).ext = some e → (e, 2048) ∈ storage s.net b := by
    intro b e hb
    unfold storage dataArea
    rw [hb]
    exact mem_cons_of_mem _ mem_cons_self
  -- two ext buffers at one address are held by two buffers
  have hnodup : (extAddrs mm).Nodup := by
    refine hexts.nodup_iff.mp (pairwise_filterMap.mpr (hsafe.nodup.imp_of_mem ?_))
    rintro b c hb hcb hne e he e' he' rfl
    rcases hsafe.disjoint b hb c hcb hne _ (harea he) _ (harea he') with h | h
    all_goals
      change e + 2048 ≤ e at h
      omega
  have hmem : x ∈ s.heldExts := by
    rw [hexts.mem_iff, hover]
    exact mem_append_right _ mem_cons_self
  obtain ⟨b, hb, hbx⟩ := mem_filterMap.mp hmem
  obtain ⟨a, ha, h1, h2⟩ := hsafe.inside b hb _ (harea hbx)
  rw [hc.blocks] at ha
  obtain ⟨m, hm, rfl⟩ := mem_map.mp ha
  obtain ⟨hd, hle⟩ := hc.aligned m hm
  obtain ⟨hd₁, -⟩ := hc.aligned m₁ (mem_append_right _ mem_cons_self)
  rw [Mm.toNat_pageAddr (by omega), show (2 : Nat) ^ maxOrder = 64 from rfl] at h2
  rw [Mm.toNat_pageAddr (by omega)] at h1
  -- the only block with room for it is the one that follows
  obtain rfl : m = m₁ + 64 := by omega
  rcases mem_append.mp hm with hm | hm
  · have hin : ∀ i < 2, x + 256 * i ∈ s.held := fun i hi =>
      hheld.mem_iff.mpr (hc.mem_netAddrs.mpr ⟨_, hm, i, by omega, by rw [hx]⟩)
    have happart : ∀ i < 2, b = x + 256 * i := by
      intro i hi
      by_contra hne
      rcases hsafe.disjoint b hb _ (hin i hi) hne _ (harea hbx) _ mem_cons_self with h | h
      · change x + 2048 ≤ x + 256 * i at h
        omega
      · change x + 256 * i + 16 ≤ x at h
        omega
    have h0 := happart 0 (by decide)
    have h1 := happart 1 (by decide)
    omega
  · rcases mem_cons.mp hm with heq | hm
    · omega
    · obtain heq := mem_singleton.mp hm
      rw [hover, ← heq, ← hx] at hnodup
      have hnot := (nodup_cons.mp (nodup_append.mp hnodup).2.1).1
      exact hnot (mem_append_right _ mem_cons_self)

def bigMem : Mm := { Clients.smallMem with memEnd := 0xc1200000 }

def initial (mm : Mm) : NetMem :=
  ⟨{ host with
      netBuffers := (netPool mm).bufs.map BitVec.toNat
      extBuffers := (extPool mm).bufs.map BitVec.toNat }, []⟩

theorem initial_start (mm : Mm) : Start mm (initial mm) := ⟨rfl, rfl, rfl⟩

theorem bigMem_boot : ∃ mm b, bigMem.initFreeArea = some mm ∧ mm.Ok b ∧ 18 ≤ (b.free maxOrder).length := by
  obtain ⟨mm, b, hboot, hok, hcov, -, hbig, -⟩ := Mm.BootMem.initFreeArea (show bigMem.BootMem from ⟨by decide, by decide⟩)
  have hpages := hbig 1152 (by decide)
  have hd : 2 ^ maxOrder ∣ mm.pages := (by decide : 2 ^ maxOrder ∣ 128).trans hok.layout.pages_dvd
  have hsub : (List.range 18).map (64 * ·) ⊆ b.free maxOrder := by
    intro n hn
    obtain ⟨i, hi, rfl⟩ := mem_map.mp hn
    rw [mem_range] at hi
    refine (hok.wf.mem_free_top hd fun p hp => (hcov p).mpr hp).mpr ⟨Nat.dvd_mul_right 64 i, ?_⟩
    rw [show (2 : Nat) ^ maxOrder = 64 from rfl]
    omega
  have hnodup : ((List.range 18).map (64 * ·)).Nodup := by decide
  refine ⟨mm, b, hboot, hok, ?_⟩
  have hle := (hnodup.subperm hsub).length_le
  rwa [length_map, length_range] at hle

theorem net_buffers_safe_two : ∃ mm buddy t, bigMem.initFreeArea = some mm ∧ mm.Ok buddy ∧
    Start mm (initial mm) ∧ run step (initial mm) [.alloc 2000, .alloc 100] = some t ∧ t.held.length = 2 ∧
    Safe (netBlocks mm) t := by
  obtain ⟨mm, b, hboot, hok, hlen⟩ := bigMem_boot
  obtain ⟨ms, m₁, m₂, hms, hcarved⟩ := exists_carved hok hlen
  have hstart := initial_start mm
  have hnets := hcarved.length_netAddrs
  have hexts := hcarved.length_extAddrs
  have hnodup : ((initial mm).net.netBuffers ++ (initial mm).held).Nodup := by
    rw [hstart.held, append_nil]
    exact hcarved.netAddrs_nodup
  obtain ⟨u, hrun, hone, -, hperm, -⟩ := run_allocs (initial mm) 2000 1 (by decide) hnodup
    (show 1 ≤ (netAddrs mm).length by omega) (fun _ => show 1 ≤ (extAddrs mm).length by omega)
  have hnets' : (initial mm).net.netBuffers.length = (netAddrs mm).length := rfl
  obtain ⟨t, hrun', htwo, -, hperm', -⟩ := run_allocs u 100 1 (by decide) (hperm.nodup_iff.mpr hnodup) (by omega)
    (fun h => absurd h (by decide))
  have hboth : run step (initial mm) [.alloc 2000, .alloc 100] = some t := (run_append hrun).trans hrun'
  refine ⟨mm, b, t, hboot, hok, hstart, hboth, ?_, ?_⟩
  · have hsame := (hperm'.trans hperm).length_eq
    rw [hstart.held, append_nil, length_append] at hsame
    omega
  · have hcareful : Along step Careful (initial mm) [.alloc 2000, .alloc 100] := by
      refine ⟨fun _ => ?_, fun _ _ => ⟨fun h => absurd h (by decide), fun _ _ => trivial⟩⟩
      rw [hstart.heldExts]
      decide
    exact net_buffers_safe hok hlen hstart hcareful hboth

/-- All buffers are taken, as many of them with an ext buffer as there are ext buffers. -/
theorem all_held_unsafe : ∃ mm buddy t, bigMem.initFreeArea = some mm ∧ mm.Ok buddy ∧
    18 ≤ (buddy.free maxOrder).length ∧ Start mm (initial mm) ∧
    run step (initial mm) (List.replicate 2048 (.alloc 2048) ++ List.replicate 14336 (.alloc 100)) = some t ∧
    ¬Safe (netBlocks mm) t := by
  obtain ⟨mm, b, hboot, hok, hlen⟩ := bigMem_boot
  obtain ⟨ms, m₁, m₂, hms, hcarved⟩ := exists_carved hok hlen
  have hstart := initial_start mm
  have hnets := hcarved.length_netAddrs
  have hexts := hcarved.length_extAddrs
  have hnodup : ((initial mm).net.netBuffers ++ (initial mm).held).Nodup := by
    rw [hstart.held, append_nil]
    exact hcarved.netAddrs_nodup
  obtain ⟨t, hrun, h1, h2, h3, h4⟩ := run_allocs (initial mm) 2048 2048 (by decide) hnodup
    (show 2048 ≤ (netAddrs mm).length by omega) (fun _ => show 2048 ≤ (extAddrs mm).length by omega)
  change _ = (netAddrs mm).length at h1
  change _ = (extAddrs mm).length at h2
  rw [if_pos (by decide)] at h2
  obtain ⟨u, hrun', h5, h6, h7, h8⟩ := run_allocs t 100 14336 (by decide)
    (h3.nodup_iff.mpr hnodup) (by omega) (fun hlt => absurd hlt (by decide))
  rw [if_neg (by decide)] at h6
  have hnone : u.net.netBuffers = [] := eq_nil_of_length_eq_zero (by omega)
  have hnoext : u.net.extBuffers = [] := eq_nil_of_length_eq_zero (by omega)
  refine ⟨mm, b, u, hboot, hok, hlen, hstart, ?_, hcarved.not_safe ?_ ?_⟩
  · rw [run_append hrun]
    exact hrun'
  · have hall := h7.trans h3
    rw [hnone, nil_append, hstart.held, append_nil] at hall
    exact hall
  · have hall := h8.trans h4
    rw [hnoext, nil_append, hstart.heldExts, append_nil] at hall
    exact hall

end

end NetMem

end BabyOS
