import BabyOS.Bytes
import Mathlib.Data.List.Range
import Mathlib.Data.Nat.ModEq

open Function List Option

namespace BabyOS

/-- `sock_ring_buffer_t`, with the counts of its two semaphores. -/
structure SockRingBuffer where
  buffer : Nat → Byte
  length : Nat
  left : Nat
  readIndex : Nat
  writeIndex : Nat
  waitSpace : Nat
  waitItem : Nat

namespace SockRingBuffer

def init (order : Nat) (mem : Nat → Byte) : SockRingBuffer :=
  ⟨mem, 4096 * 2 ^ order, 4096 * 2 ^ order, 0, 0, 4096 * 2 ^ order, 0⟩

def putByte (r : SockRingBuffer) (b : Byte) : SockRingBuffer :=
  { r with
    buffer := update r.buffer r.writeIndex b
    writeIndex := (r.writeIndex + 1) % r.length
    left := r.left - 1
    waitItem := r.waitItem + 1
    waitSpace := r.waitSpace - 1 }

/-- The loop of `put_data`; `none` where it would sleep on `m_wait_space`. -/
def putLoop : List Byte → SockRingBuffer → Option SockRingBuffer
  | [], r => some r
  | b :: bs, r => if r.waitSpace = 0 then none else putLoop bs (r.putByte b)

def putData (r : SockRingBuffer) (connected : Bool) (data : List Byte) : Option (Int × SockRingBuffer) :=
  if r.left < data.length then some (-1, r)
  else if connected then (putLoop data r).map fun r' => (data.length, r')
  else some (0, r)

def takeByte (r : SockRingBuffer) : SockRingBuffer :=
  { r with
    readIndex := (r.readIndex + 1) % r.length
    left := r.left + 1
    waitSpace := r.waitSpace + 1 }

def downItem (r : SockRingBuffer) : SockRingBuffer := { r with waitItem := r.waitItem - 1 }

/-- The loop of `get_data`; `none` where it would sleep on `m_wait_item`. -/
def getLoop : Nat → SockRingBuffer → Option (List Byte × SockRingBuffer)
  | 0, r => some ([], r)
  | max + 1, r =>
    if r.takeByte.left = r.takeByte.length then some ([r.buffer r.readIndex], r.takeByte)
    else if r.takeByte.waitItem = 0 then none
    else (getLoop max r.takeByte.downItem).map fun x => (r.buffer r.readIndex :: x.1, x.2)

/-- `get_data`: the bytes it returns, with `none` for the result -1. -/
def getData (r : SockRingBuffer) (connected : Bool) (max : Nat) :
    Option (Option (List Byte) × SockRingBuffer) :=
  if r.waitItem = 0 then none
  else if connected then (getLoop max r.downItem).map fun x => (some x.1, x.2)
  else some (none, r.downItem)

section

variable {r r' : SockRingBuffer} {data : List Byte} {connected : Bool}

theorem putLoop_eq (h : data.length ≤ r.waitSpace) : putLoop data r = some (data.foldl putByte r) := by
  induction data generalizing r with
  | nil => rfl
  | cons b bs ih =>
    simp only [length_cons] at h
    have hb : bs.length ≤ (r.putByte b).waitSpace := by
      change bs.length ≤ r.waitSpace - 1
      omega
    rw [putLoop, if_neg (by omega), ih hb]
    rfl

theorem foldl_putByte_space (h : r.left ≤ r.waitSpace) (data : List Byte) :
    (data.foldl putByte r).left ≤ (data.foldl putByte r).waitSpace := by
  induction data generalizing r with
  | nil => exact h
  | cons b bs ih =>
    apply ih
    change r.left - 1 ≤ r.waitSpace - 1
    omega

theorem foldl_putByte_left (r : SockRingBuffer) (data : List Byte) :
    (data.foldl putByte r).left = r.left - data.length := by
  induction data generalizing r with
  | nil => rfl
  | cons b bs ih =>
    rw [foldl_cons, ih, length_cons]
    change r.left - 1 - bs.length = _
    omega

theorem getLoop_space {max : Nat} {x : List Byte × SockRingBuffer} (h : r.left ≤ r.waitSpace)
    (hx : getLoop max r = some x) : x.2.left ≤ x.2.waitSpace := by
  induction max generalizing r x with
  | zero =>
    cases some.inj hx
    exact h
  | succ max ih =>
    have ht : r.takeByte.left ≤ r.takeByte.waitSpace := Nat.succ_le_succ h
    rw [getLoop] at hx
    split at hx
    · cases some.inj hx
      exact ht
    · split at hx
      · cases hx
      · obtain ⟨y, hy, rfl⟩ := map_eq_some_iff.mp hx
        exact ih (x := y) (r := r.takeByte.downItem) ht hy

theorem getData_space {max : Nat} {x : Option (List Byte) × SockRingBuffer} (h : r.left ≤ r.waitSpace)
    (hx : r.getData connected max = some x) : x.2.left ≤ x.2.waitSpace := by
  unfold getData at hx
  split at hx
  · cases hx
  · cases connected
    · cases some.inj hx
      exact h
    · obtain ⟨y, hy, rfl⟩ := map_eq_some_iff.mp hx
      exact getLoop_space (r := r.downItem) h hy

end

def items (r : SockRingBuffer) : List Byte :=
  (List.range (r.length - r.left)).map fun k => r.buffer ((r.readIndex + k) % r.length)

/-- The write index is the end of the unread bytes, of which `m_wait_item` counts some. -/
structure Wf (r : SockRingBuffer) : Prop where
  le : r.left ≤ r.length
  read : r.readIndex < r.length
  item : r.waitItem ≤ r.length - r.left
  write : r.writeIndex = (r.readIndex + (r.length - r.left)) % r.length

theorem init_wf (order : Nat) (mem : Nat → Byte) : (init order mem).Wf := by
  refine ⟨le_refl _, ?_, Nat.zero_le _, ?_⟩
  · exact Nat.mul_pos (by decide) (Nat.two_pow_pos order)
  · simp [init]

theorem init_items (order : Nat) (mem : Nat → Byte) : (init order mem).items = [] := by
  simp [init, items]

section

variable {r : SockRingBuffer}

section

variable (h : r.Wf)
include h

theorem Wf.putByte (hr : 0 < r.left) (b : Byte) : (r.putByte b).Wf := by
  have hle := h.le
  have hitem := h.item
  refine ⟨?_, h.read, ?_, ?_⟩
  · change r.left - 1 ≤ r.length
    omega
  · change r.waitItem + 1 ≤ r.length - (r.left - 1)
    omega
  · change (r.writeIndex + 1) % r.length = (r.readIndex + (r.length - (r.left - 1))) % r.length
    rw [h.write, Nat.mod_add_mod]
    congr 1
    omega

theorem items_putByte (hr : 0 < r.left) (b : Byte) : (r.putByte b).items = r.items ++ [b] := by
  have hle := h.le
  have hn : r.length - (r.left - 1) = r.length - r.left + 1 := by omega
  change (List.range (r.length - (r.left - 1))).map
    (fun k => update r.buffer r.writeIndex b ((r.readIndex + k) % r.length)) = _
  rw [hn, range_succ, map_append, map_singleton]
  congr 1
  · apply map_congr_left
    intro k hk
    have hk' := mem_range.mp hk
    apply update_of_ne
    intro he
    rw [h.write] at he
    have hm : k ≡ r.length - r.left [MOD r.length] := Nat.ModEq.add_left_cancel' r.readIndex he
    have hk2 := Nat.mod_eq_of_lt (show k < r.length by omega)
    have hk3 := Nat.mod_eq_of_lt (show r.length - r.left < r.length by omega)
    rw [Nat.ModEq, hk2, hk3] at hm
    omega
  · rw [← h.write, update_self]

theorem items_foldl_putByte {data : List Byte} (hd : data.length ≤ r.left) :
    (data.foldl SockRingBuffer.putByte r).Wf ∧
      (data.foldl SockRingBuffer.putByte r).items = r.items ++ data := by
  induction data generalizing r with
  | nil => exact ⟨h, (append_nil _).symm⟩
  | cons b bs ih =>
    simp only [length_cons] at hd
    have hb : bs.length ≤ (r.putByte b).left := by
      change bs.length ≤ r.left - 1
      omega
    obtain ⟨h1, h2⟩ := ih (h.putByte (by omega) b) hb
    refine ⟨h1, ?_⟩
    rw [foldl_cons, h2, items_putByte h (by omega), append_assoc, singleton_append]

theorem Wf.takeByte (hi : r.waitItem < r.length - r.left) : r.takeByte.Wf := by
  refine ⟨?_, Nat.mod_lt _ (Nat.zero_lt_of_lt h.read), ?_, ?_⟩
  · change r.left + 1 ≤ r.length
    omega
  · change r.waitItem ≤ r.length - (r.left + 1)
    omega
  · change r.writeIndex = ((r.readIndex + 1) % r.length + (r.length - (r.left + 1))) % r.length
    rw [h.write, Nat.mod_add_mod]
    congr 1
    omega

theorem Wf.downItem : r.downItem.Wf :=
  ⟨h.le, h.read, (Nat.sub_le _ _).trans h.item, h.write⟩

theorem items_takeByte (hi : r.left < r.length) : r.items = r.buffer r.readIndex :: r.takeByte.items := by
  have hn : r.length - r.left = (r.length - (r.left + 1)) + 1 := by omega
  unfold items
  rw [hn, List.range_succ_eq_map, List.map_cons, List.map_map, Nat.add_zero, Nat.mod_eq_of_lt h.read]
  congr 1
  apply List.map_congr_left
  intro k _
  change r.buffer ((r.readIndex + (k + 1)) % r.length) = r.buffer (((r.readIndex + 1) % r.length + k) % r.length)
  rw [Nat.mod_add_mod]
  congr 2
  omega

theorem getLoop_items {max : Nat} {x : List Byte × SockRingBuffer}
    (hi : r.waitItem < r.length - r.left) (hx : getLoop max r = some x) : x.2.Wf ∧ r.items = x.1 ++ x.2.items := by
  induction max generalizing r x with
  | zero =>
    cases some.inj hx
    exact ⟨h, rfl⟩
  | succ max ih =>
    have hcons := items_takeByte h (by omega)
    have htake := h.takeByte hi
    rw [getLoop] at hx
    split at hx
    · cases some.inj hx
      exact ⟨htake, hcons⟩
    · split at hx
      · cases hx
      · next hfull hwait =>
        obtain ⟨y, hy, rfl⟩ := map_eq_some_iff.mp hx
        have hitem := htake.item
        have hlt : r.takeByte.downItem.waitItem < r.takeByte.downItem.length - r.takeByte.downItem.left := by
          change r.takeByte.waitItem - 1 < r.takeByte.length - r.takeByte.left
          omega
        obtain ⟨h1, h2⟩ := ih htake.downItem hlt hy
        refine ⟨h1, ?_⟩
        rw [hcons, cons_append, ← h2]
        rfl

theorem getData_items {connected : Bool} {max : Nat} {x : Option (List Byte) × SockRingBuffer}
    (hx : r.getData connected max = some x) : x.2.Wf ∧ r.items = x.1.getD [] ++ x.2.items := by
  have hitem := h.item
  unfold getData at hx
  split at hx
  · cases hx
  · have hlt : r.downItem.waitItem < r.downItem.length - r.downItem.left := by
      change r.waitItem - 1 < r.length - r.left
      omega
    cases connected
    · cases some.inj hx
      exact ⟨h.downItem, rfl⟩
    · obtain ⟨y, hy, rfl⟩ := map_eq_some_iff.mp hx
      exact getLoop_items (r := r.downItem) h.downItem hlt hy

end

end

end SockRingBuffer

end BabyOS
