import BabyOS.Arp
import BabyOS.CheckSum
import BabyOS.StreamSocket

open Function

namespace BabyOS

/-- `net_buf_t`, with `m_data` as an offset into the bytes that the buffer has. -/
structure NetBuf where
  dataLen : Nat
  data : Nat
  ext : Option Nat
  left : Nat
  deriving DecidableEq

/-- `net_buf_t::init`, with `EXT_BUF_SIZE` bytes or `NET_BUF_DATA_SIZE` of its own. -/
def NetBuf.init : Option Nat → NetBuf
  | some e => ⟨0, 0, some e, 2048⟩
  | none => ⟨0, 0, none, 240⟩

structure RawSocket where
  ref : Nat
  protocol : Word
  buffers : List Nat
  sem : Semaphore

structure DgramBuf where
  addrFrom : SockAddr
  buf : Nat
  deriving DecidableEq

/-- `socket_dgram_t`; nothing ever sets the family in its address. -/
structure DgramSocket where
  ref : Nat
  family : Half
  addr : SockAddr
  buffers : List DgramBuf
  sem : Semaphore

structure Sockets where
  raws : Fin 128 → RawSocket
  dgrams : Fin 128 → DgramSocket
  streams : StreamTable

/-- `net_t` with its sockets: the pools, the buffers by their number, the bytes of each buffer and of each ext buffer,
and the frames that the card was given. -/
structure Net where
  netBuffers : List Nat
  extBuffers : List Nat
  bufs : Nat → NetBuf
  inner : Nat → Nat → Byte
  outer : Nat → Nat → Byte
  arp : Arp
  nextId : Half
  socks : Sockets
  frames : List (List Byte)

structure NetCfg where
  ethAddr : Mac
  ipaddr : Word
  subnetMask : Word
  gateway : Word
  dnsAddr : Word

/-- Why the network code stops: the panic of a second free, or a write through a null `m_dup_socket`. -/
inductive NetErr where
  | multiFree
  | nullDup
  deriving DecidableEq

abbrev NetProg := Prog NetErr Net

namespace Net

def area (s : Net) (b : Nat) : Nat → Byte :=
  match (s.bufs b).ext with
  | none => s.inner b
  | some e => s.outer e

def setArea (s : Net) (b : Nat) (f : Nat → Byte) : Net :=
  match (s.bufs b).ext with
  | none => { s with inner := update s.inner b f }
  | some e => { s with outer := update s.outer e f }

def setBuf (s : Net) (b : Nat) (x : NetBuf) : Net := { s with bufs := update s.bufs b x }

def setArp (s : Net) (a : Arp) : Net := { s with arp := a }

def setSocks (s : Net) (x : Sockets) : Net := { s with socks := x }

/-- The bytes at `get_data()`, and those behind them. -/
def view (s : Net) (b : Nat) : Nat → Byte := fun i => s.area b ((s.bufs b).data + i)

def bytes (f : Nat → Byte) (n : Nat) : List Byte := (List.range n).map f

def content (s : Net) (b : Nat) : List Byte := bytes (s.view b) (s.bufs b).dataLen

def write (f : Nat → Byte) (a : Nat) (bs : List Byte) : Nat → Byte :=
  fun i => if a ≤ i ∧ i < a + bs.length then bs.getD (i - a) 0 else f i

def append (s : Net) (b : Nat) (bs : List Byte) : Int × Net :=
  let x := s.bufs b
  if x.left < bs.length then (-105, s)
  else (0, (s.setArea b (write (s.area b) (x.data + x.dataLen) bs)).setBuf b
    ⟨x.dataLen + bs.length, x.data, x.ext, x.left - bs.length⟩)

def appendZero (s : Net) (b len : Nat) : Int × Net := s.append b (List.replicate len 0)

def popFront (s : Net) (b len : Nat) : Int × Net :=
  let x := s.bufs b
  if x.dataLen < len then (-22, s) else (0, s.setBuf b ⟨x.dataLen - len, x.data + len, x.ext, x.left⟩)

def store (s : Net) (b off : Nat) (bs : List Byte) : Net :=
  s.setArea b (write (s.area b) ((s.bufs b).data + off) bs)

def allocExtBuffer (s : Net) : Option Nat × Net :=
  match s.extBuffers with
  | [] => (none, s)
  | e :: es => (some e, { s with extBuffers := es })

def takeBuffer (s : Net) (b : Nat) (bs : List Nat) (ext : Option Nat) : Net :=
  { s with netBuffers := bs, bufs := update s.bufs b (NetBuf.init ext) }

def allocNetBuffer (s : Net) (len : Nat) : Option Nat × Net :=
  if 2048 < len then (none, s)
  else match s.netBuffers with
    | [] => (none, s)
    | b :: bs =>
      if 240 < len then
        match s.allocExtBuffer with
        | (none, s) => (none, s)
        | (some e, s) => (some b, s.takeBuffer b bs (some e))
      else (some b, s.takeBuffer b bs none)

def freeExtBuffer (s : Net) (e : Nat) : Net := { s with extBuffers := e :: s.extBuffers }

/-- `free_net_buffer` behind its test for a second free. -/
def freeNetBuffer (s : Net) (b : Nat) : Net :=
  let s := match (s.bufs b).ext with
    | none => s
    | some e => s.freeExtBuffer e
  { s with netBuffers := b :: s.netBuffers }

end Net

def allocNetBuffer (len : Nat) : NetProg (Option Nat) := fun s => .ok (s.allocNetBuffer len)

def freeNetBuffer (b : Nat) : NetProg Unit := do
  let s ← get
  if b ∈ s.netBuffers then throw .multiFree
  else set (s.freeNetBuffer b)

def append (b : Nat) (bs : List Byte) : NetProg Unit := modify fun s => (s.append b bs).2

def appendZero (b len : Nat) : NetProg Unit := modify fun s => (s.appendZero b len).2

def popFront (b len : Nat) : NetProg Unit := modify fun s => (s.popFront b len).2

def store (b off : Nat) (bs : List Byte) : NetProg Unit := modify fun s => s.store b off bs

namespace Net

section

variable {s : Net} {b c : Nat} {f : Nat → Byte} {bs : List Byte}

theorem length_bytes (f : Nat → Byte) (n : Nat) : (bytes f n).length = n := by
  rw [bytes, List.length_map, List.length_range]

theorem getElem_bytes {n i : Nat} (h : i < (bytes f n).length) : (bytes f n)[i] = f i := by
  simp only [bytes, List.getElem_map, List.getElem_range]

theorem write_of_lt {a i : Nat} (h : i < a) : write f a bs i = f i := if_neg fun hi => by omega

theorem write_add {a i : Nat} (h : i < bs.length) : write f a bs (a + i) = bs[i] := by
  unfold write
  rw [if_pos (by omega), Nat.add_sub_cancel_left, List.getD_eq_getElem _ _ h]

theorem write_of_ge {a i : Nat} (h : a + bs.length ≤ i) : write f a bs i = f i := if_neg fun hi => by omega

theorem write_nil (a : Nat) : write f a [] = f := by
  funext i
  exact if_neg (by simp)

theorem update_eq_write (a : Nat) (b : Byte) : update f a b = write f a [b] := by
  funext i
  by_cases h : i = a
  · have hat : write f i [b] (i + 0) = b := write_add (by simp)
    rw [← h, update_self]
    exact hat.symm
  · have hout : ¬(a ≤ i ∧ i < a + [b].length) := by
      rw [List.length_singleton]
      omega
    rw [update_of_ne h, write, if_neg hout]

theorem write_write (a : Nat) (xs ys : List Byte) :
    write (write f a xs) (a + xs.length) ys = write f a (xs ++ ys) := by
  funext i
  by_cases h : i < a + xs.length
  · rw [write_of_lt h]
    by_cases ha : a ≤ i
    · obtain ⟨j, rfl⟩ := Nat.exists_eq_add_of_le ha
      rw [write_add (by omega), write_add (by rw [List.length_append]; omega), List.getElem_append_left (by omega)]
    · rw [write_of_lt (by omega), write_of_lt (by omega)]
  · obtain ⟨j, rfl⟩ := Nat.exists_eq_add_of_le (Nat.le_of_not_lt h)
    by_cases hj : j < ys.length
    · rw [write_add hj, Nat.add_assoc, write_add (by rw [List.length_append]; omega),
        List.getElem_append_right (by omega)]
      simp
    · rw [write_of_ge (by omega), write_of_ge (by omega), write_of_ge (by rw [List.length_append]; omega)]

structure Apart (s : Net) (b c : Nat) : Prop where
  ne : b ≠ c
  ext : ∀ e, (s.bufs b).ext = some e → (s.bufs c).ext ≠ some e

theorem setArea_bufs (s : Net) (b : Nat) (f : Nat → Byte) : (s.setArea b f).bufs = s.bufs := by
  unfold setArea
  cases (s.bufs b).ext <;> rfl

theorem area_setArea (s : Net) (b : Nat) (f : Nat → Byte) : (s.setArea b f).area b = f := by
  unfold area
  rw [setArea_bufs]
  unfold setArea
  cases (s.bufs b).ext with
  | none | some e => simp only [update_self]

theorem area_setArea_of_apart (h : Apart s b c) : (s.setArea b f).area c = s.area c := by
  unfold area
  rw [setArea_bufs]
  unfold setArea
  cases hb : (s.bufs b).ext with
  | none =>
    cases (s.bufs c).ext with
    | none => simp only [update_of_ne h.ne.symm]
    | some e => rfl
  | some e =>
    cases hc : (s.bufs c).ext with
    | none => rfl
    | some e' =>
      have hne : e' ≠ e := by
        rintro rfl
        exact h.ext e' hb hc
      simp only [update_of_ne hne]

theorem setBuf_self (s : Net) (b : Nat) (x : NetBuf) : (s.setBuf b x).bufs b = x := by
  simp only [setBuf, update_self]

theorem setBuf_of_ne {x : NetBuf} (h : c ≠ b) : (s.setBuf b x).bufs c = s.bufs c := by
  simp only [setBuf, update_of_ne h]

theorem area_setBuf {x : NetBuf} (h : x.ext = (s.bufs b).ext) (c : Nat) : (s.setBuf b x).area c = s.area c := by
  unfold area
  by_cases hc : c = b
  · subst hc
    rw [setBuf_self, h]
    rfl
  · rw [setBuf_of_ne hc]
    rfl

/-- What a buffer holds: the bytes from `m_data` on, and how many of them are its data. -/
structure Packet where
  data : Nat → Byte
  len : Nat

/-- What `pop_front` leaves, which does nothing when there is not enough data. -/
def Packet.pop (p : Packet) (k : Nat) : Packet := if p.len < k then p else ⟨fun i => p.data (k + i), p.len - k⟩

structure Holds (s : Net) (b : Nat) (p : Packet) : Prop where
  view : s.view b = p.data
  dataLen : (s.bufs b).dataLen = p.len

theorem Holds.content {p : Packet} (h : s.Holds b p) : s.content b = bytes p.data p.len := by
  rw [Net.content, h.view, h.dataLen]

theorem append_full (h : (s.bufs b).left < bs.length) : (s.append b bs).2 = s := by
  unfold append
  rw [if_pos h]

section

variable (h : bs.length ≤ (s.bufs b).left)
include h

theorem append_bufs : (s.append b bs).2.bufs b =
    ⟨(s.bufs b).dataLen + bs.length, (s.bufs b).data, (s.bufs b).ext, (s.bufs b).left - bs.length⟩ := by
  unfold append
  rw [if_neg (Nat.not_lt.mpr h)]
  exact setBuf_self _ _ _

theorem append_area : (s.append b bs).2.area b = write (s.area b) ((s.bufs b).data + (s.bufs b).dataLen) bs := by
  unfold append
  rw [if_neg (Nat.not_lt.mpr h), area_setBuf (by rw [setArea_bufs]), area_setArea]

theorem append_view : (s.append b bs).2.view b = write (s.view b) (s.bufs b).dataLen bs := by
  funext i
  unfold view
  rw [append_area h, append_bufs h]
  unfold write
  dsimp only
  by_cases hi : (s.bufs b).dataLen ≤ i ∧ i < (s.bufs b).dataLen + bs.length
  · rw [if_pos hi, if_pos (by omega)]
    congr 1
    omega
  · rw [if_neg hi, if_neg (by omega)]

theorem append_content : (s.append b bs).2.content b = s.content b ++ bs := by
  unfold content
  rw [append_view h, append_bufs h]
  apply List.ext_getElem
  · rw [length_bytes, List.length_append, length_bytes]
  · intro i hi hi'
    rw [getElem_bytes]
    rw [List.length_append, length_bytes] at hi'
    by_cases hlt : i < (s.bufs b).dataLen
    · rw [List.getElem_append_left (by rw [length_bytes]; exact hlt), getElem_bytes, write_of_lt hlt]
    · obtain ⟨j, rfl⟩ := Nat.exists_eq_add_of_le (Nat.le_of_not_lt hlt)
      rw [write_add (by omega), List.getElem_append_right (by rw [length_bytes]; omega)]
      simp only [length_bytes, Nat.add_sub_cancel_left]

end

theorem append_of_apart (bs : List Byte) (h : Apart s b c) :
    (s.append b bs).2.bufs c = s.bufs c ∧ (s.append b bs).2.view c = s.view c := by
  by_cases hl : (s.bufs b).left < bs.length
  · rw [append_full hl]
    exact ⟨rfl, rfl⟩
  · have hb : (s.append b bs).2.bufs c = s.bufs c := by
      unfold append
      rw [if_neg hl, setBuf_of_ne h.ne.symm, setArea_bufs]
    refine ⟨hb, ?_⟩
    funext i
    unfold view
    rw [hb]
    unfold append
    rw [if_neg hl, area_setBuf (by rw [setArea_bufs]), area_setArea_of_apart h]

theorem Holds.popFront {p : Packet} (h : s.Holds b p) (k : Nat) : (s.popFront b k).2.Holds b (p.pop k) := by
  unfold Net.popFront Packet.pop
  dsimp only
  rw [h.dataLen]
  by_cases hk : p.len < k
  · rw [if_pos hk, if_pos hk]
    exact h
  · rw [if_neg hk, if_neg hk]
    have harea := area_setBuf (s := s) (b := b)
      (x := ⟨p.len - k, (s.bufs b).data + k, (s.bufs b).ext, (s.bufs b).left⟩) rfl b
    refine ⟨?_, ?_⟩
    · funext i
      rw [← h.view]
      unfold Net.view
      rw [harea, setBuf_self]
      dsimp only
      congr 1
      omega
    · dsimp only
      rw [setBuf_self]

theorem popFront_content {k : Nat} (h : k ≤ (s.bufs b).dataLen) :
    (s.popFront b k).2.content b = (s.content b).drop k := by
  have hholds : s.Holds b ⟨s.view b, (s.bufs b).dataLen⟩ := ⟨rfl, rfl⟩
  rw [(hholds.popFront k).content, Packet.pop, if_neg (Nat.not_lt.mpr h)]
  unfold content
  apply List.ext_getElem
  · rw [length_bytes, List.length_drop, length_bytes]
  · intro i hi hi'
    rw [getElem_bytes, List.getElem_drop, getElem_bytes]

end

end Net

end BabyOS
