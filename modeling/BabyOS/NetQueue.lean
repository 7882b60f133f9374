import BabyOS.NetPool

open List

namespace BabyOS

inductive BufAct where
  | append (bs : List Byte)
  | appendZero (len : Nat)
  | popFront (len : Nat)

/-- Bytes to be read in order, and how many more can be written. -/
structure ByteQueue where
  bytes : List Byte
  left : Nat

namespace ByteQueue

variable (q : ByteQueue)

def push (bs : List Byte) : Option ByteQueue :=
  if q.left < bs.length then none else some ⟨q.bytes ++ bs, q.left - bs.length⟩

/-- What an operation makes of the queue, when it fits. -/
def exec : BufAct → Option ByteQueue
  | .append bs => q.push bs
  | .appendZero len => q.push (replicate len 0)
  | .popFront len => if q.bytes.length < len then none else some ⟨q.bytes.drop len, q.left⟩

end ByteQueue

namespace Net

def exec (b : Nat) (s : Net) : BufAct → Int × Net
  | .append bs => s.append b bs
  | .appendZero len => s.appendZero b len
  | .popFront len => s.popFront b len

/-- The buffer is the queue, and no byte from the capacity on has changed since `s`. -/
structure Queued (cap b : Nat) (s t : Net) (q : ByteQueue) : Prop where
  content : t.content b = q.bytes
  left : (t.bufs b).left = q.left
  space : (t.bufs b).data + (t.bufs b).dataLen + (t.bufs b).left = cap
  beyond : ∀ i, cap ≤ i → t.area b i = s.area b i

variable {s t : Net} {cap b : Nat} {q : ByteQueue}

theorem Queued.dataLen (h : Queued cap b s t q) : (t.bufs b).dataLen = q.bytes.length := by
  rw [← h.content, Net.content, length_bytes]

/-- What the result of an operation says of the queue. -/
def Fits (cap b : Nat) (s t : Net) (r : Int × Net) : Option ByteQueue → Prop
  | none => r.1 < 0 ∧ r.2 = t
  | some q' => r.1 = 0 ∧ Queued cap b s r.2 q'

theorem Queued.append (h : Queued cap b s t q) (bs : List Byte) : Fits cap b s t (t.append b bs) (q.push bs) := by
  unfold ByteQueue.push
  rw [← h.left]
  by_cases hl : (t.bufs b).left < bs.length
  · rw [if_pos hl]
    refine ⟨?_, append_full hl⟩
    rw [Net.append, if_pos hl]
    exact Int.negSucc_lt_zero 104
  · rw [if_neg hl]
    have hle := Nat.le_of_not_lt hl
    have hspace := h.space
    refine ⟨?_, ?_, ?_, ?_, fun i hi => ?_⟩
    · rw [Net.append, if_neg hl]
    · rw [append_content hle, h.content]
    · rw [append_bufs hle]
    · rw [append_bufs hle]
      dsimp only
      omega
    · rw [append_area hle, write_of_ge (by omega), h.beyond i hi]

theorem Queued.popFront (h : Queued cap b s t q) (len : Nat) :
    Fits cap b s t (t.popFront b len) (q.exec (.popFront len)) := by
  unfold Net.popFront ByteQueue.exec
  rw [← h.dataLen]
  by_cases hl : (t.bufs b).dataLen < len
  · dsimp only
    rw [if_pos hl, if_pos hl]
    exact ⟨Int.negSucc_lt_zero 21, rfl⟩
  · dsimp only
    rw [if_neg hl, if_neg hl]
    have hspace := h.space
    refine ⟨rfl, ?_, ?_, ?_, fun i hi => ?_⟩
    · rw [← h.content, ← popFront_content (Nat.le_of_not_lt hl), Net.popFront, if_neg hl]
    · rw [setBuf_self, h.left]
    · rw [setBuf_self]
      dsimp only
      omega
    · rw [area_setBuf (by rfl), h.beyond i hi]

theorem Queued.exec (h : Queued cap b s t q) (a : BufAct) : Fits cap b s t (t.exec b a) (q.exec a) := by
  cases a with
  | append bs => exact h.append bs
  | appendZero len => exact h.append _
  | popFront len => exact h.popFront len

theorem Queued.run (h : Queued cap b s t q) (as : List BufAct) :
    Queued cap b s (as.foldl (fun u a => (u.exec b a).2) t) (as.foldl (fun p a => (p.exec a).getD p) q) := by
  induction as generalizing t q with
  | nil => exact h
  | cons a as ih =>
    apply ih
    have hexec := h.exec a
    dsimp only
    cases hq : q.exec a with
    | none =>
      rw [hq] at hexec
      rw [hexec.2]
      exact h
    | some q' =>
      rw [hq] at hexec
      exact hexec.2

/-- A buffer after `init` and any operations is a bounded queue, and the next operation does what the queue does. -/
theorem net_buf_queue (s : Net) (b : Nat) (ext : Option Nat) (as : List BufAct) :
    let cap := if ext = none then 240 else 2048
    let s := s.setBuf b (NetBuf.init ext)
    let t := as.foldl (fun u a => (u.exec b a).2) s
    let q := as.foldl (fun p a => (p.exec a).getD p) ⟨[], cap⟩
    Queued cap b s t q ∧ ∀ a, Fits cap b s t (t.exec b a) (q.exec a) := by
  intro cap s t q
  have hinit : Queued cap b s s ⟨[], cap⟩ := by
    have hb : s.bufs b = NetBuf.init ext := setBuf_self _ _ _
    cases ext with
    | none | some e =>
      refine ⟨?_, ?_, ?_, fun i hi => rfl⟩
      · rw [content, hb]
        rfl
      · rw [hb]
        rfl
      · rw [hb]
        rfl
  exact ⟨hinit.run as, (hinit.run as).exec⟩

end Net

end BabyOS
