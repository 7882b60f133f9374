import BabyOS.Runs
import BabyOS.SockRing

namespace BabyOS

namespace SockRingBuffer

/-- `get_char`: the byte it returns, with `none` for the result -1; there is no result while it would sleep. -/
def getChar (r : SockRingBuffer) (connected : Bool) : Option (Option Byte × SockRingBuffer) :=
  if r.waitItem = 0 then none
  else if connected then some (some (r.buffer r.readIndex), r.downItem.takeByte)
  else some (none, { r.downItem with waitSpace := r.waitSpace + 1 })

def putChar (r : SockRingBuffer) (connected : Bool) (ch : Byte) : Option (Bool × SockRingBuffer) :=
  if r.waitSpace = 0 then none
  else if connected then some (true, r.putByte ch)
  else some (false, { r with waitSpace := r.waitSpace - 1, waitItem := r.waitItem + 1 })

def start (length : Nat) (mem : Nat → Byte) : SockRingBuffer := ⟨mem, length, length, 0, 0, length, 0⟩

end SockRingBuffer

/-- The ring of a connected socket, with all bytes that were put in and all that were handed out. -/
structure RingSys where
  ring : SockRingBuffer
  put : List Byte
  got : List Byte

inductive RingCall where
  | putChar (ch : Byte)
  | getChar
  | putData (data : List Byte)
  | getData (max : Nat)

namespace RingSys

/-- A call that completes; `get_data` is called for at least one byte. -/
def step (s : RingSys) : RingCall → Option RingSys
  | .putChar ch => (s.ring.putChar true ch).map fun x => { s with ring := x.2, put := s.put ++ [ch] }
  | .getChar => (s.ring.getChar true).map fun x => { s with ring := x.2, got := s.got ++ x.1.toList }
  | .putData data => (s.ring.putData true data).map fun x =>
    { s with ring := x.2, put := if x.1 = -1 then s.put else s.put ++ data }
  | .getData max =>
    if max = 0 then none
    else (s.ring.getData true max).map fun x => { s with ring := x.2, got := s.got ++ x.1.getD [] }

def unread (s : RingSys) : Nat := s.ring.length - s.ring.left

def Careful (s : RingSys) : RingCall → Prop
  | .getData max => s.unread ≤ max
  | _ => True

/-- What was handed out is what was put in first, and the semaphores count the unread bytes and the free ones. -/
structure Accounts (s : RingSys) : Prop where
  pref : s.got <+: s.put
  unread : s.unread = s.put.length - s.got.length
  waitItem : s.ring.waitItem = s.unread
  waitSpace : s.ring.waitSpace = s.ring.left

/-- The ring as `get_data` finds it, and the ring after a `down` for a byte that has not been taken yet. -/
structure Inv (s : RingSys) (paid : Nat) : Prop where
  wf : s.ring.Wf
  item : s.ring.waitItem + paid = s.ring.length - s.ring.left
  space : s.ring.waitSpace = s.ring.left
  log : s.put = s.got ++ s.ring.items

section

variable {s t : RingSys} {ch : Byte} {max : Nat} {c : RingCall}

theorem length_items (r : SockRingBuffer) : r.items.length = r.length - r.left := by
  rw [SockRingBuffer.items, List.length_map, List.length_range]

theorem inv_start {length : Nat} (h : 0 < length) (mem : Nat → Byte) : Inv ⟨.start length mem, [], []⟩ 0 := by
  refine ⟨⟨le_refl _, h, Nat.zero_le _, ?_⟩, (Nat.sub_self length).symm, rfl, ?_⟩
  · change 0 = (0 + (length - length)) % length
    rw [Nat.sub_self, Nat.zero_mod]
  · have hlen := length_items (.start length mem)
    change _ = length - length at hlen
    rw [Nat.sub_self] at hlen
    exact (List.length_eq_zero_iff.mp hlen).symm

theorem Inv.accounts (h : s.Inv 0) : s.Accounts := by
  refine ⟨⟨_, h.log.symm⟩, ?_, h.item, h.space⟩
  rw [h.log, List.length_append, length_items, RingSys.unread]
  omega

theorem Inv.putBytes {data : List Byte} (h : s.Inv 0) (hd : data.length ≤ s.ring.left) :
    Inv { s with ring := data.foldl SockRingBuffer.putByte s.ring, put := s.put ++ data } 0 := by
  induction data generalizing s with
  | nil => exact ⟨h.wf, h.item, h.space, by rw [List.append_nil]; exact h.log⟩
  | cons b bs ih =>
    rw [List.length_cons] at hd
    have hle := h.wf.le
    have hitem := h.item
    have hspace := h.space
    have hone : Inv { s with ring := s.ring.putByte b, put := s.put ++ [b] } 0 := by
      refine ⟨h.wf.putByte (by omega) b, ?_, ?_, ?_⟩
      · change s.ring.waitItem + 1 + 0 = s.ring.length - (s.ring.left - 1)
        omega
      · change s.ring.waitSpace - 1 = s.ring.left - 1
        rw [hspace]
      · dsimp only
        rw [SockRingBuffer.items_putByte h.wf (by omega), h.log, List.append_assoc]
    have hbs : bs.length ≤ (s.ring.putByte b).left := by
      change bs.length ≤ s.ring.left - 1
      omega
    have hrest := ih hone hbs
    rw [List.append_assoc] at hrest
    exact hrest

theorem Inv.takeByte (h : s.Inv 1) : Inv { s with
    ring := s.ring.takeByte, got := s.got ++ [s.ring.buffer s.ring.readIndex] } 0 := by
  have hitem := h.item
  have hlt : s.ring.left < s.ring.length := by omega
  refine ⟨h.wf.takeByte (by omega), ?_, congrArg (· + 1) h.space, ?_⟩
  · change s.ring.waitItem + 0 = s.ring.length - (s.ring.left + 1)
    omega
  · dsimp only
    rw [h.log, SockRingBuffer.items_takeByte h.wf hlt, List.append_assoc]
    rfl

theorem Inv.downItem (h : s.Inv 0) (hu : s.ring.waitItem ≠ 0) : Inv { s with ring := s.ring.downItem } 1 := by
  have hitem := h.item
  refine ⟨h.wf.downItem, ?_, h.space, h.log⟩
  change s.ring.waitItem - 1 + 1 = s.ring.length - s.ring.left
  omega

theorem Inv.getLoop (h : s.Inv 1) (max : Nat) : ∃ bs r, SockRingBuffer.getLoop max s.ring = some (bs, r) ∧
    Inv ⟨r, s.put, s.got ++ bs⟩ (if s.unread ≤ max then 0 else 1) := by
  induction max generalizing s with
  | zero =>
    have hitem := h.item
    refine ⟨[], s.ring, rfl, ?_⟩
    rw [if_neg (by rw [RingSys.unread]; omega), List.append_nil]
    exact h
  | succ max ih =>
    have htake := h.takeByte
    have hitem := h.item
    rw [SockRingBuffer.getLoop]
    by_cases hall : s.ring.takeByte.left = s.ring.takeByte.length
    · rw [if_pos hall]
      refine ⟨_, _, rfl, ?_⟩
      change s.ring.left + 1 = s.ring.length at hall
      rw [if_pos (by rw [RingSys.unread]; omega)]
      exact htake
    · have hmore : s.ring.takeByte.waitItem ≠ 0 := by
        change s.ring.waitItem ≠ 0
        change s.ring.left + 1 ≠ s.ring.length at hall
        omega
      obtain ⟨bs, r, hr, hinv⟩ := ih (htake.downItem hmore)
      rw [if_neg hall, if_neg hmore]
      refine ⟨_, r, by rw [hr]; rfl, ?_⟩
      have hunread : (s.ring.length - (s.ring.left + 1) ≤ max) ↔ s.unread ≤ max + 1 := by
        rw [RingSys.unread]
        omega
      change Inv _ (if s.ring.length - (s.ring.left + 1) ≤ max then 0 else 1) at hinv
      rw [if_congr hunread rfl rfl, List.append_assoc] at hinv
      exact hinv

theorem Inv.step_putData (h : s.Inv 0) (data : List Byte) :
    ∃ t, s.step (.putData data) = some t ∧ t.Inv 0 := by
  have hspace := h.space
  rw [step, SockRingBuffer.putData]
  by_cases hl : s.ring.left < data.length
  · rw [if_pos hl]
    exact ⟨_, rfl, h⟩
  · rw [if_neg hl, if_pos rfl, SockRingBuffer.putLoop_eq (by omega)]
    refine ⟨_, rfl, ?_⟩
    dsimp only
    rw [if_neg (by omega)]
    exact h.putBytes (by omega)

theorem Inv.step_putChar (h : s.Inv 0) (hs : s.step (.putChar ch) = some t) : t.Inv 0 := by
  obtain ⟨x, hx, rfl⟩ := Option.map_eq_some_iff.mp hs
  unfold SockRingBuffer.putChar at hx
  split at hx
  · cases hx
  · next hw =>
    cases hx
    have hspace := h.space
    have hone : [ch].length ≤ s.ring.left := by
      rw [List.length_singleton]
      omega
    exact h.putBytes hone

theorem Inv.step_getChar (h : s.Inv 0) (hu : 0 < s.unread) : ∃ t, s.step .getChar = some t ∧ t.Inv 0 := by
  have hne : s.ring.waitItem ≠ 0 := by
    have hitem := h.item
    rw [RingSys.unread] at hu
    omega
  rw [step, SockRingBuffer.getChar, if_neg hne, if_pos rfl]
  exact ⟨_, rfl, (h.downItem hne).takeByte⟩

theorem Inv.step_getData (h : s.Inv 0) (hu : 0 < s.unread) (hmax : 1 ≤ max) :
    ∃ t, s.step (.getData max) = some t ∧ t.Inv (if s.unread ≤ max then 0 else 1) := by
  have hne : s.ring.waitItem ≠ 0 := by
    have hitem := h.item
    rw [RingSys.unread] at hu
    omega
  obtain ⟨bs, r, hr, hinv⟩ := (h.downItem hne).getLoop max
  have hget : s.ring.getData true max = some (some bs, r) := by
    rw [SockRingBuffer.getData, if_neg hne, if_pos rfl, hr]
    rfl
  rw [step, if_neg (by omega), hget]
  exact ⟨_, rfl, hinv⟩

theorem Inv.unread_pos (h : s.Inv 0) (max : Nat) (hc : c = .getChar ∨ c = .getData max) (hs : s.step c = some t) :
    0 < s.unread := by
  by_contra hu
  have hzero : s.ring.waitItem = 0 := by
    have hitem := h.item
    rw [RingSys.unread] at hu
    omega
  rcases hc with rfl | rfl
  · rw [step, SockRingBuffer.getChar, if_pos hzero] at hs
    cases hs
  · rw [step, SockRingBuffer.getData, if_pos hzero] at hs
    split at hs <;> cases hs

theorem Inv.not_accounts (h : s.Inv 1) : ¬s.Accounts := by
  intro ha
  have hitem := h.item
  have heq := ha.waitItem
  rw [RingSys.unread] at heq
  omega

theorem Inv.step (h : s.Inv 0) (hs : s.step c = some t) : (s.Careful c ∧ t.Inv 0) ∨ (¬s.Careful c ∧ t.Inv 1) := by
  cases c with
  | putChar ch => exact Or.inl ⟨trivial, h.step_putChar hs⟩
  | getChar =>
    obtain ⟨u, hu, hinv⟩ := h.step_getChar (h.unread_pos 1 (Or.inl rfl) hs)
    cases hu.symm.trans hs
    exact Or.inl ⟨trivial, hinv⟩
  | putData data =>
    obtain ⟨u, hu, hinv⟩ := h.step_putData data
    cases hu.symm.trans hs
    exact Or.inl ⟨trivial, hinv⟩
  | getData max =>
    have hmax : 1 ≤ max := by
      by_contra hzero
      rw [RingSys.step, if_pos (by omega)] at hs
      cases hs
    obtain ⟨u, hu, hinv⟩ := h.step_getData (h.unread_pos max (Or.inr rfl) hs) hmax
    cases hu.symm.trans hs
    by_cases hc : s.unread ≤ max
    · rw [if_pos hc] at hinv
      exact Or.inl ⟨hc, hinv⟩
    · rw [if_neg hc] at hinv
      exact Or.inr ⟨hc, hinv⟩

/-- After calls in which `get_data` asked for no fewer bytes than there were, no call sleeps on bytes that are
there, `put_data` never sleeps, and the next call keeps it so if and only if it is such a call, too. -/
theorem ring_accounts_iff {length : Nat} {mem : Nat → Byte} {cs : List RingCall} (hl : 0 < length)
    (h : run RingSys.step ⟨.start length mem, [], []⟩ cs = some s)
    (hc : Along RingSys.step Careful ⟨.start length mem, [], []⟩ cs) : s.Accounts ∧
      (0 < s.unread → (∃ t, s.step .getChar = some t) ∧ ∀ max, 1 ≤ max → ∃ t, s.step (.getData max) = some t) ∧
      (∀ data, ∃ t, s.step (.putData data) = some t) ∧ ∀ c t, s.step c = some t → (t.Accounts ↔ s.Careful c) := by
  have hinv : s.Inv 0 := by
    refine run_invariant (I := fun s => s.Inv 0) ?_ (inv_start hl mem) hc h
    intro s c t hi hcare hs
    rcases hi.step hs with ⟨-, ht⟩ | ⟨hn, -⟩
    · exact ht
    · exact absurd hcare hn
  refine ⟨hinv.accounts, fun hu => ⟨?_, fun max hmax => ?_⟩, fun data => ?_, fun c t hs => ?_⟩
  · obtain ⟨t, ht, -⟩ := hinv.step_getChar hu
    exact ⟨t, ht⟩
  · obtain ⟨t, ht, -⟩ := hinv.step_getData hu hmax
    exact ⟨t, ht⟩
  · obtain ⟨t, ht, -⟩ := hinv.step_putData data
    exact ⟨t, ht⟩
  · rcases hinv.step hs with ⟨hcare, ht⟩ | ⟨hn, ht⟩
    · exact ⟨fun _ => hcare, fun _ => ht.accounts⟩
    · exact ⟨fun ha => absurd ha ht.not_accounts, fun hcare => absurd hcare hn⟩

def readAll : List RingCall := [.putData [1, 2, 3], .getData 5]

theorem ring_accounts_iff_all : ∃ s, run RingSys.step ⟨.start 4 fun _ => 0, [], []⟩ readAll = some s ∧ s.Accounts ∧
    s.got = [1, 2, 3] ∧ ∃ t, s.step (.putChar 4) = some t ∧ t.Accounts := by
  have hc : Along RingSys.step Careful ⟨.start 4 fun _ => 0, [], []⟩ readAll :=
    along_cons trivial rfl (along_cons (show 3 ≤ 5 by decide) rfl trivial)
  obtain ⟨s, hs⟩ : ∃ s, run RingSys.step ⟨.start 4 fun _ => 0, [], []⟩ readAll = some s := ⟨_, rfl⟩
  obtain ⟨ha, -, -, hiff⟩ := ring_accounts_iff (by decide) hs hc
  obtain ⟨t, ht⟩ : ∃ t, s.step (.putChar 4) = some t := by
    cases hs
    exact ⟨_, rfl⟩
  refine ⟨s, hs, ha, ?_, t, ht, (hiff _ t ht).mpr trivial⟩
  cases hs
  rfl

/-- `get_data` for two of three bytes takes three tokens, and then a byte is there that `get_char` waits for. -/
theorem ring_drifts : ∃ s, run RingSys.step ⟨.start 4 fun _ => 0, [], []⟩ [.putData [1, 2, 3], .getData 2] = some s ∧
    s.got = [1, 2] ∧ s.unread = 1 ∧ s.ring.waitItem = 0 ∧ s.step .getChar = none ∧ s.step (.getData 1) = none ∧
      ¬s.Accounts := by
  refine ⟨_, rfl, rfl, rfl, rfl, rfl, rfl, fun ha => ?_⟩
  have hitem := ha.waitItem
  change 0 = 1 at hitem
  omega

end

end RingSys

end BabyOS
