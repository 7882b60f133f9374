import BabyOS.NetPool

namespace BabyOS

/-- What `get_not_used_port` reads of a slot of a socket table. -/
structure PortSlot where
  ref : Nat
  port : Half

namespace PortSlot

def Has (x : PortSlot) (port : Half) : Prop := 0 < x.ref ∧ x.port = port

instance hasDecidable (x : PortSlot) (port : Half) : Decidable (x.Has port) := inferInstanceAs (Decidable (_ ∧ _))

/-- The outer loop over the ports left, from the inner cursor on: the `m_port` that the socket gets, and where
the slots read end. Nothing sets the cursor back. -/
def search (enc : Half → Half) (slots : Nat → PortSlot) : Nat → Half → Nat → Option Half × Nat
  | 0, _, s => (none, s + 1)
  | n + 1, port, s =>
    match (List.range' s 128).find? fun k => (slots k).Has (enc port) with
    | none => (some (enc port), s + 128)
    | some k => search enc slots n (port + 1) k

def getNotUsedPort (enc : Half → Half) (slots : Nat → PortSlot) : Option Half × Nat :=
  search enc slots (61438 + 1) 4096#16 0

/-- `socket_dgram_t::get_not_used_port`; `m_port` is in host order. -/
def dgramGetNotUsedPort : (Nat → PortSlot) → Option Half × Nat := getNotUsedPort id

/-- `socket_stream_t::get_not_used_port`; `m_port` is in network order. -/
def streamGetNotUsedPort : (Nat → PortSlot) → Option Half × Nat := getNotUsedPort htons

def memory (t : Fin 128 → PortSlot) (behind : Nat → PortSlot) (s : Nat) : PortSlot :=
  if h : s < 128 then t ⟨s, h⟩ else behind s

def Taken (t : Fin 128 → PortSlot) (port : Half) : Prop := ∃ j, (t j).Has port

def TakenByOther (t : Fin 128 → PortSlot) (i : Fin 128) (port : Half) : Prop := ∃ j, j ≠ i ∧ (t j).Has port

/-- Only the table was read, and the socket gets the smallest port that no other live socket has. -/
structure Gives (enc : Half → Half) (t : Fin 128 → PortSlot) (i : Fin 128) (x : Option Half × Nat) : Prop where
  inside : x.2 ≤ 128
  port : ∃ p, x.1 = some (enc p) ∧ 4096#16 ≤ p ∧ p < 65535#16 ∧ ¬TakenByOther t i (enc p) ∧
    ∀ q, 4096#16 ≤ q → q < p → TakenByOther t i (enc q)

/-- The first port is free, or slot 0 has it, another socket than the one that asks has it, and the second is free. -/
def Early (enc : Half → Half) (t : Fin 128 → PortSlot) (i : Fin 128) : Prop :=
  ¬Taken t (enc 4096#16) ∨
    (t ⟨0, by decide⟩).Has (enc 4096#16) ∧ TakenByOther t i (enc 4096#16) ∧ ¬Taken t (enc 4097#16)

section

variable {enc : Half → Half} {slots behind : Nat → PortSlot} {t : Fin 128 → PortSlot} {i : Fin 128} {n s : Nat}
  {port : Half}

theorem search_free (h : (List.range' s 128).find? (fun k => (slots k).Has (enc port)) = none) :
    search enc slots (n + 1) port s = (some (enc port), s + 128) := by
  rw [search, h]

theorem search_taken {k : Nat} (h : (List.range' s 128).find? (fun k => (slots k).Has (enc port)) = some k) :
    search enc slots (n + 1) port s = search enc slots n (port + 1) k := by
  rw [search, h]

/-- The last scan reads as many slots as the table has, wherever it starts. -/
theorem search_end {e : Nat} {p : Half} (h : search enc slots n port s = (some p, e)) : s + 128 ≤ e := by
  induction n generalizing port s with
  | zero => cases h
  | succ n ih =>
    cases hf : (List.range' s 128).find? fun k => (slots k).Has (enc port) with
    | none =>
      rw [search_free hf] at h
      exact (Prod.mk.inj h).2.le
    | some k =>
      rw [search_taken hf] at h
      have hk := (List.mem_range'_1.mp (List.mem_of_find?_eq_some hf)).1
      have := ih h
      omega

theorem find_eq_none_iff : (List.range' 0 128).find? (fun k => (memory t behind k).Has port) = none ↔ ¬Taken t port := by
  rw [List.find?_eq_none]
  constructor
  · rintro h ⟨j, hj⟩
    refine h j (List.mem_range'_1.mpr ⟨Nat.zero_le _, by omega⟩) (decide_eq_true ?_)
    rwa [memory, dif_pos j.isLt]
  · intro h k hk hp
    have hlt : k < 128 := by simpa using hk
    rw [memory, dif_pos hlt] at hp
    exact h ⟨_, of_decide_eq_true hp⟩

theorem TakenByOther.taken (h : TakenByOther t i port) : Taken t port := by
  obtain ⟨j, -, hj⟩ := h
  exact ⟨j, hj⟩

theorem Gives.reaches (h : Gives enc t i (search enc slots n port s)) : s = 0 := by
  obtain ⟨p, hp, -⟩ := h.port
  have hend : s + 128 ≤ (search enc slots n port s).2 := search_end (Prod.ext hp rfl)
  have hin : (search enc slots n port s).2 ≤ 128 := h.inside
  omega

theorem gives_second_iff (henc : Function.Injective enc) (h : ¬Taken t (enc 4097#16)) :
    Gives enc t i (some (enc 4097#16), 0 + 128) ↔ TakenByOther t i (enc 4096#16) := by
  constructor
  · intro hg
    obtain ⟨p, hp, -, -, -, hsmall⟩ := hg.port
    obtain rfl := henc (Option.some.inj hp)
    exact hsmall 4096#16 (by decide) (by decide)
  · intro ho
    refine ⟨le_rfl, _, rfl, by decide, by decide, fun ho => h ho.taken, fun q h1 h2 => ?_⟩
    obtain rfl : q = 4096#16 := by bv_omega
    exact ho

theorem gives_iff (henc : Function.Injective enc) :
    Gives enc t i (getNotUsedPort enc (memory t behind)) ↔ Early enc t i := by
  unfold getNotUsedPort Early
  -- once the cursor has left slot 0, the scan that succeeds runs over the end of the table
  by_cases h0 : (t ⟨0, by decide⟩).Has (enc 4096#16)
  · rw [search_taken (show List.find? _ (0 :: List.range' 1 127) = some 0 from
      List.find?_cons_of_pos (decide_eq_true h0)), show 4096#16 + 1 = 4097#16 from rfl, show 61438 = 61437 + 1 from rfl]
    have h1 : Taken t (enc 4096#16) := ⟨_, h0⟩
    cases hf : (List.range' 0 128).find? fun k => (memory t behind k).Has (enc 4097#16) with
    | none =>
      have h2 := find_eq_none_iff.mp hf
      rw [search_free hf, gives_second_iff henc h2]
      exact ⟨fun ho => Or.inr ⟨h0, ho, h2⟩, fun h => (h.resolve_left (not_not.mpr h1)).2.1⟩
    | some k =>
      have h2 : Taken t (enc 4097#16) := not_not.mp (mt find_eq_none_iff.mpr (by rw [hf]; exact Option.some_ne_none k))
      rw [search_taken hf]
      refine iff_of_false (fun hg => ?_) fun h => (h.resolve_left (not_not.mpr h1)).2.2 h2
      obtain rfl := hg.reaches
      have hp : (memory t behind 0).Has (enc 4097#16) := by simpa using List.find?_some hf
      exact absurd (henc (h0.2.symm.trans hp.2)) (by decide)
  · cases hf : (List.range' 0 128).find? fun k => (memory t behind k).Has (enc 4096#16) with
    | none =>
      have h1 := find_eq_none_iff.mp hf
      rw [search_free hf]
      refine iff_of_true ⟨le_rfl, _, rfl, by decide, by decide, fun ho => h1 ho.taken, fun q h2 h3 => ?_⟩ (Or.inl h1)
      exfalso
      bv_omega
    | some k =>
      have h1 : Taken t (enc 4096#16) := not_not.mp (mt find_eq_none_iff.mpr (by rw [hf]; exact Option.some_ne_none k))
      rw [search_taken hf]
      refine iff_of_false (fun hg => ?_) fun h => h0 (h.resolve_left (not_not.mpr h1)).1
      obtain rfl := hg.reaches
      exact h0 (show (memory t behind 0).Has (enc 4096#16) by simpa using List.find?_some hf)

end

end PortSlot

namespace Sockets

def dgramSlots (k : Sockets) (i : Fin 128) : PortSlot := ⟨(k.dgrams i).ref, (k.dgrams i).addr.port⟩

def streamSlots (k : Sockets) (i : Fin 128) : PortSlot := ⟨(k.streams i).ref, (k.streams i).addr.port⟩

open PortSlot

/-- The port search is right only while it has to try two ports at most. -/
theorem ephemeral_ports_iff (k : Sockets) (i : Fin 128) (behind : Nat → PortSlot) :
    (Gives id k.dgramSlots i (dgramGetNotUsedPort (memory k.dgramSlots behind)) ↔ Early id k.dgramSlots i) ∧
    (Gives htons k.streamSlots i (streamGetNotUsedPort (memory k.streamSlots behind)) ↔
      Early htons k.streamSlots i) :=
  ⟨gives_iff Function.injective_id, gives_iff (Function.LeftInverse.injective ntohs_htons)⟩

def secondSlot (j : Fin 128) : PortSlot := if j.val = 1 then ⟨1, 4096#16⟩ else ⟨0, 0#16⟩

theorem ephemeral_port_reads_behind :
    dgramGetNotUsedPort (memory secondSlot fun _ => ⟨0, 0#16⟩) = (some 4097#16, 129) ∧
    dgramGetNotUsedPort (memory secondSlot fun _ => ⟨1, 4097#16⟩) = (some 4098#16, 256) := by
  decide +kernel

end Sockets

end BabyOS
