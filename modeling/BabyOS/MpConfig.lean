import BabyOS.FsDisk

open List

namespace BabyOS

namespace MpConfig

/-- What `parse_config_entries` passes to `add_processor`. -/
structure Processor where
  localApicId : Byte
  isBsp : Bool
  deriving DecidableEq

def maxCpuNum : Nat := 8

def addProcessor (cpus : List Processor) (e : Processor) : List Processor :=
  if cpus.length < maxCpuNum then cpus ++ [e] else cpus

/-- The loop of `parse_config_entries` to the end of the table; `none` when it does not end or reads behind the
table. An entry of an unknown type is not stepped over. -/
def parseConfigEntries : Nat → List Processor → List Byte → Option (List Processor)
  | 0, _, _ => none
  | _ + 1, cpus, [] => some cpus
  | fuel + 1, cpus, type :: config =>
    if type = 0 then
      match config with
      | id :: _ :: flags :: _ =>
        parseConfigEntries fuel (addProcessor cpus ⟨id, flags &&& 2 ≠ 0⟩) ((type :: config).drop 20)
      | _ => none
    else if type ≤ 4 then parseConfigEntries fuel cpus ((type :: config).drop 8)
    else parseConfigEntries fuel cpus (type :: config)

def tableLength (header : Nat → Byte) : Nat := (getHalf header 4).toNat

/-- `find_config_table` takes the table: its signature is `PCMP`, and its bytes add up to 0. -/
def Accepted (header : Nat → Byte) : Prop :=
  getWord header 0 = 0x504d4350 ∧ ((List.range (tableLength header)).map header).sum = 0

def config (header : Nat → Byte) : List Byte := ((List.range (tableLength header)).map header).drop 44

def entrySize (type : Byte) : Option Nat := if type = 0 then some 20 else if type ≤ 4 then some 8 else none

/-- The bytes are these entries one behind the other; the end of the table may cut the last one off. -/
inductive Entries : List Byte → List (List Byte) → Prop
  | nil : Entries [] []
  | cons {type n bytes es} (h : entrySize type = some n) (hes : Entries ((type :: bytes).drop n) es) :
    Entries (type :: bytes) ((type :: bytes).take n :: es)

def isProcessor (e : List Byte) : Bool := e.head? = some 0

def processor : List Byte → Option Processor
  | _ :: id :: _ :: flags :: _ => some ⟨id, flags &&& 2 ≠ 0⟩
  | _ => none

/-- The parser returns and has read the table only, and registered one processor for each processor entry. -/
def Registers (header : Nat → Byte) : Prop :=
  ∃ fuel cpus es, parseConfigEntries fuel [] (config header) = some cpus ∧ Entries (config header) es ∧
    cpus.map some = (es.filter isProcessor).map processor

variable {fuel : Nat} {cpus out : List Processor} {bytes : List Byte} {es es' : List (List Byte)}

theorem Entries.unique (h : Entries bytes es) (h' : Entries bytes es') : es = es' := by
  induction h generalizing es' with
  | nil =>
    cases h'
    rfl
  | cons hn _ ih =>
    cases h' with
    | cons hn' hes' =>
      cases hn.symm.trans hn'
      rw [ih hes']

theorem foldl_addProcessor (ps : List Processor) (h : cpus.length ≤ maxCpuNum) :
    ps.foldl addProcessor cpus = (cpus ++ ps).take maxCpuNum := by
  induction ps generalizing cpus with
  | nil => rw [append_nil, take_of_length_le h, foldl_nil]
  | cons p ps ih =>
    rw [foldl_cons, addProcessor]
    split
    next hlt =>
      rw [ih (by rw [length_append]; exact hlt), append_assoc, singleton_append]
    next hge =>
      rw [ih h, take_append_of_le_length (by omega), take_append_of_le_length (by omega)]

theorem entries_of_parse (h : parseConfigEntries fuel cpus bytes = some out) : ∃ es, Entries bytes es ∧
    ∃ ps : List Processor, ps.map some = (es.filter isProcessor).map processor ∧ out = ps.foldl addProcessor cpus := by
  induction fuel generalizing cpus bytes with
  | zero => cases h
  | succ fuel ih =>
    cases bytes with
    | nil =>
      cases h
      exact ⟨[], .nil, [], rfl, rfl⟩
    | cons type bytes =>
      unfold parseConfigEntries at h
      split_ifs at h with h0 h4
      · subst h0
        split at h
        next id _ flags rest =>
          obtain ⟨es, hes, ps, hps, hout⟩ := ih h
          refine ⟨_, .cons rfl hes, ⟨id, flags &&& 2 ≠ 0⟩ :: ps, ?_, hout⟩
          rw [filter_cons_of_pos (by simp [isProcessor]), map_cons, map_cons, hps]
          rfl
        next => cases h
      · obtain ⟨es, hes, ps, hps, hout⟩ := ih h
        refine ⟨_, .cons (show entrySize type = some 8 by rw [entrySize, if_neg h0, if_pos h4]) hes, ps, ?_, hout⟩
        rwa [filter_cons_of_neg (by simpa [isProcessor] using h0)]
      · exact ih h

theorem parse_of_entries (cpus : List Processor) (h : Entries bytes es) (hread : ∀ e ∈ es, isProcessor e → 4 ≤ e.length) :
    ∃ fuel, ∃ ps : List Processor, ps.map some = (es.filter isProcessor).map processor ∧
      parseConfigEntries fuel cpus bytes = some (ps.foldl addProcessor cpus) := by
  induction h generalizing cpus with
  | nil => exact ⟨1, [], rfl, rfl⟩
  | @cons type n bytes es hn _ ih =>
    have hrest : ∀ e ∈ es, isProcessor e → 4 ≤ e.length := fun e he => hread e (mem_cons_of_mem _ he)
    unfold entrySize at hn
    split_ifs at hn with h0 h4
    · cases hn
      subst h0
      have hlen := hread _ (mem_cons_self ..) rfl
      obtain ⟨id, version, flags, rest, rfl⟩ : ∃ id version flags rest, bytes = id :: version :: flags :: rest := by
        match bytes, hlen with
        | id :: version :: flags :: rest, _ => exact ⟨id, version, flags, rest, rfl⟩
      obtain ⟨fuel, ps, hps, hparse⟩ := ih (addProcessor cpus ⟨id, flags &&& 2 ≠ 0⟩) hrest
      refine ⟨fuel + 1, ⟨id, flags &&& 2 ≠ 0⟩ :: ps, ?_, hparse⟩
      rw [filter_cons_of_pos (by simp [isProcessor]), map_cons, map_cons, hps]
      rfl
    · cases hn
      obtain ⟨fuel, ps, hps, hparse⟩ := ih cpus hrest
      refine ⟨fuel + 1, ps, ?_, ?_⟩
      · rwa [filter_cons_of_neg (by simpa [isProcessor] using h0)]
      · unfold parseConfigEntries
        rwa [if_neg h0, if_pos h4]

theorem length_of_processor {e : List Byte} (h : (processor e).isSome) : 4 ≤ e.length := by
  match e, h with
  | _ :: _ :: _ :: _ :: _, _ => exact Nat.le_add_left 4 _

/-- The table has entries of the five types, a processor entry that is cut off still has its flags, and there are
at most `MAX_CPU_NUM`. -/
theorem mp_table_registers_iff (header : Nat → Byte) : Registers header ↔ ∃ es, Entries (config header) es ∧
    (∀ e ∈ es, isProcessor e → 4 ≤ e.length) ∧ (es.filter isProcessor).length ≤ maxCpuNum := by
  constructor
  · rintro ⟨fuel, cpus, es, hparse, hes, hcpus⟩
    obtain ⟨es', hes', ps, hps, rfl⟩ := entries_of_parse hparse
    obtain rfl := hes.unique hes'
    refine ⟨es, hes, fun e he hp => length_of_processor ?_, ?_⟩
    · have hmem : processor e ∈ (es.filter isProcessor).map processor :=
        mem_map_of_mem (mem_filter.mpr ⟨he, hp⟩)
      rw [← hcpus] at hmem
      obtain ⟨p, -, hp⟩ := mem_map.mp hmem
      rw [← hp, Option.isSome_some]
    · have hlen := congrArg List.length hcpus
      rw [foldl_addProcessor ps (Nat.zero_le _), length_map, length_map, length_take] at hlen
      omega
  · rintro ⟨es, hes, hread, hmax⟩
    obtain ⟨fuel, ps, hps, hparse⟩ := parse_of_entries [] hes hread
    refine ⟨fuel, _, es, hparse, hes, ?_⟩
    have hlen := congrArg List.length hps
    rw [length_map, length_map] at hlen
    rw [foldl_addProcessor ps (Nat.zero_le _), nil_append, take_of_length_le (by omega), hps]

def strange : Nat → Byte := fun k =>
  [0x50, 0x43, 0x4d, 0x50, 45, 0, 4, 0x9a].getD k (if k = 44 then 5 else 0)

theorem mp_table_hangs : Accepted strange ∧ ¬Registers strange := by
  refine ⟨⟨by decide +kernel, by decide +kernel⟩, ?_⟩
  rintro ⟨_, _, es, -, hes, -⟩
  rw [show config strange = [5] by decide +kernel] at hes
  cases hes with
  | cons hn => cases hn

end MpConfig

end BabyOS
