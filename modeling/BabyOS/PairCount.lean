import Mathlib.Data.Set.Insert
import Mathlib.Logic.Function.Basic

open Function

namespace BabyOS

/-- Things that may be open, linked in pairs. Each has a reference for itself while it is open, and one
for its peer while that is open and its reference has been counted. -/
@[ext]
structure Pairs (ι : Type) where
  opened : Set ι
  peer : ι → Option ι
  counted : Set ι

namespace Pairs

section

variable {ι : Type} {t u : Pairs ι} {i j k : ι}

def Lent (t : Pairs ι) (i : ι) : Prop :=
  i ∈ t.counted ∧ ∃ j ∈ t.opened, t.peer i = some j ∧ t.peer j = some i

open Classical in
noncomputable def refs (t : Pairs ι) (i : ι) : Nat :=
  (if i ∈ t.opened then 1 else 0) + (if t.Lent i then 1 else 0)

structure Wf (t : Pairs ι) : Prop where
  peers : ∀ i j, i ∈ t.opened → t.peer i = some j → t.peer j = some i ∧ i ≠ j
  uncounted : ∀ i j, i ∈ t.opened → t.peer i = some j → i ∉ t.counted ∨ j ∉ t.counted → j ∈ t.opened

theorem refs_pos (hi : i ∈ t.opened) : 0 < t.refs i := by
  rw [refs, if_pos hi]
  omega

theorem not_opened_of_refs (h : t.refs i = 0) : i ∉ t.opened := by
  intro hi
  have := refs_pos hi
  omega

theorem refs_closed (hi : i ∉ t.opened) (hl : ¬t.Lent i) : t.refs i = 0 := by
  rw [refs, if_neg hi, if_neg hl]

theorem not_lent_of_refs (h : t.refs i = 0) : ¬t.Lent i := by
  intro hl
  rw [refs, if_pos hl] at h
  omega

theorem refs_le (t : Pairs ι) (i : ι) : t.refs i ≤ 2 := by
  unfold refs
  split_ifs <;> omega

theorem refs_congr (ho : i ∈ t.opened ↔ i ∈ u.opened) (hl : t.Lent i ↔ u.Lent i) : t.refs i = u.refs i := by
  classical
  rw [refs, refs, if_congr ho rfl rfl, if_congr hl rfl rfl]

def Same (t u : Pairs ι) : Prop :=
  t.opened = u.opened ∧ t.peer = u.peer ∧ ∀ i, t.peer i ≠ none → (i ∈ t.counted ↔ i ∈ u.counted)

theorem Same.lent (h : Same t u) : t.Lent i ↔ u.Lent i := by
  obtain ⟨ho, hp, hc⟩ := h
  have hi : (∃ j ∈ t.opened, t.peer i = some j ∧ t.peer j = some i) → (i ∈ t.counted ↔ i ∈ u.counted) := by
    intro ⟨j, _, hj, _⟩
    exact hc i (by rw [hj]; exact Option.some_ne_none j)
  rw [Lent, Lent, ← ho, ← hp]
  constructor
  · intro ⟨h1, h2⟩
    exact ⟨(hi h2).mp h1, h2⟩
  · intro ⟨h1, h2⟩
    exact ⟨(hi h2).mpr h1, h2⟩

theorem Same.refs (h : Same t u) : t.refs i = u.refs i :=
  refs_congr (by rw [h.1]) h.lent

theorem Same.wf (h : Same t u) (hu : u.Wf) : t.Wf := by
  obtain ⟨ho, hp, hc⟩ := h
  refine ⟨?_, ?_⟩
  · intro i j hi hj
    rw [ho] at hi
    rw [hp] at hj ⊢
    exact hu.peers i j hi hj
  · intro i j hi hj hn
    have hi' : i ∈ u.opened := by rwa [ho] at hi
    have hj' : u.peer i = some j := by rwa [hp] at hj
    have hji : t.peer j = some i := by rw [hp]; exact (hu.peers i j hi' hj').1
    have hm := hc i (by rw [hj]; exact Option.some_ne_none j)
    have hm' := hc j (by rw [hji]; exact Option.some_ne_none i)
    rw [hm, hm'] at hn
    rw [ho]
    exact hu.uncounted i j hi' hj' hn

theorem Wf.peer_ne (h : t.Wf) (hi : t.refs i = 0) (hk : k ∈ t.opened) : t.peer k ≠ some i := by
  intro hp
  by_cases hc : i ∈ t.counted
  · exact not_lent_of_refs hi ⟨hc, k, hk, (h.peers k i hk hp).1, hp⟩
  · exact not_opened_of_refs hi (h.uncounted k i hk hp (Or.inr hc))

end

section

variable {ι : Type} [DecidableEq ι] {t : Pairs ι} {i j k : ι}

def alloc (t : Pairs ι) (i : ι) : Pairs ι :=
  { t with opened := insert i t.opened, peer := update t.peer i none }

def link (t : Pairs ι) (a c : ι) : Pairs ι :=
  { t with peer := update (update t.peer c (some a)) a (some c), counted := t.counted \ {a, c} }

variable (t i) in
theorem alloc_peer_self : (t.alloc i).peer i = none := by
  simp [alloc]

theorem alloc_peer_of_ne (h : k ≠ i) : (t.alloc i).peer k = t.peer k := by
  simp [alloc, h]

theorem ne_of_alloc_peer (h : (t.alloc i).peer k = some j) : k ≠ i := by
  rintro rfl
  rw [alloc_peer_self] at h
  cases h

theorem Wf.alloc (h : t.Wf) (hi : t.refs i = 0) : (t.alloc i).Wf := by
  refine ⟨?_, ?_⟩
  · intro k j hk hj
    have hki := ne_of_alloc_peer hj
    have hk' := Set.mem_of_mem_insert_of_ne hk hki
    rw [alloc_peer_of_ne hki] at hj
    have hji : j ≠ i := fun e => h.peer_ne hi hk' (e ▸ hj)
    rw [alloc_peer_of_ne hji]
    exact h.peers k j hk' hj
  · intro k j hk hj hn
    have hki := ne_of_alloc_peer hj
    rw [alloc_peer_of_ne hki] at hj
    exact Set.mem_insert_of_mem i (h.uncounted k j (Set.mem_of_mem_insert_of_ne hk hki) hj hn)

theorem refs_alloc_self (t : Pairs ι) (i : ι) : (t.alloc i).refs i = 1 := by
  have hn : ¬(t.alloc i).Lent i := by
    intro ⟨_, j, _, hj, _⟩
    exact ne_of_alloc_peer hj rfl
  have ho : i ∈ (t.alloc i).opened := Set.mem_insert i t.opened
  rw [refs, if_pos ho, if_neg hn]

theorem refs_alloc_of_ne (hi : t.refs i = 0) (hk : k ≠ i) : (t.alloc i).refs k = t.refs k := by
  refine refs_congr ⟨fun h => Set.mem_of_mem_insert_of_ne h hk, fun h => Set.mem_insert_of_mem i h⟩ ?_
  constructor
  · intro ⟨hc, j, hj, hkj, hjk⟩
    have hji := ne_of_alloc_peer hjk
    rw [alloc_peer_of_ne hk] at hkj
    rw [alloc_peer_of_ne hji] at hjk
    exact ⟨hc, j, Set.mem_of_mem_insert_of_ne hj hji, hkj, hjk⟩
  · intro ⟨hc, j, hj, hkj, hjk⟩
    have hji : j ≠ i := fun e => not_opened_of_refs hi (e ▸ hj)
    refine ⟨hc, j, Set.mem_insert_of_mem i hj, ?_, ?_⟩
    · rw [alloc_peer_of_ne hk, hkj]
    · rw [alloc_peer_of_ne hji, hjk]

variable {a c : ι}

variable (t a c) in
theorem link_peer_left : (t.link a c).peer a = some c := by
  simp [link]

theorem link_peer_right (h : a ≠ c) : (t.link a c).peer c = some a := by
  simp [link, h.symm]

theorem link_peer_of_ne (ha : k ≠ a) (hc : k ≠ c) : (t.link a c).peer k = t.peer k := by
  simp [link, ha, hc]

structure Free (t : Pairs ι) (a c : ι) : Prop where
  opened_left : a ∈ t.opened
  opened_right : c ∈ t.opened
  ne : a ≠ c
  peer_left : t.peer a = none
  peer_right : t.peer c = none

omit [DecidableEq ι] in
theorem Wf.peer_ne_of_none (h : t.Wf) (hi : t.peer i = none) (hk : k ∈ t.opened) : t.peer k ≠ some i := by
  intro hp
  have := (h.peers k i hk hp).1
  rw [hi] at this
  cases this

theorem Wf.link (h : t.Wf) (hf : t.Free a c) : (t.link a c).Wf := by
  have hp : ∀ k j, k ∈ t.opened → (t.link a c).peer k = some j →
      k = a ∧ j = c ∨ k = c ∧ j = a ∨ t.peer k = some j ∧ k ≠ a ∧ k ≠ c ∧ j ≠ a ∧ j ≠ c := by
    intro k j hk hj
    by_cases ha : k = a
    · subst ha
      exact Or.inl ⟨rfl, Option.some.inj (hj.symm.trans (link_peer_left t k c))⟩
    by_cases hc : k = c
    · subst hc
      exact Or.inr (Or.inl ⟨rfl, Option.some.inj (hj.symm.trans (link_peer_right hf.ne))⟩)
    rw [link_peer_of_ne ha hc] at hj
    refine Or.inr (Or.inr ⟨hj, ha, hc, ?_, ?_⟩)
    · exact fun e => h.peer_ne_of_none hf.peer_left hk (e ▸ hj)
    · exact fun e => h.peer_ne_of_none hf.peer_right hk (e ▸ hj)
  refine ⟨?_, ?_⟩
  · intro k j hk hj
    obtain ⟨rfl, rfl⟩ | ⟨rfl, rfl⟩ | ⟨hkj, _, _, ha, hc⟩ := hp k j hk hj
    · exact ⟨link_peer_right hf.ne, hf.ne⟩
    · exact ⟨link_peer_left t j k, hf.ne.symm⟩
    · rw [link_peer_of_ne ha hc]
      exact h.peers k j hk hkj
  · intro k j hk hj hn
    obtain ⟨rfl, rfl⟩ | ⟨rfl, rfl⟩ | ⟨hkj, hka, hkc, ha, hc⟩ := hp k j hk hj
    · exact hf.opened_right
    · exact hf.opened_left
    · refine h.uncounted k j hk hkj ?_
      rcases hn with hn | hn
      · exact Or.inl fun hm => hn ⟨hm, by simp [hka, hkc]⟩
      · exact Or.inr fun hm => hn ⟨hm, by simp [ha, hc]⟩

theorem Free.refs_link (hf : t.Free a c) (k : ι) : (t.link a c).refs k = t.refs k := by
  refine refs_congr Iff.rfl ?_
  constructor
  · intro ⟨⟨hm, hn⟩, j, hj, hkj, hjk⟩
    have ha : k ≠ a := fun e => hn (by simp [e])
    have hc : k ≠ c := fun e => hn (by simp [e])
    rw [link_peer_of_ne ha hc] at hkj
    have hja : j ≠ a := by
      rintro rfl
      exact hc (Option.some.inj (hjk.symm.trans (link_peer_left t j c)))
    have hjc : j ≠ c := by
      rintro rfl
      exact ha (Option.some.inj (hjk.symm.trans (link_peer_right hf.ne)))
    rw [link_peer_of_ne hja hjc] at hjk
    exact ⟨hm, j, hj, hkj, hjk⟩
  · intro ⟨hm, j, hj, hkj, hjk⟩
    have ha : k ≠ a := fun e => by rw [e, hf.peer_left] at hkj; cases hkj
    have hc : k ≠ c := fun e => by rw [e, hf.peer_right] at hkj; cases hkj
    have hja : j ≠ a := fun e => by rw [e, hf.peer_left] at hjk; cases hjk
    have hjc : j ≠ c := fun e => by rw [e, hf.peer_right] at hjk; cases hjk
    refine ⟨⟨hm, by simp [ha, hc]⟩, j, hj, ?_, ?_⟩
    · rw [link_peer_of_ne ha hc, hkj]
    · rw [link_peer_of_ne hja hjc, hjk]

end

section

variable {ι : Type} {t : Pairs ι} {i j k x : ι}

def lend (t : Pairs ι) (i : ι) : Pairs ι := { t with counted := insert i t.counted }

theorem Wf.lend (h : t.Wf) (i : ι) : (t.lend i).Wf := by
  refine ⟨h.peers, ?_⟩
  intro k j hk hj hn
  refine h.uncounted k j hk hj ?_
  rcases hn with hn | hn
  · exact Or.inl fun hm => hn (Set.mem_insert_of_mem i hm)
  · exact Or.inr fun hm => hn (Set.mem_insert_of_mem i hm)

theorem Wf.refs_lend_self (h : t.Wf) (hi : i ∈ t.opened) (hj : t.peer i = some j) (hn : i ∉ t.counted) :
    (t.lend i).refs i = t.refs i + 1 := by
  have hl : ¬t.Lent i := fun h => hn h.1
  have hl' : (t.lend i).Lent i :=
    ⟨Set.mem_insert i t.counted, j, h.uncounted i j hi hj (Or.inl hn), hj, (h.peers i j hi hj).1⟩
  have ho : i ∈ (t.lend i).opened := hi
  rw [refs, refs, if_pos hl', if_neg hl, if_pos ho, if_pos hi]

theorem refs_lend_of_ne (hk : k ≠ i) : (t.lend i).refs k = t.refs k := by
  refine refs_congr Iff.rfl ?_
  constructor
  · intro ⟨hm, hj⟩
    exact ⟨Set.mem_of_mem_insert_of_ne hm hk, hj⟩
  · intro ⟨hm, hj⟩
    exact ⟨Set.mem_insert_of_mem i hm, hj⟩

def release (t : Pairs ι) (x : ι) : Pairs ι := { t with opened := t.opened \ {x} }

structure Ready (t : Pairs ι) (x : ι) : Prop where
  opened : x ∈ t.opened
  counted : ∀ j, t.peer x = some j → x ∈ t.counted ∧ j ∈ t.counted

theorem Wf.release (h : t.Wf) (hx : t.Ready x) : (t.release x).Wf := by
  refine ⟨fun k j hk => h.peers k j hk.1, ?_⟩
  intro k j hk hj hn
  refine ⟨h.uncounted k j hk.1 hj hn, ?_⟩
  rintro rfl
  have hc := hx.counted k (h.peers k j hk.1 hj).1
  exact hn.elim (fun hn => hn hc.2) (fun hn => hn hc.1)

theorem Wf.refs_release_self (h : t.Wf) (hx : t.Ready x) : (t.release x).refs x + 1 = t.refs x := by
  have hl : (t.release x).Lent x ↔ t.Lent x := by
    constructor
    · intro ⟨hm, j, hj, hp⟩
      exact ⟨hm, j, hj.1, hp⟩
    · intro ⟨hm, j, hj, hp⟩
      exact ⟨hm, j, ⟨hj, (h.peers x j hx.opened hp.1).2.symm⟩, hp⟩
  have ho : x ∉ (t.release x).opened := fun h => h.2 rfl
  classical
  rw [refs, refs, if_neg ho, if_pos hx.opened, if_congr hl rfl rfl]
  omega

theorem Wf.refs_release_peer (h : t.Wf) (hx : t.Ready x) (hj : t.peer x = some j) :
    (t.release x).refs j + 1 = t.refs j := by
  obtain ⟨hjx, hne⟩ := h.peers x j hx.opened hj
  have hl : t.Lent j := ⟨(hx.counted j hj).2, x, hx.opened, hjx, hj⟩
  have hl' : ¬(t.release x).Lent j := by
    intro ⟨_, i, hi, hji, _⟩
    exact hi.2 (Option.some.inj (hji.symm.trans hjx))
  have ho : j ∈ (t.release x).opened ↔ j ∈ t.opened := ⟨fun h => h.1, fun h => ⟨h, hne.symm⟩⟩
  classical
  rw [refs, refs, if_neg hl', if_pos hl, if_congr ho rfl rfl]

theorem refs_release_of_ne (hk : k ≠ x) (hp : t.peer x ≠ some k) : (t.release x).refs k = t.refs k := by
  refine refs_congr ⟨fun h => h.1, fun h => ⟨h, hk⟩⟩ ?_
  constructor
  · intro ⟨hm, j, hj, hkj⟩
    exact ⟨hm, j, hj.1, hkj⟩
  · intro ⟨hm, j, hj, hkj⟩
    exact ⟨hm, j, ⟨hj, fun e => hp (e ▸ hkj.2)⟩, hkj⟩

end

end Pairs

end BabyOS
