import BabyOS.ArpQueue
import BabyOS.NetStack

open List Option

namespace BabyOS

structure ArpPacket where
  len : Nat
  hdr : Nat → Byte

def ArpPacket.reply (p : ArpPacket) : Option (Word × Mac) :=
  if 28 ≤ p.len ∧ htons (getHalf p.hdr 6) = 2 then some (htonl (getWord p.hdr 14), readMac p.hdr 8) else none

namespace Arp

/-- `receive` but for the answer to a request, which does not change `arp_t`. -/
def receive (a : Arp) (p : ArpPacket) : Arp × List ArpCall :=
  if p.len < 28 then (a, [])
  else if htons (getHalf p.hdr 6) = 2 then a.receiveReply (htonl (getWord p.hdr 14)) (readMac p.hdr 8)
  else (a, [])

def received (ps : List ArpPacket) : Arp := ps.foldl (fun a p => (a.receive p).1) init

def latest (ps : List ArpPacket) (ip : Word) : Option Mac :=
  ((ps.filterMap ArpPacket.reply).filter fun r => r.1 = ip).getLast?.map Prod.snd

/-- The cache knows the addresses that replied, each by its last reply. -/
def Fresh (ps : List ArpPacket) : Prop := ∀ ip, (received ps).lookupCache ip = latest ps ip

/-- A reply from an address in the cache does not give it another hardware address. -/
def Steady (a : Arp) (p : ArpPacket) : Prop :=
  ∀ ip mac, p.reply = some (ip, mac) → ∀ old, a.lookupCache ip = some old → old = mac

section

variable {a : Arp} {p : ArpPacket} {ps : List ArpPacket} {ip : Word} {mac : Mac}

/-- The handler in the network stack does to `arp_t` what `receive` does, but when it answers a request. -/
theorem arpReceive_eq (cfg : NetCfg) (etherAddr : Mac) (b : Nat) (s : Net)
    (h : htons (getHalf (s.view b) 6) = 1 → htonl (getWord (s.view b) 24) ≠ cfg.ipaddr) :
    arpReceive cfg etherAddr b s = runArp cfg (fun a => a.receive ⟨(s.bufs b).dataLen, s.view b⟩) s := by
  have hkeep : runArp cfg (fun a => (a, [])) s = .ok ((), s) := rfl
  unfold arpReceive receive
  rw [bind_ok (show (get : NetProg Net) s = .ok (s, s) from rfl)]
  dsimp only
  by_cases hlen : (s.bufs b).dataLen < 28
  · simp only [if_pos hlen]
    exact hkeep.symm
  · simp only [if_neg hlen]
    by_cases h1 : htons (getHalf (s.view b) 6) = 1
    · rw [if_pos h1, if_neg (h h1)]
      simp only [h1]
      exact hkeep.symm
    · rw [if_neg h1]
      by_cases h2 : htons (getHalf (s.view b) 6) = 2
      · simp only [if_pos h2]
        rfl
      · simp only [if_neg h2]
        exact hkeep.symm

theorem receive_none (h : p.reply = none) : (a.receive p).1 = a := by
  unfold ArpPacket.reply at h
  unfold receive
  by_cases hlen : p.len < 28
  · rw [if_pos hlen]
  · by_cases h2 : htons (getHalf p.hdr 6) = 2
    · simp [h2, Nat.not_lt.mp hlen] at h
    · rw [if_neg hlen, if_neg h2]

theorem cache_receive_some (h : p.reply = some (ip, mac)) : (a.receive p).1.cache = (a.addToCache ip mac).cache := by
  unfold ArpPacket.reply at h
  split at h
  · next hp =>
    obtain ⟨rfl, rfl⟩ := Prod.mk.inj (some.inj h)
    rw [receive, if_neg (Nat.not_lt.mpr hp.1), if_pos hp.2]
    unfold receiveReply processWaitQueue
    split <;> rfl
  · cases h

theorem lookupCache_congr {a' : Arp} (h : a.cache = a'.cache) : a.lookupCache ip = a'.lookupCache ip := by
  rw [lookupCache, lookupCache, h]

theorem received_concat : received (ps ++ [p]) = ((received ps).receive p).1 := by
  rw [received, foldl_concat]
  rfl

theorem latest_concat_some (h : p.reply = some (ip, mac)) (ip' : Word) :
    latest (ps ++ [p]) ip' = if ip = ip' then some mac else latest ps ip' := by
  rw [latest, filterMap_append, filterMap_cons_some h, filterMap_nil, filter_append]
  by_cases hip : ip = ip'
  · rw [if_pos hip, filter_cons_of_pos (by simpa using hip), filter_nil, List.getLast?_concat]
    rfl
  · rw [if_neg hip, filter_cons_of_neg (by simpa using hip), filter_nil, append_nil]
    rfl

theorem fresh_concat (h : Fresh ps) : Fresh (ps ++ [p]) ↔ (received ps).Steady p := by
  unfold Fresh
  rw [received_concat]
  cases hr : p.reply with
  | none =>
    rw [receive_none hr]
    refine iff_of_true (fun ip => ?_) fun ip mac hm => by simp [hr] at hm
    rw [latest, filterMap_append, filterMap_cons_none hr, filterMap_nil, append_nil]
    exact h ip
  | some r =>
    obtain ⟨ip, mac⟩ := r
    have hself : ((received ps).receive p).1.lookupCache ip = some (((received ps).lookupCache ip).getD mac) := by
      rw [lookupCache_congr (cache_receive_some hr), lookupCache_addToCache_self]
    constructor
    · intro hf ip' mac' he old hold
      obtain ⟨rfl, rfl⟩ := Prod.mk.inj (some.inj (hr.symm.trans he))
      have hlast := hf ip
      rw [hself, latest_concat_some hr, if_pos rfl, hold] at hlast
      exact some.inj hlast
    · intro hs ip'
      rw [latest_concat_some hr]
      by_cases hip : ip = ip'
      · subst ip'
        rw [if_pos rfl, hself]
        cases hold : (received ps).lookupCache ip with
        | none => rfl
        | some old => exact congrArg some (hs ip mac hr old hold)
      · rw [if_neg hip, lookupCache_congr (cache_receive_some hr), lookupCache_addToCache_of_ne (Ne.symm hip)]
        exact h ip'

theorem nodup_addToCache (h : (a.cache.map Prod.fst).Nodup) : ((a.addToCache ip mac).cache.map Prod.fst).Nodup := by
  unfold addToCache
  cases hf : a.cache.find? fun line => line.1 = ip with
  | some line => exact h
  | none =>
    refine nodup_cons.mpr ⟨fun hm => ?_, h⟩
    obtain ⟨line, hl, he⟩ := mem_map.mp hm
    exact List.find?_eq_none.mp hf line hl (decide_eq_true he)

theorem nodup_received (ps : List ArpPacket) : ((received ps).cache.map Prod.fst).Nodup := by
  induction ps using List.reverseRecOn with
  | nil => exact nodup_nil
  | append_singleton ps p ih =>
    rw [received_concat]
    cases hr : p.reply with
    | none => rwa [receive_none hr]
    | some r =>
      rw [cache_receive_some hr]
      exact nodup_addToCache ih

end

/-- The cache has one line for each address, and stays fresh while no address changes its hardware address. -/
theorem arp_cache_fresh_iff (ps : List ArpPacket) : ((received ps).cache.map Prod.fst).Nodup ∧
    ((∀ qs, qs <+: ps → Fresh qs) ↔ ∀ qs p, qs ++ [p] <+: ps → (received qs).Steady p) := by
  refine ⟨nodup_received ps, fun h qs p hp => ?_, fun h => ?_⟩
  · exact (fresh_concat (h qs ((prefix_append qs [p]).trans hp))).mp (h _ hp)
  · intro qs
    induction qs using List.reverseRecOn with
    | nil => exact fun _ _ => rfl
    | append_singleton qs p ih =>
      exact fun hp => (fresh_concat (ih ((prefix_append qs [p]).trans hp))).mpr (h qs p hp)

def replyOf (x : Byte) : ArpPacket :=
  ⟨28, fun i => if i = 7 then 2 else if 8 ≤ i ∧ i < 14 then x else if i = 14 then 10 else if i = 17 then 2 else 0⟩

theorem arp_cache_stale : (received [replyOf 1, replyOf 2]).lookupCache 0x0a000002#32 = some (fun _ => 1) ∧
    latest [replyOf 1, replyOf 2] 0x0a000002#32 = some fun _ => 2 := by
  decide

end Arp

end BabyOS
