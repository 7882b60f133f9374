import BabyOS.Arp
import BabyOS.Runs

open List Option

namespace BabyOS

/-- A packet is sent to an address, a reply comes in, a timer expires. -/
inductive ArpAct where
  | send (ip : Word) (b : Nat)
  | reply (ip : Word) (mac : Mac)
  | expire (t : Nat) (ip : Word)

def ArpAct.ip : ArpAct → Word
  | .send ip _ | .reply ip _ | .expire _ ip => ip

namespace Arp

/-- The end of `ip_t::transmit`, from the look-up of the address on. -/
def send (a : Arp) (ip : Word) (b : Nat) : Arp × List ArpCall :=
  match a.lookupCache ip with
  | some mac => (a, [.transmit mac b, .free b])
  | none => a.addToWaitQueue ip b

def receiveReply (a : Arp) (ip : Word) (mac : Mac) : Arp × List ArpCall :=
  (a.addToCache ip mac).processWaitQueue ip mac

def handle (a : Arp) : ArpAct → Arp × List ArpCall
  | .send ip b => a.send ip b
  | .reply ip mac => a.receiveReply ip mac
  | .expire _ ip => a.requestTimeout ip

/-- A packet that is sent is in a buffer of its own, and only a timer that is pending expires. -/
def Enabled (a : Arp) : ArpAct → Prop
  | .send _ b => b ∉ a.waiting
  | .reply _ _ => True
  | .expire t ip => (t, ip) ∈ a.timers

instance enabledDecidable (a : Arp) : (x : ArpAct) → Decidable (a.Enabled x)
  | .send _ b => inferInstanceAs (Decidable (b ∉ a.waiting))
  | .reply _ _ => inferInstanceAs (Decidable True)
  | .expire t ip => inferInstanceAs (Decidable ((t, ip) ∈ a.timers))

end Arp

abbrev ArpLog := List (ArpAct × List ArpCall)

/-- `arp_t` with a record of what was handled and of the calls that were made for it. -/
structure ArpRun where
  arp : Arp
  log : ArpLog

namespace ArpRun

def init : ArpRun := ⟨.init, []⟩

def step (s : ArpRun) (x : ArpAct) : Option ArpRun :=
  if s.arp.Enabled x then some ⟨(s.arp.handle x).1, s.log ++ [(x, (s.arp.handle x).2)]⟩ else none

end ArpRun

namespace ArpLog

def direct : ArpAct × List ArpCall → Bool
  | (.send _ b, [.transmit _ b₁, .free b₂]) => b₁ = b ∧ b₂ = b
  | _ => false

def about (ip : Word) (log : ArpLog) : ArpLog := log.filter fun e => e.1.ip = ip

/-- The packets that were left with `arp_t`, in their order. -/
def queued (log : ArpLog) : List Nat :=
  log.flatMap fun e => match e.1 with
    | .send _ b => if direct e then [] else [b]
    | _ => []

def handled (log : ArpLog) : List ArpCall :=
  log.flatMap fun e => if direct e then [] else e.2.filter fun c => match c with
    | .request _ => false
    | _ => true

def requests (ip : Word) (log : ArpLog) : Nat := (log.map fun e => e.2.count (.request ip)).sum

def expiries (log : ArpLog) : Nat :=
  log.countP fun e => match e.1 with
    | .expire _ _ => true
    | _ => false

def firstReply (log : ArpLog) : Option Mac :=
  log.findSome? fun e => match e.1 with
    | .reply _ mac => some mac
    | _ => none

end ArpLog

/-- What became of the packets that waited for an address together. -/
inductive ArpOutcome where
  | waiting
  | sent (mac : Mac)
  | dropped

/-- A node of the wait queue over its life, with the part of the record that is about it. -/
structure ArpBatch where
  log : ArpLog
  outcome : ArpOutcome

namespace ArpBatch

def calls (x : ArpBatch) : List ArpCall :=
  match x.outcome with
  | .waiting => []
  | .sent mac => (ArpLog.queued x.log).flatMap fun b => [.transmit mac b, .free b]
  | .dropped => (ArpLog.queued x.log).map .free

def reply (x : ArpBatch) : Option Mac :=
  match x.outcome with
  | .sent mac => some mac
  | .waiting | .dropped => none

/-- The timer expired at most once for each retry, and once more when the packets were dropped. -/
def Expired (x : ArpBatch) : Prop :=
  match x.outcome with
  | .waiting | .sent _ => ArpLog.expiries x.log ≤ Arp.retry
  | .dropped => ArpLog.expiries x.log = Arp.retry + 1

/-- The packets are handled once, in order, as the outcome says; a request is made at first and at each expiry but
the one that drops them. -/
structure Ok (ip : Word) (x : ArpBatch) : Prop where
  handled : ArpLog.handled x.log = x.calls
  reply : ArpLog.firstReply x.log = x.reply
  expired : x.Expired
  requests : ArpLog.requests ip x.log = 1 + min (ArpLog.expiries x.log) Arp.retry

end ArpBatch

namespace ArpLog

variable {ip : Word} {log log' : ArpLog} {x : ArpAct} {cs : List ArpCall}

theorem about_of_eq (h : x.ip = ip) : about ip (log ++ [(x, cs)]) = about ip log ++ [(x, cs)] := by
  rw [about, filter_append, filter_cons_of_pos (by exact decide_eq_true h)]
  rfl

theorem about_of_ne (h : ip ≠ x.ip) : about ip (log ++ [(x, cs)]) = about ip log := by
  rw [about, filter_append, filter_cons_of_neg (by simpa using fun e => h e.symm)]
  exact append_nil _

theorem queued_append : queued (log ++ log') = queued log ++ queued log' := flatMap_append

theorem handled_append : handled (log ++ log') = handled log ++ handled log' := flatMap_append

theorem requests_append : requests ip (log ++ log') = requests ip log + requests ip log' := by
  rw [requests, map_append, sum_append]
  rfl

theorem expiries_append : expiries (log ++ log') = expiries log + expiries log' := countP_append

theorem firstReply_append : firstReply (log ++ log') = (firstReply log).or (firstReply log') :=
  List.findSome?_append

theorem handled_of_ne (ip : Word) {e : ArpAct × List ArpCall} (hd : direct e = false) (h : ∀ ip, .request ip ∉ e.2) :
    handled [e] = e.2 ∧ requests ip [e] = 0 := by
  constructor
  · rw [handled, flatMap_singleton, hd]
    refine filter_eq_self.mpr fun c hc => ?_
    cases c with
    | request ip => exact absurd hc (h ip)
    | transmit | free => rfl
  · rw [requests, map_singleton, sum_singleton]
    exact count_eq_zero_of_not_mem (h ip)

structure Quiet (ip : Word) (log : ArpLog) : Prop where
  queued : queued log = []
  handled : handled log = []
  requests : requests ip log = 0
  expiries : expiries log = 0

theorem Quiet.append (h : Quiet ip log) (h' : Quiet ip log') : Quiet ip (log ++ log') :=
  ⟨by rw [queued_append, h.queued, h'.queued]; rfl, by rw [handled_append, h.handled, h'.handled]; rfl,
    by rw [requests_append, h.requests, h'.requests], by rw [expiries_append, h.expiries, h'.expiries]⟩

end ArpLog

namespace Arp

/-- What the handlers do, when only a pending timer expires and only a buffer that does not wait is sent. -/
inductive Turn (a : Arp) : ArpAct → Arp → List ArpCall → Prop where
  | known (hl : a.lookupCache ip = some mac) : Turn a (.send ip b) a [.transmit mac b, .free b]
  | wait (hl : a.lookupCache ip = none) (hn : a.find ip = some n) : Turn a (.send ip b)
      (a.setQueue (atNode ip (fun n => [{ n with buffers := n.buffers ++ [b] }]) a.waitQueue)) []
  | new (hl : a.lookupCache ip = none) (hn : a.find ip = none) : Turn a (.send ip b)
      ((a.allocTimer.2.setQueue (a.allocTimer.2.waitQueue ++ [⟨ip, retry, a.allocTimer.1, [b]⟩])).addTimer
        a.allocTimer.1 ip) [.request ip]
  | idle (hn : a.find ip = none) : Turn a (.reply ip mac) (a.addToCache ip mac) []
  | flush (hn : a.find ip = some n) : Turn a (.reply ip mac)
      ((((a.addToCache ip mac).removeTimer n.timer).freeTimer n.timer).setQueue (atNode ip (fun _ => []) a.waitQueue))
      (n.buffers.flatMap fun b => [.transmit mac b, .free b])
  | retry (hn : a.find ip = some n) (hr : 0 < n.retryTimes) : Turn a (.expire t ip)
      (((a.removeTimer n.timer).addTimer n.timer n.ip).setQueue
        (atNode ip (fun n => [{ n with retryTimes := n.retryTimes - 1 }]) a.waitQueue)) [.request ip]
  | drop (hn : a.find ip = some n) (hr : n.retryTimes = 0) : Turn a (.expire t ip)
      (((a.removeTimer n.timer).freeTimer n.timer).setQueue (atNode ip (fun _ => []) a.waitQueue))
      (n.buffers.map .free)

section

variable {a : Arp} {ip ip' : Word} {mac : Mac} {n m : ArpNode} {b : Nat}

theorem find_eq_none : a.find ip = none ↔ ∀ n ∈ a.waitQueue, n.ip ≠ ip := by
  rw [find, List.find?_eq_none]
  simp only [decide_eq_true_eq]

theorem find_append_of_none (h : a.find ip = none) (hm : m.ip = ip) :
    (a.setQueue (a.waitQueue ++ [m])).find ip = some m := by
  unfold find at h ⊢
  rw [setQueue, List.find?_append, h, none_or, List.find?_singleton, if_pos (decide_eq_true hm)]

theorem find_append_of_ne (hm : m.ip ≠ ip) : (a.setQueue (a.waitQueue ++ [m])).find ip = a.find ip := by
  unfold find
  rw [setQueue, List.find?_append, List.find?_singleton, if_neg (by simpa using hm), or_none]

section

variable (h : a.find ip = some n)
include h

theorem find_atNode_self {f : ArpNode → List ArpNode} (hf : f n = [m]) (hm : m.ip = ip) :
    (a.setQueue (atNode ip f a.waitQueue)).find ip = some m := by
  obtain ⟨pre, post, _, _, hpre, hat⟩ := find_split h
  unfold find
  rw [setQueue, hat f, hf, List.find?_append, List.find?_eq_none.mpr (by simpa using hpre), none_or,
    singleton_append, List.find?_cons_of_pos (by exact decide_eq_true hm)]

theorem find_atNode_of_ne {f : ArpNode → List ArpNode} (hf : ∀ m ∈ f n, m.ip = ip)
    (hne : ip' ≠ ip) : (a.setQueue (atNode ip f a.waitQueue)).find ip' = a.find ip' := by
  obtain ⟨pre, post, hq, hn, _, hat⟩ := find_split h
  have hfn : (f n).find? (fun m => m.ip = ip') = none := by
    refine List.find?_eq_none.mpr fun m hm => ?_
    simpa [hf m hm] using fun e => hne e.symm
  unfold find
  rw [setQueue, hat f, hq, List.find?_append, List.find?_append, List.find?_append, hfn, none_or,
    List.find?_cons_of_neg (by simpa [hn] using fun e => hne e.symm)]

theorem find_atNode_nil (hq : (a.waitQueue.map ArpNode.ip).Nodup) :
    (a.setQueue (atNode ip (fun _ => []) a.waitQueue)).find ip = none := by
  obtain ⟨pre, post, hns, hn, hpre, hat⟩ := find_split h
  rw [hns, map_append, map_cons] at hq
  have hpost := (nodup_cons.mp (nodup_append.mp hq).2.1).1
  rw [find_eq_none, setQueue, hat]
  intro m hm
  rcases mem_append.mp hm with hm | hm
  · exact hpre m hm
  · rw [nil_append] at hm
    intro he
    exact hpost (mem_map.mpr ⟨m, hm, he.trans hn.symm⟩)

theorem find_ip : n.ip = ip := by
  obtain ⟨_, _, _, hn, _⟩ := find_split h
  exact hn

theorem find_mem : n ∈ a.waitQueue := mem_of_find?_eq_some h

end

theorem lookupCache_addToCache_self : (a.addToCache ip mac).lookupCache ip = some ((a.lookupCache ip).getD mac) := by
  unfold addToCache lookupCache
  cases h : a.cache.find? fun line => line.1 = ip with
  | some line =>
    simp only
    rw [h]
    rfl
  | none =>
    simp only
    rw [List.find?_cons_of_pos (by exact decide_eq_true rfl)]
    rfl

theorem lookupCache_addToCache_of_ne (h : ip' ≠ ip) :
    (a.addToCache ip mac).lookupCache ip' = a.lookupCache ip' := by
  unfold addToCache lookupCache
  cases a.cache.find? fun line => line.1 = ip with
  | some line => rfl
  | none =>
    simp only
    rw [List.find?_cons_of_neg (by simpa using fun e => h e.symm)]

theorem addToCache_eq (a : Arp) (ip : Word) (mac : Mac) :
    (a.addToCache ip mac).waitQueue = a.waitQueue ∧ (a.addToCache ip mac).timers = a.timers ∧
      (a.addToCache ip mac).freeTimers = a.freeTimers ∧ (a.addToCache ip mac).nextTimer = a.nextTimer := by
  unfold addToCache
  split <;> exact ⟨rfl, rfl, rfl, rfl⟩

theorem find_addToCache : (a.addToCache ip mac).find ip' = a.find ip' := by
  rw [find, find, (addToCache_eq a ip mac).1]

theorem allocTimer_eq (a : Arp) : a.allocTimer.2.waitQueue = a.waitQueue ∧ a.allocTimer.2.cache = a.cache ∧
    a.allocTimer.2.timers = a.timers := by
  unfold allocTimer
  split <;> exact ⟨rfl, rfl, rfl⟩

theorem lookupCache_allocTimer {ns : List ArpNode} {t : Nat} :
    ((a.allocTimer.2.setQueue ns).addTimer t ip).lookupCache ip' = a.lookupCache ip' := by
  unfold lookupCache addTimer setQueue
  rw [(allocTimer_eq a).2.1]

/-- Each address has at most one node, each node has one timer of its own, and the pool has the rest. -/
structure Timed (a : Arp) : Prop where
  ips : (a.waitQueue.map ArpNode.ip).Nodup
  timers : a.timers.Perm (a.waitQueue.map fun n => (n.timer, n.ip))
  ids : (a.timers.map Prod.fst ++ a.freeTimers).Nodup
  fresh : ∀ t ∈ a.timers.map Prod.fst ++ a.freeTimers, t < a.nextTimer

namespace Timed

theorem init : Arp.init.Timed := ⟨nodup_nil, List.Perm.nil, nodup_nil, fun _ h => absurd h not_mem_nil⟩

section

variable (h : a.Timed)
include h

theorem perm_removeTimer (hn : n ∈ a.waitQueue) :
    a.timers.Perm ((n.timer, n.ip) :: (a.removeTimer n.timer).timers) := by
  have hmem : (n.timer, n.ip) ∈ a.timers := h.timers.mem_iff.mpr (mem_map.mpr ⟨n, hn, rfl⟩)
  obtain ⟨x, l₁, l₂, _, hx, hl, he⟩ := exists_of_eraseP (p := fun x => x.1 = n.timer) hmem (by simp)
  have hxn : x = (n.timer, n.ip) := by
    refine inj_on_of_nodup_map (nodup_append.mp h.ids).1 ?_ hmem (by simpa using hx)
    rw [hl]
    exact mem_append_right _ mem_cons_self
  rw [removeTimer, he, hl, hxn]
  exact perm_middle

theorem perm_atNode (hn : a.find ip = some n) :
    (a.removeTimer n.timer).timers.Perm ((atNode ip (fun _ => []) a.waitQueue).map fun n => (n.timer, n.ip)) := by
  have hp := h.perm_removeTimer (find_mem hn)
  obtain ⟨pre, post, hq, _, _, hat⟩ := find_split hn
  have ht := h.timers
  rw [hq, map_append, map_cons] at ht
  rw [hat, nil_append, map_append]
  exact Perm.cons_inv ((hp.symm.trans ht).trans perm_middle)

theorem replace (hn : a.find ip = some n) {f : ArpNode → List ArpNode} (hf : f n = [m])
    (hm : m.ip = n.ip ∧ m.timer = n.timer) : (a.setQueue (atNode ip f a.waitQueue)).Timed := by
  obtain ⟨pre, post, hq, _, _, hat⟩ := find_split hn
  have hmap : ∀ {β : Type} (g : ArpNode → β), g m = g n → (atNode ip f a.waitQueue).map g = a.waitQueue.map g := by
    intro β g hg
    rw [hat f, hf, hq, map_append, map_append, map_append, map_cons, map_cons, hg]
    rfl
  refine ⟨?_, ?_, h.ids, h.fresh⟩
  · rw [setQueue, hmap _ hm.1]
    exact h.ips
  · rw [setQueue, hmap (fun n => (n.timer, n.ip)) (by rw [hm.1, hm.2])]
    exact h.timers

theorem remove (hn : a.find ip = some n) :
    (((a.removeTimer n.timer).freeTimer n.timer).setQueue (atNode ip (fun _ => []) a.waitQueue)).Timed := by
  have hp := h.perm_removeTimer (find_mem hn)
  have hids : ((a.timers.map Prod.fst) ++ a.freeTimers).Perm
      ((a.removeTimer n.timer).timers.map Prod.fst ++ (n.timer :: a.freeTimers)) :=
    ((hp.map Prod.fst).append_right _).trans perm_middle.symm
  refine ⟨?_, h.perm_atNode hn, hids.nodup_iff.mp h.ids, fun t ht => h.fresh t (hids.mem_iff.mpr ht)⟩
  obtain ⟨pre, post, hq, _, _, hat⟩ := find_split hn
  have hips := h.ips
  rw [hq, map_append, map_cons] at hips
  rw [setQueue, hat, nil_append, map_append]
  exact (nodup_middle.mp hips).of_cons

theorem rearm (hn : n ∈ a.waitQueue) : ((a.removeTimer n.timer).addTimer n.timer n.ip).Timed := by
  have hp : ((a.removeTimer n.timer).addTimer n.timer n.ip).timers.Perm a.timers :=
    (perm_append_singleton _ _).trans (h.perm_removeTimer hn).symm
  have hids := (hp.map Prod.fst).append_right a.freeTimers
  exact ⟨h.ips, hp.trans h.timers, hids.nodup_iff.mpr h.ids, fun t ht => h.fresh t (hids.mem_iff.mp ht)⟩

theorem addToCache (ip : Word) (mac : Mac) : (a.addToCache ip mac).Timed := by
  obtain ⟨h1, h2, h3, h4⟩ := addToCache_eq a ip mac
  refine ⟨?_, ?_, ?_, ?_⟩
  · rw [h1]
    exact h.ips
  · rw [h1, h2]
    exact h.timers
  · rw [h2, h3]
    exact h.ids
  · rw [h2, h3, h4]
    exact h.fresh

theorem allocTimer :
    ((a.allocTimer.2.timers ++ [(a.allocTimer.1, ip)]).map Prod.fst ++ a.allocTimer.2.freeTimers).Nodup ∧
      ∀ t ∈ (a.allocTimer.2.timers ++ [(a.allocTimer.1, ip)]).map Prod.fst ++ a.allocTimer.2.freeTimers,
        t < a.allocTimer.2.nextTimer := by
  have hids := h.ids
  have hfresh := h.fresh
  rw [map_append, map_singleton, append_assoc, singleton_append]
  unfold Arp.allocTimer
  cases hf : a.freeTimers with
  | cons t ts =>
    rw [hf] at hids hfresh
    exact ⟨hids, hfresh⟩
  | nil =>
    rw [hf, append_nil] at hids hfresh
    dsimp only
    refine ⟨nodup_middle.mpr (nodup_cons.mpr ⟨fun hm => ?_, by rwa [append_nil]⟩), fun t ht => ?_⟩
    · rw [append_nil] at hm
      exact Nat.lt_irrefl _ (hfresh _ hm)
    · rcases mem_append.mp ht with ht | ht
      · exact Nat.lt_succ_of_lt (hfresh t ht)
      · rw [mem_singleton] at ht
        omega

theorem push (hn : a.find ip = none) :
    ((a.allocTimer.2.setQueue (a.allocTimer.2.waitQueue ++ [⟨ip, retry, a.allocTimer.1, [b]⟩])).addTimer
      a.allocTimer.1 ip).Timed := by
  obtain ⟨hw, _, ht⟩ := allocTimer_eq a
  obtain ⟨hids, hfresh⟩ := h.allocTimer
  refine ⟨?_, ?_, ?_, ?_⟩
  · change ((a.allocTimer.2.waitQueue ++ [_]).map ArpNode.ip).Nodup
    rw [hw, map_append, map_singleton]
    refine List.Nodup.append h.ips (nodup_singleton _) fun x hx hx' => ?_
    obtain ⟨n, hm, rfl⟩ := mem_map.mp hx
    exact find_eq_none.mp hn n hm (mem_singleton.mp hx')
  · change (a.allocTimer.2.timers ++ [_]).Perm ((a.allocTimer.2.waitQueue ++ [_]).map _)
    rw [hw, ht, map_append, map_singleton]
    exact h.timers.append_right _
  · exact hids
  · exact hfresh

end

end Timed

theorem Timed.turn (h : a.Timed) {x : ArpAct} (hx : a.Enabled x) : a.Turn x (a.handle x).1 (a.handle x).2 := by
  cases x with
  | send ip b =>
    cases hl : a.lookupCache ip with
    | some mac =>
      simp only [handle, send, hl]
      exact .known hl
    | none =>
      cases hn : a.find ip with
      | none =>
        simp only [handle, send, hl, addToWaitQueue, hn]
        exact .new hl hn
      | some n =>
        have hb : b ∉ n.buffers := fun hb => hx (mem_flatMap.mpr ⟨n, find_mem hn, hb⟩)
        simp only [handle, send, hl, addToWaitQueue, hn, if_neg hb]
        exact .wait hl hn
  | reply ip mac =>
    cases hn : a.find ip with
    | none =>
      simp only [handle, receiveReply, processWaitQueue, find_addToCache, hn]
      exact .idle hn
    | some n =>
      simp only [handle, receiveReply, processWaitQueue, find_addToCache, hn, (addToCache_eq a ip mac).1]
      exact .flush hn
  | expire t ip =>
    obtain ⟨m, hm, he⟩ := mem_map.mp (h.timers.mem_iff.mp hx)
    cases hn : a.find ip with
    | none => exact absurd (congrArg Prod.snd he) (find_eq_none.mp hn m hm)
    | some n =>
      rcases Nat.eq_zero_or_pos n.retryTimes with hr | hr
      · simp only [handle, requestTimeout, hn, hr, Nat.lt_irrefl, if_false]
        exact .drop hn hr
      · simp only [handle, requestTimeout, hn, if_pos hr]
        exact .retry hn hr

namespace Turn

variable {x : ArpAct} {a' : Arp} {cs : List ArpCall}

theorem timed (h : a.Turn x a' cs) (ht : a.Timed) : a'.Timed := by
  cases h with
  | known => exact ht
  | wait _ hn => exact ht.replace hn rfl ⟨rfl, rfl⟩
  | new _ hn => exact ht.push hn
  | idle => exact ht.addToCache _ _
  | flush hn =>
    rw [← (addToCache_eq a _ _).1]
    exact (ht.addToCache _ _).remove (find_addToCache.trans hn)
  | retry hn => exact (ht.rearm (find_mem hn)).replace hn rfl ⟨rfl, rfl⟩
  | drop hn => exact ht.remove hn

theorem find_of_ne (h : a.Turn x a' cs) (hne : ip ≠ x.ip) : a'.find ip = a.find ip := by
  cases h with
  | known => rfl
  | wait _ hn | retry hn => exact find_atNode_of_ne hn (by simp [find_ip hn]) hne
  | new _ hn =>
    refine (find_append_of_ne fun e => hne e.symm).trans ?_
    rw [find, (allocTimer_eq a).1]
    rfl
  | idle => exact find_addToCache
  | flush hn | drop hn => exact find_atNode_of_ne hn (by simp) hne

theorem lookupCache_of_ne (h : a.Turn x a' cs) (hne : ip ≠ x.ip) : a'.lookupCache ip = a.lookupCache ip := by
  cases h with
  | known | wait | retry | drop => rfl
  | new => exact lookupCache_allocTimer
  | idle | flush => exact lookupCache_addToCache_of_ne hne

end Turn

/-- What the record has of an address: the batches that waited for it, of which all but the last were dropped
and the last waits or was sent by the first reply. -/
inductive Phase (a : Arp) (ip : Word) (log : ArpLog) (xs : List ArpBatch) : Prop where
  | idle (hn : a.find ip = none) (hl : a.lookupCache ip = none) (ho : ∀ x ∈ xs, x.outcome = .dropped)
      (h : log = xs.flatMap ArpBatch.log)
  | waits (old : List ArpBatch) (n : ArpNode) (m : ArpLog) (hn : a.find ip = some n) (hl : a.lookupCache ip = none)
      (ho : ∀ x ∈ old, x.outcome = .dropped) (hx : xs = old ++ [⟨m, .waiting⟩])
      (h : log = xs.flatMap ArpBatch.log) (hb : ArpLog.queued m = n.buffers)
      (hr : n.retryTimes + ArpLog.expiries m = Arp.retry)
  | known (mac : Mac) (old new : List ArpBatch) (rest : ArpLog) (hn : a.find ip = none)
      (hl : a.lookupCache ip = some mac) (ho : ∀ x ∈ old, x.outcome = .dropped) (hx : xs = old ++ new)
      (hm : ∀ x ∈ new, x.outcome = .sent mac) (hlen : new.length ≤ 1)
      (h : log = xs.flatMap ArpBatch.log ++ rest) (hq : ArpLog.Quiet ip rest)

namespace Phase

variable {log : ArpLog} {xs : List ArpBatch} {a' : Arp} {t : Nat}

theorem of_ne (h : Phase a ip log xs) (hn : a'.find ip = a.find ip) (hl : a'.lookupCache ip = a.lookupCache ip) :
    Phase a' ip log xs := by
  cases h with
  | idle h1 h2 ho h => exact .idle (hn.trans h1) (hl.trans h2) ho h
  | waits old n m h1 h2 ho hx h hb hr => exact .waits old n m (hn.trans h1) (hl.trans h2) ho hx h hb hr
  | known mac old new rest h1 h2 ho hx hm hlen h hq =>
    exact .known mac old new rest (hn.trans h1) (hl.trans h2) ho hx hm hlen h hq

variable {e : ArpAct × List ArpCall} {old : List ArpBatch} {m : ArpLog} {o : ArpOutcome}

theorem quiet (h : Phase a ip log xs) (hl : a.lookupCache ip = some mac)
    (hn : a'.find ip = a.find ip) (hl' : a'.lookupCache ip = some mac) (he : ArpLog.Quiet ip [e]) :
    Phase a' ip (log ++ [e]) xs := by
  cases h with
  | idle _ hnone | waits _ _ _ _ hnone => cases hnone.symm.trans hl
  | known mac' old new rest hnone hsome ho hx hm hlen h hq =>
    cases hsome.symm.trans hl
    refine .known mac old new (rest ++ [e]) (hn.trans hnone) hl' ho hx hm hlen ?_ (hq.append he)
    rw [h, append_assoc]

theorem waits_of_find (h : Phase a ip log xs) (hn : a.find ip = some n) : ∃ old m, a.lookupCache ip = none ∧
    (∀ x ∈ old, x.outcome = .dropped) ∧ xs = old ++ [⟨m, .waiting⟩] ∧ log = xs.flatMap ArpBatch.log ∧
      ArpLog.queued m = n.buffers ∧ n.retryTimes + ArpLog.expiries m = Arp.retry := by
  cases h with
  | idle hnone | known _ _ _ _ hnone => cases hnone.symm.trans hn
  | waits old n' m hn' hl ho hx h hb hr =>
    cases hn'.symm.trans hn
    exact ⟨old, m, hl, ho, hx, h, hb, hr⟩

theorem flatMap_extend {o' : ArpOutcome} : (old ++ [ArpBatch.mk m o]).flatMap ArpBatch.log ++ [e] =
      (old ++ [ArpBatch.mk (m ++ [e]) o']).flatMap ArpBatch.log := by
  rw [flatMap_append, flatMap_append, flatMap_singleton, flatMap_singleton, append_assoc]

theorem extend_ok (hok : ∀ x ∈ old ++ [ArpBatch.mk m .waiting], x.Ok ip)
    (hh : ArpLog.handled [e] = ArpBatch.calls ⟨m ++ [e], o⟩) (hr : ArpLog.firstReply [e] = ArpBatch.reply ⟨m ++ [e], o⟩)
    (he : ArpBatch.Expired ⟨m ++ [e], o⟩)
    (hq : min (ArpLog.expiries m) retry + ArpLog.requests ip [e] = min (ArpLog.expiries m + ArpLog.expiries [e]) retry) :
    ∀ x ∈ old ++ [ArpBatch.mk (m ++ [e]) o], x.Ok ip := by
  obtain ⟨hold, hlast⟩ := forall_mem_append.mp hok
  have hlast := forall_mem_singleton.mp hlast
  refine forall_mem_append.mpr ⟨hold, forall_mem_singleton.mpr ⟨?_, ?_, he, ?_⟩⟩
  · rw [ArpLog.handled_append, hlast.handled, hh]
    rfl
  · rw [ArpLog.firstReply_append, hlast.reply, hr]
    rfl
  · rw [ArpLog.requests_append, ArpLog.expiries_append, hlast.requests, ← hq, Nat.add_assoc]

section

variable (h : Phase a ip log xs) (hok : ∀ x ∈ xs, x.Ok ip) (hn : a.find ip = some n)
include h hok hn

theorem wait : ∃ xs', Phase (a.setQueue (atNode ip (fun n => [{ n with buffers := n.buffers ++ [b] }]) a.waitQueue)) ip
      (log ++ [(.send ip b, [])]) xs' ∧ ∀ x ∈ xs', x.Ok ip := by
  obtain ⟨old, m, hl, ho, rfl, rfl, hb, hr⟩ := h.waits_of_find hn
  have he : ArpLog.expiries [(ArpAct.send ip b, [])] = 0 := rfl
  refine ⟨_, .waits old _ _ (find_atNode_self hn rfl ?_) hl ho rfl flatMap_extend ?_ ?_,
    extend_ok hok rfl rfl ?_ ?_⟩
  · change n.ip = ip
    exact find_ip hn
  · rw [ArpLog.queued_append, hb]
    rfl
  · rw [ArpLog.expiries_append, he]
    exact hr
  · change ArpLog.expiries (m ++ _) ≤ retry
    rw [ArpLog.expiries_append, he]
    omega
  · rw [he]
    rfl

omit h hok hn in
theorem new (h : Phase a ip log xs) (hok : ∀ x ∈ xs, x.Ok ip) (hl : a.lookupCache ip = none)
    (hn : a.find ip = none) (hn' : a'.find ip = some n) (hl' : a'.lookupCache ip = none) (hb : n.buffers = [b])
    (hr : n.retryTimes = retry) :
    ∃ xs', Phase a' ip (log ++ [(.send ip b, [.request ip])]) xs' ∧ ∀ x ∈ xs', x.Ok ip := by
  have hq : ArpLog.requests ip [(ArpAct.send ip b, [ArpCall.request ip])] = 1 := by simp [ArpLog.requests]
  cases h with
  | waits _ _ _ hsome => cases hn.symm.trans hsome
  | known _ _ _ _ _ hsome => cases hl.symm.trans hsome
  | idle _ _ ho h =>
    refine ⟨xs ++ [⟨[(.send ip b, [.request ip])], .waiting⟩], .waits xs n _ hn' hl' ho rfl ?_ ?_ ?_, ?_⟩
    · rw [h, flatMap_append, flatMap_singleton]
    · exact hb.symm
    · exact hr
    · exact forall_mem_append.mpr ⟨hok, forall_mem_singleton.mpr ⟨rfl, rfl, Nat.zero_le _, hq⟩⟩

theorem flush (hn' : a'.find ip = none) (hl' : a'.lookupCache ip = some ((a.lookupCache ip).getD mac)) :
    ∃ xs', Phase a' ip (log ++ [(.reply ip mac, n.buffers.flatMap fun b => [.transmit mac b, .free b])]) xs' ∧
      ∀ x ∈ xs', x.Ok ip := by
  obtain ⟨old, m, hl, ho, rfl, rfl, hb, hr⟩ := h.waits_of_find hn
  rw [hl] at hl'
  set e : ArpAct × List ArpCall := (.reply ip mac, n.buffers.flatMap fun b => [.transmit mac b, .free b])
  have he : ArpLog.expiries [e] = 0 := rfl
  have hqe : ArpLog.queued [e] = [] := rfl
  obtain ⟨hhe, hre⟩ := ArpLog.handled_of_ne ip (e := e) rfl (by simp [e])
  refine ⟨_, .known mac old [⟨m ++ [e], .sent mac⟩] [] hn' hl' ho rfl ?_ (Nat.le_refl 1) ?_ ⟨rfl, rfl, rfl, rfl⟩,
    extend_ok hok ?_ rfl ?_ ?_⟩
  · exact forall_mem_singleton.mpr rfl
  · rw [append_nil]
    exact flatMap_extend
  · rw [hhe, ArpBatch.calls, ArpLog.queued_append, hb, hqe, append_nil]
  · change ArpLog.expiries (m ++ _) ≤ retry
    rw [ArpLog.expiries_append, he]
    omega
  · rw [he, hre, Nat.add_zero, Nat.add_zero]

theorem retry (hr : 0 < n.retryTimes)
    (hn' : a'.find ip = some { n with retryTimes := n.retryTimes - 1 }) (hl' : a'.lookupCache ip = a.lookupCache ip) :
    ∃ xs', Phase a' ip (log ++ [(.expire t ip, [.request ip])]) xs' ∧ ∀ x ∈ xs', x.Ok ip := by
  obtain ⟨old, m, hl, ho, rfl, rfl, hb, hrm⟩ := h.waits_of_find hn
  have he : ArpLog.expiries [(ArpAct.expire t ip, [ArpCall.request ip])] = 1 := rfl
  have hq : ArpLog.requests ip [(ArpAct.expire t ip, [ArpCall.request ip])] = 1 := by simp [ArpLog.requests]
  refine ⟨_, .waits old _ _ hn' (hl'.trans hl) ho rfl flatMap_extend ?_ ?_, extend_ok hok rfl rfl ?_ ?_⟩
  · rw [ArpLog.queued_append, hb]
    exact append_nil _
  · rw [ArpLog.expiries_append, he]
    dsimp only
    omega
  · change ArpLog.expiries (m ++ _) ≤ Arp.retry
    rw [ArpLog.expiries_append, he]
    omega
  · rw [he, hq]
    omega

theorem drop (hr : n.retryTimes = 0) (hn' : a'.find ip = none) (hl' : a'.lookupCache ip = a.lookupCache ip) :
    ∃ xs', Phase a' ip (log ++ [(.expire t ip, n.buffers.map .free)]) xs' ∧ ∀ x ∈ xs', x.Ok ip := by
  obtain ⟨old, m, hl, ho, rfl, rfl, hb, hrm⟩ := h.waits_of_find hn
  set e : ArpAct × List ArpCall := (.expire t ip, n.buffers.map .free)
  have he : ArpLog.expiries [e] = 1 := rfl
  have hqe : ArpLog.queued [e] = [] := rfl
  obtain ⟨hhe, hre⟩ := ArpLog.handled_of_ne ip (e := e) rfl (by simp [e])
  refine ⟨_, .idle hn' (hl'.trans hl) ?_ flatMap_extend, extend_ok (o := .dropped) hok ?_ rfl ?_ ?_⟩
  · exact forall_mem_append.mpr ⟨ho, forall_mem_singleton.mpr rfl⟩
  · rw [hhe, ArpBatch.calls, ArpLog.queued_append, hb, hqe, append_nil]
  · change ArpLog.expiries (m ++ _) = Arp.retry + 1
    rw [ArpLog.expiries_append, he]
    omega
  · rw [he, hre]
    omega

end

theorem idleReply (h : Phase a ip log xs) (hn : a.find ip = none) :
    Phase (a.addToCache ip mac) ip (log ++ [(.reply ip mac, [])]) xs := by
  have hq : ArpLog.Quiet ip [(.reply ip mac, [])] := ⟨rfl, rfl, rfl, rfl⟩
  cases hl : a.lookupCache ip with
  | some mac' =>
    refine h.quiet hl find_addToCache ?_ hq
    rw [lookupCache_addToCache_self, hl]
    rfl
  | none =>
    cases h with
    | waits _ _ _ hsome => cases hn.symm.trans hsome
    | known _ _ _ _ _ hsome => cases hl.symm.trans hsome
    | idle _ _ ho h =>
      refine .known mac xs [] _ (find_addToCache.trans hn) ?_ ho (append_nil xs).symm
        (fun x hx => absurd hx not_mem_nil) (Nat.zero_le 1) (congrArg (· ++ _) h) hq
      rw [lookupCache_addToCache_self, hl]
      rfl

end Phase

namespace Turn

variable {x : ArpAct} {a' : Arp} {cs : List ArpCall} {log : ArpLog} {xs : List ArpBatch}

theorem phase (h : a.Turn x a' cs) (ht : a.Timed) (hx : x.ip = ip) (hp : Phase a ip log xs)
    (hok : ∀ x ∈ xs, x.Ok ip) : ∃ xs', Phase a' ip (log ++ [(x, cs)]) xs' ∧ ∀ x ∈ xs', x.Ok ip := by
  cases hx
  cases h with
  | known hl =>
    refine ⟨xs, hp.quiet hl rfl hl ⟨?_, ?_, rfl, rfl⟩, hok⟩
    · simp [ArpLog.queued, ArpLog.direct]
    · simp [ArpLog.handled, ArpLog.direct]
  | wait _ hn => exact hp.wait hok hn
  | @new ip b hl hn =>
    have hn' : a.allocTimer.2.find ip = none := by
      rw [find, (allocTimer_eq a).1]
      exact hn
    exact hp.new hok hl hn (find_append_of_none hn' rfl) (lookupCache_allocTimer.trans hl) rfl rfl
  | idle hn => exact ⟨xs, hp.idleReply hn, hok⟩
  | flush hn => exact hp.flush hok hn (find_atNode_nil hn ht.ips) lookupCache_addToCache_self
  | @retry ip n t hn hr =>
    refine hp.retry hok hn hr (find_atNode_self hn rfl ?_) rfl
    change n.ip = ip
    exact find_ip hn
  | drop hn hr => exact hp.drop hok hn hr (find_atNode_nil hn ht.ips) rfl

theorem firstReply (h : a.Turn x a' cs) (hx : x.ip = ip) :
    a'.lookupCache ip = (a.lookupCache ip).or (ArpLog.firstReply [(x, cs)]) := by
  cases hx
  cases h with
  | known | wait | retry | drop => exact or_none.symm
  | new => exact lookupCache_allocTimer.trans or_none.symm
  | idle | flush => exact lookupCache_addToCache_self.trans or_some.symm

end Turn

end

end Arp

namespace ArpRun

structure Inv (s : ArpRun) : Prop where
  timed : s.arp.Timed
  cache : ∀ ip, s.arp.lookupCache ip = ArpLog.firstReply (ArpLog.about ip s.log)
  phase : ∀ ip, ∃ xs, Arp.Phase s.arp ip (ArpLog.about ip s.log) xs ∧ ∀ x ∈ xs, x.Ok ip

theorem inv_init : init.Inv :=
  ⟨.init, fun _ => rfl, fun _ => ⟨[], .idle rfl rfl (fun _ h => absurd h not_mem_nil) rfl,
    fun _ h => absurd h not_mem_nil⟩⟩

theorem Inv.step {s s' : ArpRun} {x : ArpAct} (h : s.Inv) (hs : s.step x = some s') : s'.Inv := by
  obtain ⟨hx, he⟩ := ite_none_right_eq_some.mp hs
  cases he
  have ht := h.timed.turn hx
  refine ⟨ht.timed h.timed, fun ip => ?_, fun ip => ?_⟩
  · by_cases hip : ip = x.ip
    · rw [ArpLog.about_of_eq hip.symm, ArpLog.firstReply_append, ← h.cache]
      exact ht.firstReply hip.symm
    · rw [ArpLog.about_of_ne hip, ← h.cache]
      exact ht.lookupCache_of_ne hip
  · obtain ⟨xs, hp, hok⟩ := h.phase ip
    by_cases hip : ip = x.ip
    · rw [ArpLog.about_of_eq hip.symm]
      exact ht.phase h.timed hip.symm hp hok
    · rw [ArpLog.about_of_ne hip]
      exact ⟨xs, hp.of_ne (ht.find_of_ne hip) (ht.lookupCache_of_ne hip), hok⟩

variable {s : ArpRun} {ip : Word}

theorem inv_run {as : List ArpAct} (h : run step init as = some s) : s.Inv :=
  run_invariant (P := fun _ _ => True) (fun _ _ _ hi _ hs => hi.step hs) inv_init (along_true _ _) h

/-- All batches but the last were dropped, only the first reply has sent any, and what waits is the last batch. -/
structure Told (s : ArpRun) (ip : Word) (xs : List ArpBatch) : Prop where
  dropped : ∀ x ∈ xs.dropLast, x.outcome = .dropped
  sent : ∀ x ∈ xs, ∀ mac, x.outcome = .sent mac → ArpLog.firstReply (ArpLog.about ip s.log) = some mac
  waiting : ∀ bs, (∃ n, s.arp.find ip = some n ∧ n.buffers = bs) ↔
    ∃ x ∈ xs, x.outcome = .waiting ∧ ArpLog.queued x.log = bs

theorem mem_of_mem_dropLast {α : Type} {x y : α} {xs : List α} (h : x ∈ (xs ++ [y]).dropLast) : x ∈ xs := by
  rwa [dropLast_concat] at h

theorem Inv.told (h : s.Inv) (ip : Word) : ∃ xs rest, ArpLog.about ip s.log = xs.flatMap ArpBatch.log ++ rest ∧
    ArpLog.Quiet ip rest ∧ (∀ x ∈ xs, x.Ok ip) ∧ s.Told ip xs := by
  obtain ⟨xs, hp, hok⟩ := h.phase ip
  have hquiet : ArpLog.Quiet ip [] := ⟨rfl, rfl, rfl, rfl⟩
  cases hp with
  | idle hn hl ho hlog =>
    refine ⟨xs, [], by rw [hlog, List.append_nil], hquiet, hok, fun x hx => ho x (List.mem_of_mem_dropLast hx), ?_, ?_⟩
    · intro x hx mac hm
      cases (ho x hx).symm.trans hm
    · intro bs
      constructor
      · rintro ⟨n, hsome, _⟩
        cases hn.symm.trans hsome
      · rintro ⟨x, hx, hw, _⟩
        cases (ho x hx).symm.trans hw
  | waits old n m hn hl ho hx hlog hb hr =>
    subst hx
    refine ⟨_, [], by rw [hlog, append_nil], hquiet, hok, fun x hx => ho x (mem_of_mem_dropLast hx), ?_, ?_⟩
    · intro x hx mac hm
      rcases mem_append.mp hx with hx | hx
      · cases (ho x hx).symm.trans hm
      · cases mem_singleton.mp hx
        cases hm
    · intro bs
      constructor
      · rintro ⟨n', hsome, rfl⟩
        cases hn.symm.trans hsome
        exact ⟨_, mem_append_right _ mem_cons_self, rfl, hb⟩
      · rintro ⟨x, hx, hw, rfl⟩
        rcases mem_append.mp hx with hx | hx
        · cases (ho x hx).symm.trans hw
        · cases mem_singleton.mp hx
          exact ⟨n, hn, hb.symm⟩
  | known mac old new rest hn hl ho hx hm hlen hlog hq =>
    subst hx
    refine ⟨_, rest, hlog, hq, hok, fun x hx => ?_, fun x hx mac' hm' => ?_, fun bs => ?_⟩
    · rcases new with _ | ⟨y, _ | ⟨z, zs⟩⟩
      · rw [List.append_nil] at hx
        exact ho x (List.mem_of_mem_dropLast hx)
      · exact ho x (mem_of_mem_dropLast hx)
      · simp at hlen
    · rw [← h.cache, hl]
      rcases mem_append.mp hx with hx | hx
      · cases (ho x hx).symm.trans hm'
      · cases (hm x hx).symm.trans hm'
        rfl
    · constructor
      · rintro ⟨n, hsome, _⟩
        cases hn.symm.trans hsome
      · rintro ⟨x, hx, hw, _⟩
        rcases mem_append.mp hx with hx | hx
        · cases (ho x hx).symm.trans hw
        · cases (hm x hx).symm.trans hw

/-- Over any interleaving of packets, replies and expiries: an address has one node and one timer, and its
record is batch after batch; the packets of each are sent in order to the first reply's address and freed, or
freed after the last retry, or wait. -/
theorem wait_queue_exactly_once {as : List ArpAct} (h : run step init as = some s) :
    (s.arp.waitQueue.map ArpNode.ip).Nodup ∧ (s.arp.timers.map Prod.snd).Nodup ∧
      ∀ ip, ∃ xs rest, ArpLog.about ip s.log = xs.flatMap ArpBatch.log ++ rest ∧ ArpLog.Quiet ip rest ∧
        (∀ x ∈ xs, x.Ok ip ∧ ArpLog.requests ip x.log ≤ 1 + Arp.retry) ∧ s.Told ip xs := by
  have hi := inv_run h
  refine ⟨hi.timed.ips, ?_, fun ip => ?_⟩
  · have hp := hi.timed.timers.map Prod.snd
    rw [List.map_map] at hp
    exact hp.nodup_iff.mpr hi.timed.ips
  · obtain ⟨xs, rest, hlog, hq, hok, ht⟩ := hi.told ip
    refine ⟨xs, rest, hlog, hq, fun x hx => ⟨hok x hx, ?_⟩, ht⟩
    rw [(hok x hx).requests]
    omega

theorem wait_queue_exactly_once_retried : ∃ s,
    run step init [.send 1 4, .send 1 5, .expire 0 1, .reply 1 fun _ => 0] = some s ∧
      s.log.map Prod.snd = [[.request 1], [], [.request 1],
        [.transmit (fun _ => 0) 4, .free 4, .transmit (fun _ => 0) 5, .free 5]] ∧
      ∃ xs rest, ArpLog.about 1 s.log = xs.flatMap ArpBatch.log ++ rest ∧ s.Told 1 xs := by
  obtain ⟨s, hs⟩ : ∃ s, run step init [.send 1 4, .send 1 5, .expire 0 1, .reply 1 fun _ => 0] = some s := ⟨_, rfl⟩
  obtain ⟨xs, rest, hlog, _, _, ht⟩ := (wait_queue_exactly_once hs).2.2 1
  refine ⟨s, hs, ?_, xs, rest, hlog, ht⟩
  cases hs
  rfl

end ArpRun

end BabyOS
