import BabyOS.MmPages
import BabyOS.Bytes
import Mathlib.Algebra.Order.Group.Multiset
import Mathlib.Tactic.Abel

open List Multiset

namespace BabyOS

abbrev Mac := Fin 6 → Byte

/-- `arp_queue_node_t`, with its timer and the buffers that wait for the address. -/
structure ArpNode where
  ip : Word
  retryTimes : Nat
  timer : Nat
  buffers : List Nat
  deriving DecidableEq

/-- `arp_t`, with the timers of `m_timer_list` that are its own, each with its `m_data`, and the timer pool. -/
structure Arp where
  cache : List (Word × Mac)
  waitQueue : List ArpNode
  timers : List (Nat × Word)
  freeTimers : List Nat
  nextTimer : Nat

/-- What `arp_t` has done by the rest of the system: a waiting buffer sent or freed, an ARP request made. -/
inductive ArpCall where
  | transmit (mac : Mac) (b : Nat)
  | free (b : Nat)
  | request (ip : Word)
  deriving DecidableEq

def atNode (ip : Word) (f : ArpNode → List ArpNode) : List ArpNode → List ArpNode
  | [] => []
  | n :: ns => if n.ip = ip then f n ++ ns else n :: atNode ip f ns

namespace Arp

def init : Arp := ⟨[], [], [], [], 0⟩

def retry : Nat := 3

def lookupCache (a : Arp) (ip : Word) : Option Mac := (a.cache.find? fun line => line.1 = ip).map Prod.snd

def addToCache (a : Arp) (ip : Word) (mac : Mac) : Arp :=
  match a.cache.find? fun line => line.1 = ip with
  | some _ => a
  | none => { a with cache := (ip, mac) :: a.cache }

def find (a : Arp) (ip : Word) : Option ArpNode := a.waitQueue.find? fun n => n.ip = ip

def allocTimer (a : Arp) : Nat × Arp :=
  match a.freeTimers with
  | [] => (a.nextTimer, { a with nextTimer := a.nextTimer + 1 })
  | t :: ts => (t, { a with freeTimers := ts })

def freeTimer (a : Arp) (t : Nat) : Arp := { a with freeTimers := t :: a.freeTimers }

def addTimer (a : Arp) (t : Nat) (ip : Word) : Arp := { a with timers := a.timers ++ [(t, ip)] }

def removeTimer (a : Arp) (t : Nat) : Arp := { a with timers := a.timers.eraseP fun x => x.1 = t }

def setQueue (a : Arp) (ns : List ArpNode) : Arp := { a with waitQueue := ns }

def addToWaitQueue (a : Arp) (ip : Word) (b : Nat) : Arp × List ArpCall :=
  match a.find ip with
  | some n =>
    if b ∈ n.buffers then (a, [])
    else (a.setQueue (atNode ip (fun n => [{ n with buffers := n.buffers ++ [b] }]) a.waitQueue), [])
  | none =>
    let x := a.allocTimer
    ((x.2.setQueue (x.2.waitQueue ++ [⟨ip, retry, x.1, [b]⟩])).addTimer x.1 ip, [.request ip])

def processWaitQueue (a : Arp) (ip : Word) (mac : Mac) : Arp × List ArpCall :=
  match a.find ip with
  | none => (a, [])
  | some n =>
    (((a.removeTimer n.timer).freeTimer n.timer).setQueue (atNode ip (fun _ => []) a.waitQueue),
      n.buffers.flatMap fun b => [.transmit mac b, .free b])

def requestTimeout (a : Arp) (ip : Word) : Arp × List ArpCall :=
  match a.find ip with
  | none => (a, [])
  | some n =>
    let a := a.removeTimer n.timer
    if 0 < n.retryTimes then
      ((a.addTimer n.timer n.ip).setQueue
        (atNode ip (fun n => [{ n with retryTimes := n.retryTimes - 1 }]) a.waitQueue), [.request ip])
    else
      ((a.freeTimer n.timer).setQueue (atNode ip (fun _ => []) a.waitQueue), n.buffers.map .free)

def waiting (a : Arp) : List Nat := a.waitQueue.flatMap ArpNode.buffers

section

variable {a : Arp} {ip : Word} {mac : Mac} {n : ArpNode} {b : Nat}

theorem find_split (h : a.find ip = some n) : ∃ pre post, a.waitQueue = pre ++ n :: post ∧ n.ip = ip ∧
    (∀ m ∈ pre, m.ip ≠ ip) ∧ ∀ f, atNode ip f a.waitQueue = pre ++ (f n ++ post) := by
  unfold find at h
  generalize a.waitQueue = ns at h
  induction ns with
  | nil => cases h
  | cons m ns ih =>
    by_cases hm : m.ip = ip
    · rw [List.find?_cons_of_pos (by exact decide_eq_true hm)] at h
      cases h
      refine ⟨[], ns, rfl, hm, fun m hm => absurd hm not_mem_nil, fun f => ?_⟩
      rw [atNode, if_pos hm, nil_append]
    · rw [List.find?_cons_of_neg (by simpa using hm)] at h
      obtain ⟨pre, post, hns, hip, hpre, hat⟩ := ih h
      refine ⟨m :: pre, post, by rw [hns]; rfl, hip, ?_, fun f => ?_⟩
      · intro k hk
        rcases mem_cons.mp hk with rfl | hk
        · exact hm
        · exact hpre k hk
      · rw [atNode, if_neg hm, hat f]
        rfl

theorem waiting_atNode (h : a.find ip = some n) (f : ArpNode → List ArpNode) :
    ((a.setQueue (atNode ip f a.waitQueue)).waiting : Multiset Nat) + n.buffers =
      (a.waiting : Multiset Nat) + (f n).flatMap ArpNode.buffers := by
  obtain ⟨pre, post, hns, -, -, hat⟩ := find_split h
  unfold waiting setQueue
  rw [hat f, hns]
  simp only [flatMap_append, flatMap_cons, ← coe_add]
  abel

def freedBy : List ArpCall → List Nat
  | [] => []
  | .free b :: cs => b :: freedBy cs
  | _ :: cs => freedBy cs

theorem freedBy_flatMap (bs : List Nat) : freedBy (bs.flatMap fun b => [.transmit mac b, .free b]) = bs := by
  induction bs with
  | nil => rfl
  | cons b bs ih => exact congrArg (b :: ·) ih

theorem freedBy_map (bs : List Nat) : freedBy (bs.map .free) = bs := by
  induction bs with
  | nil => rfl
  | cons b bs ih => exact congrArg (b :: ·) ih

theorem waiting_addToCache : (a.addToCache ip mac).waiting = a.waiting := by
  unfold addToCache
  split <;> rfl

theorem waiting_addToWaitQueue (ip : Word) (hb : b ∉ a.waiting) :
    ((a.addToWaitQueue ip b).1.waiting : Multiset Nat) = b ::ₘ (a.waiting : Multiset Nat) ∧
      freedBy (a.addToWaitQueue ip b).2 = [] := by
  unfold addToWaitQueue
  cases hn : a.find ip with
  | none =>
    refine ⟨?_, rfl⟩
    unfold allocTimer
    cases a.freeTimers <;>
      simp only [waiting, setQueue, addTimer, flatMap_append, flatMap_singleton, ← coe_add,
        coe_singleton, ← singleton_add] <;> abel
  | some n =>
    have hbn : b ∉ n.buffers := by
      obtain ⟨pre, post, hns, -⟩ := find_split hn
      intro hm
      refine hb (mem_flatMap.mpr ⟨n, ?_, hm⟩)
      rw [hns]
      exact mem_append_right _ mem_cons_self
    dsimp only
    rw [if_neg hbn]
    refine ⟨?_, rfl⟩
    have hw := waiting_atNode hn fun n => [{ n with buffers := n.buffers ++ [b] }]
    rw [flatMap_singleton, ← coe_add, ← add_assoc, add_right_comm] at hw
    have hw := add_right_cancel hw
    rw [hw, coe_singleton, add_comm, singleton_add]

theorem waiting_processWaitQueue : ((a.processWaitQueue ip mac).1.waiting : Multiset Nat) +
    freedBy (a.processWaitQueue ip mac).2 = (a.waiting : Multiset Nat) := by
  unfold processWaitQueue
  cases hn : a.find ip with
  | none => exact add_zero _
  | some n =>
    rw [freedBy_flatMap]
    exact (waiting_atNode hn fun _ => []).trans (add_zero _)

theorem waiting_requestTimeout : ((a.requestTimeout ip).1.waiting : Multiset Nat) +
    freedBy (a.requestTimeout ip).2 = (a.waiting : Multiset Nat) := by
  unfold requestTimeout
  cases hn : a.find ip with
  | none => exact add_zero _
  | some n =>
    dsimp only
    by_cases hr : 0 < n.retryTimes
    · rw [if_pos hr]
      have hw := waiting_atNode hn fun n => [{ n with retryTimes := n.retryTimes - 1 }]
      rw [flatMap_singleton] at hw
      exact (add_zero _).trans (add_right_cancel hw)
    · rw [if_neg hr]
      rw [freedBy_map]
      exact (waiting_atNode hn fun _ => []).trans (add_zero _)

end

end Arp

end BabyOS
