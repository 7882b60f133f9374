import BabyOS.StreamLink
import BabyOS.Runs

open Function List Option

namespace BabyOS

open StreamSocket

/-- Two connected sockets, with the process that closes each and what is left of its `tcp_close`. -/
structure Closing where
  link : Link
  pid : Bool → Nat
  todo : Bool → Option (List SockStmt)

namespace Closing

inductive Act where
  | call (e : Bool)
  | stmt (e : Bool)
  | deliver (e : Bool)
  deriving DecidableEq

def Blocked (c : Closing) (e : Bool) : Prop := c.pid e ∈ (c.link.sock e).sem.waitList

instance blockedDecidable (c : Closing) (e : Bool) : Decidable (c.Blocked e) :=
  inferInstanceAs (Decidable (_ ∈ _))

def setLink (c : Closing) (l : Link) : Closing := { c with link := l }

def setTodo (c : Closing) (e : Bool) (xs : List SockStmt) : Closing :=
  { c with todo := update c.todo e (some xs) }

def step (c : Closing) : Act → Option Closing
  | .call e => match c.todo e with
    | none => some (c.setTodo e ((c.link.sock e).tcpClose (c.pid e)))
    | some _ => none
  | .stmt e => match c.todo e with
    | some (x :: xs) =>
      if c.Blocked e then none
      else (c.link.exec e x).map fun l => (c.setTodo e xs).setLink l
    | _ => none
  | .deliver e => (c.link.deliver e).map fun l => c.setLink l

/-- An end waits in its close while nothing is on its way and the other end has no step of a close to take. -/
def Wedged (c : Closing) : Prop :=
  ∃ e, c.todo e ≠ none ∧ c.Blocked e ∧ c.link.chan e = [] ∧ c.link.chan (!e) = [] ∧ c.step (.stmt (!e)) = none

/-- A FIN is sent by `tcp_close` only while the socket is still established and no FIN is on its way to it. -/
def Careful (c : Closing) : Act → Prop
  | .stmt e => ∀ xs, c.todo e = some (.fin :: xs) →
      (c.link.sock e).tcpState = .established ∧ ∀ p ∈ c.link.chan e, p.flags.fin = false
  | _ => True

/-- Two ends that are connected to each other, with nothing on its way and nobody waiting. -/
structure Connected (c : Closing) : Prop where
  linked : c.link.Linked
  live : ∀ e, (c.link.sock e).ref ≠ 0
  established : ∀ e, (c.link.sock e).tcpState = .established
  sem : ∀ e, (c.link.sock e).sem.waitList = []
  chan : ∀ e, c.link.chan e = []
  todo : ∀ e, c.todo e = none

section

variable {c c' : Closing} {e : Bool}

variable {xs : List SockStmt}

theorem setTodo_self : (c.setTodo e xs).todo e = some xs := by
  simp only [setTodo, update_self]

theorem setTodo_of_ne {d : Bool} (h : d ≠ e) : (c.setTodo e xs).todo d = c.todo d := by
  simp only [setTodo, update_of_ne h]

theorem setTodo_not : (c.setTodo e xs).todo (!e) = c.todo (!e) :=
  setTodo_of_ne (Bool.not_ne_self e)

structure Apart (c c' : Closing) (e : Bool) : Prop where
  sock : c'.link.sock e = c.link.sock e
  todo : c'.todo e = c.todo e
  pid : c'.pid e = c.pid e

/-- A statement of the close at an end has been taken, with what it did to the socket and what it sent. -/
structure Took (c c' : Closing) (e : Bool) (xs : List SockStmt) (y : StreamSocket × List TcpSend) : Prop where
  sock : c'.link.sock e = y.1
  todo : c'.todo e = some xs
  pid : c'.pid e = c.pid e
  chan : c'.link.chan e = c.link.chan e
  sent : c'.link.chan (!e) = c.link.chan (!e) ++ y.2.filter TcpSend.fits
  apart : c.Apart c' (!e)

/-- A segment has come in at an end, with what it did to the socket and what it was answered with. -/
structure Came (c c' : Closing) (e : Bool) (ps : List TcpSend) (y : StreamSocket × List TcpSend) : Prop where
  sock : c'.link.sock e = y.1
  todo : c'.todo e = c.todo e
  pid : c'.pid e = c.pid e
  chan : c'.link.chan e = ps
  sent : c'.link.chan (!e) = c.link.chan (!e) ++ y.2.filter TcpSend.fits
  apart : c.Apart c' (!e)

theorem step_call (h : c.step (.call e) = some c') : c.todo e = none ∧
    c' = c.setTodo e ((c.link.sock e).tcpClose (c.pid e)) := by
  cases ht : c.todo e with
  | none =>
    simp only [step, ht] at h
    exact ⟨rfl, (some.inj h).symm⟩
  | some xs =>
    simp only [step, ht] at h
    cases h

theorem step_stmt_link (h : c.step (.stmt e) = some c') : ∃ x xs l, c.todo e = some (x :: xs) ∧ ¬c.Blocked e ∧
    c.link.exec e x = some l ∧ (c.setTodo e xs).setLink l = c' := by
  match ht : c.todo e with
  | none | some [] =>
    simp only [step, ht] at h
    cases h
  | some (x :: xs) =>
    simp only [step, ht] at h
    split at h
    · cases h
    · next hb =>
      obtain ⟨l, hl, hc⟩ := map_eq_some_iff.mp h
      exact ⟨x, xs, l, rfl, hb, hl, hc⟩

theorem step_stmt (h : c.step (.stmt e) = some c') : ∃ x xs y, c.todo e = some (x :: xs) ∧ ¬c.Blocked e ∧
    (c.link.sock e).exec x = some y ∧ c.Took c' e xs y := by
  obtain ⟨x, xs, l, ht, hb, hl, rfl⟩ := step_stmt_link h
  obtain ⟨y, hy, rfl⟩ := map_eq_some_iff.mp hl
  exact ⟨x, xs, y, ht, hb, hy, Link.put_sock_self, setTodo_self, rfl, Link.put_chan_self, Link.put_chan_not,
    Link.put_sock_not, setTodo_not, rfl⟩

theorem step_deliver (h : c.step (.deliver e) = some c') : ∃ p ps, c.link.chan e = p :: ps ∧
    c.Came c' e ps ((c.link.sock e).deliver p (c.link.ip (!e))) := by
  obtain ⟨l, hl, rfl⟩ := map_eq_some_iff.mp h
  obtain ⟨p, ps, hc, rfl⟩ := Link.deliver_some hl
  exact ⟨p, ps, hc, Link.put_sock_self, rfl, rfl, Link.put_chan_self.trans Link.setChan_self,
    Link.put_chan_not.trans (congrArg (· ++ _) Link.setChan_not), Link.put_sock_not, rfl, rfl⟩

end

structure Passive (c : Closing) (e : Bool) : Prop where
  live : (c.link.sock e).ref ≠ 0
  sem : (c.link.sock e).sem.waitList = []
  todo : (c.todo e = none ∨ c.todo e = some (closeBody (c.pid e))) ∨
    (c.link.sock e).tcpState ≠ .established ∧ (c.todo e = some [.setState .closed] ∨ c.todo e = some [])

/-- A close that will not sleep, or has been woken, after its first `k` statements. -/
structure Awake (c : Closing) (e : Bool) (k : Nat) : Prop where
  todo : c.todo e = some ((closeBody (c.pid e)).drop k)
  sent : 1 ≤ k
  sem : (c.link.sock e).sem.waitList = []
  count : k < 3 → 0 < (c.link.sock e).sem.count

/-- A close that has sent its FIN and has not been woken, with the state it is or will be in while it sleeps. -/
structure Waits (c : Closing) (e : Bool) (st : TcpState) (k : Nat) : Prop where
  todo : c.todo e = some ((closeBody (c.pid e)).drop k)
  live : (c.link.sock e).ref ≠ 0
  at_k : k = 1 ∧ st = .finWait1 ∧ (c.link.sock e).tcpState = .established ∧
      (c.link.sock e).sem.waitList = [] ∨
    k = 2 ∧ (c.link.sock e).tcpState = st ∧ (c.link.sock e).sem.waitList = [] ∨
    k = 3 ∧ (c.link.sock e).tcpState = st ∧ (c.link.sock e).sem.waitList = [c.pid e]

/-- What will wake the close at an end: the FIN on its way to the other end, or the answer to it. -/
inductive Served (c : Closing) (e : Bool) : Prop where
  | awake (k : Nat) : c.Awake e k → Served c e
  | asked (p : TcpSend) (k : Nat) : c.Waits e .finWait1 k → p.flags.fin = true → c.link.chan (!e) = [p] →
      c.link.chan e = [] → (c.link.sock (!e)).tcpState = .established → Served c e
  | answered (q q' : TcpSend) (k : Nat) : c.Waits e .finWait1 k → q.flags.fin = false → q.flags.ack = true →
      q'.flags.fin = true → c.link.chan (!e) = [] → c.link.chan e = [q, q'] → Served c e
  | acked (q : TcpSend) (k : Nat) : c.Waits e .finWait2 k → q.flags.fin = true → c.link.chan (!e) = [] →
      c.link.chan e = [q] → Served c e

structure Active (c : Closing) (e : Bool) : Prop where
  passive : c.Passive (!e)
  fin : (c.link.sock (!e)).tcpState = .established → ∃ p ∈ c.link.chan (!e), p.flags.fin = true
  served : c.Served e

structure Idle (c : Closing) : Prop where
  live : ∀ e, (c.link.sock e).ref ≠ 0
  established : ∀ e, (c.link.sock e).tcpState = .established
  sem : ∀ e, (c.link.sock e).sem.waitList = []
  chan : ∀ e, c.link.chan e = []
  todo : ∀ e, c.todo e = none ∨ c.todo e = some (closeBody (c.pid e))

structure Inv (c : Closing) : Prop where
  linked : c.link.Linked
  phase : c.Idle ∨ ∃ e, c.Active e

section

variable {c c' : Closing} {e : Bool}

theorem Connected.inv (h : c.Connected) : c.Inv :=
  ⟨h.linked, Or.inl ⟨h.live, h.established, h.sem, h.chan, fun e => Or.inl (h.todo e)⟩⟩

theorem Inv.not_wedged (h : c.Inv) : ¬c.Wedged := by
  rintro ⟨e, -, hb, he, hne, -⟩
  have hblocked : ∀ {d}, c.Blocked d → (c.link.sock d).sem.waitList ≠ [] := by
    intro d hd hn
    rw [Blocked, hn] at hd
    cases hd
  rcases h.phase with hi | ⟨a, ha⟩
  · exact hblocked hb (hi.sem e)
  · have hae : e = a := by
      by_contra hn
      have he' : e = !a := Bool.eq_not.mpr hn
      rw [he'] at hb
      exact hblocked hb ha.passive.sem
    subst hae
    cases ha.served with
    | awake k hk => exact hblocked hb hk.sem
    | asked p k _ _ hc => rw [hc] at hne; cases hne
    | answered q q' k _ _ _ _ _ hc | acked q k _ _ _ hc => rw [hc] at he; cases he

theorem Passive.apart (h : c.Passive e) (ha : c.Apart c' e) : c'.Passive e := by
  refine ⟨?_, ?_, ?_⟩
  · rw [ha.sock]
    exact h.live
  · rw [ha.sock]
    exact h.sem
  · rw [ha.sock, ha.todo, ha.pid]
    exact h.todo

variable {k : Nat} {st : TcpState} {d : Bool} {x : SockStmt} {xs : List SockStmt}
  {y : StreamSocket × List TcpSend} {s : Semaphore}

theorem Awake.apart (h : c.Awake e k) (ha : c.Apart c' e) : c'.Awake e k := by
  refine ⟨?_, h.sent, ?_, ?_⟩
  · rw [ha.todo, ha.pid]
    exact h.todo
  · rw [ha.sock]
    exact h.sem
  · rw [ha.sock]
    exact h.count

theorem Waits.apart (h : c.Waits e st k) (ha : c.Apart c' e) : c'.Waits e st k := by
  refine ⟨?_, ?_, ?_⟩
  · rw [ha.todo, ha.pid]
    exact h.todo
  · rw [ha.sock]
    exact h.live
  · rw [ha.sock, ha.pid]
    exact h.at_k

theorem Served.todo_ne (h : c.Served e) : c.todo e ≠ none := by
  cases h with
  | awake k hk | asked p k hk | answered q q' k hk | acked q k hk => rw [hk.todo]; exact some_ne_none _

theorem Idle.call (h : c.Idle) (hs : c.step (.call e) = some c') : c'.Idle := by
  obtain ⟨-, rfl⟩ := step_call hs
  refine ⟨h.live, h.established, h.sem, h.chan, (Link.forall_end e).mpr ⟨?_, ?_⟩⟩
  · right
    rw [setTodo_self, StreamSocket.tcpClose, if_neg (not_not_intro (h.established e))]
    rfl
  · rw [setTodo_not]
    exact h.todo (!e)

theorem Idle.stmt (h : c.Idle) (hs : c.step (.stmt e) = some c') : c'.Active e := by
  obtain ⟨x, xs, y, ht, -, hy, hk⟩ := step_stmt hs
  have hbody := (h.todo e).resolve_left (by rw [ht]; exact some_ne_none _)
  rw [ht] at hbody
  cases some.inj hbody
  cases some.inj hy
  have hsent := hk.sent
  rw [h.chan (!e), nil_append] at hsent
  refine ⟨Passive.apart ⟨h.live (!e), h.sem (!e), Or.inl (h.todo (!e))⟩ hk.apart, ?_, ?_⟩
  · intro _
    rw [hsent]
    exact ⟨_, mem_singleton_self _, rfl⟩
  · refine .asked _ 1 ⟨?_, ?_, Or.inl ⟨rfl, rfl, ?_, ?_⟩⟩ rfl hsent (hk.chan.trans (h.chan e)) ?_
    · rw [hk.todo, hk.pid]
      rfl
    · rw [hk.sock]
      exact h.live e
    · rw [hk.sock]
      exact h.established e
    · rw [hk.sock]
      exact h.sem e
    · rw [hk.apart.sock]
      exact h.established (!e)

theorem Passive.call (h : c.Passive e) (hs : c.step (.call e) = some c') : c'.Passive e := by
  obtain ⟨-, rfl⟩ := step_call hs
  refine ⟨h.live, h.sem, ?_⟩
  rw [setTodo_self]
  by_cases hst : (c.link.sock e).tcpState = .established
  · rw [StreamSocket.tcpClose, if_neg (not_not_intro hst)]
    exact Or.inl (Or.inr rfl)
  · rw [StreamSocket.tcpClose, if_pos hst]
    exact Or.inr ⟨hst, Or.inl rfl⟩

theorem Served.other (h : c.Served e) (ha : c.Apart c' e) (hc : c'.link.chan e = c.link.chan e)
    (hc' : c'.link.chan (!e) = c.link.chan (!e)) (hst : (c.link.sock (!e)).tcpState = .established →
      (c'.link.sock (!e)).tcpState = .established) : c'.Served e := by
  cases h with
  | awake k hk => exact .awake k (hk.apart ha)
  | asked p k hk hp h1 h2 h3 => exact .asked p k (hk.apart ha) hp (hc'.trans h1) (hc.trans h2) (hst h3)
  | answered q q' k hk hq hq' hq'' h1 h2 =>
    exact .answered q q' k (hk.apart ha) hq hq' hq'' (hc'.trans h1) (hc.trans h2)
  | acked q k hk hq h1 h2 => exact .acked q k (hk.apart ha) hq (hc'.trans h1) (hc.trans h2)

theorem Active.call (h : c.Active e) (hs : c.step (.call d) = some c') : c'.Active e := by
  by_cases hd : d = e
  · subst hd
    exact absurd (step_call hs).1 h.served.todo_ne
  · have hd' : d = !e := Bool.eq_not.mpr hd
    subst hd'
    have hp := h.passive.call hs
    obtain ⟨-, rfl⟩ := step_call hs
    exact ⟨hp, h.fin, h.served.other ⟨rfl, setTodo_of_ne (Bool.not_ne_self e).symm, rfl⟩ rfl rfl id⟩

theorem Waits.stmt (h : c.Waits e st k) (ht : c.todo e = some (x :: xs)) (hb : ¬c.Blocked e)
    (hy : (c.link.sock e).exec x = some y) (hk : c.Took c' e xs y) :
    y.2 = [] ∧ ((∃ k', c'.Awake e k') ∨ ∃ k', c'.Waits e st k') := by
  have htodo := h.todo
  rw [ht] at htodo
  rcases h.at_k with ⟨rfl, rfl, hst, hsem⟩ | ⟨rfl, hst, hsem⟩ | ⟨rfl, hst, hsem⟩
  · cases some.inj htodo
    cases some.inj hy
    refine ⟨rfl, Or.inr ⟨2, ⟨?_, ?_, Or.inr (Or.inl ⟨rfl, ?_, ?_⟩)⟩⟩⟩
    · rw [hk.todo, hk.pid]
      rfl
    · rw [hk.sock]
      exact h.live
    · rw [hk.sock]
      rfl
    · rw [hk.sock]
      exact hsem
  · cases some.inj htodo
    cases some.inj hy
    refine ⟨rfl, ?_⟩
    have htodo' : c'.todo e = some ((closeBody (c'.pid e)).drop 3) := by
      rw [hk.todo, hk.pid]
      rfl
    have hsock : (c'.link.sock e).sem = (c.link.sock e).sem.down (c.pid e) := by rw [hk.sock]
    by_cases hc : 0 < (c.link.sock e).sem.count
    · left
      refine ⟨3, htodo', by omega, ?_, fun hlt => absurd hlt (by omega)⟩
      rw [hsock, Semaphore.down, if_pos hc]
      exact hsem
    · right
      refine ⟨3, htodo', ?_, Or.inr (Or.inr ⟨rfl, ?_, ?_⟩)⟩
      · rw [hk.sock]
        exact h.live
      · rw [hk.sock]
        exact hst
      · rw [hsock, Semaphore.down, if_neg hc, hsem, hk.pid]
        rfl
  · exfalso
    apply hb
    rw [Blocked, hsem]
    exact mem_singleton_self _

theorem Awake.stmt (h : c.Awake e k) (ht : c.todo e = some (x :: xs)) (hy : (c.link.sock e).exec x = some y)
    (hk : c.Took c' e xs y) : c'.Awake e (k + 1) := by
  have htodo := h.todo
  have hsent := h.sent
  rw [ht] at htodo
  have hlt : k < 6 := by
    by_contra hge
    rw [drop_eq_nil_of_le (show (closeBody (c.pid e)).length ≤ k from Nat.le_of_not_lt hge)] at htodo
    cases some.inj htodo
  have hrest : c'.todo e = some ((closeBody (c'.pid e)).drop (k + 1)) := by
    rw [hk.todo, hk.pid, ← drop_drop, drop_one, ← some.inj htodo]
    rfl
  have hsem : (c'.link.sock e).sem.waitList = [] ∧ (k = 1 → (c'.link.sock e).sem.count = (c.link.sock e).sem.count) := by
    rw [hk.sock]
    interval_cases k
    · cases some.inj htodo
      cases some.inj hy
      exact ⟨h.sem, fun _ => rfl⟩
    · cases some.inj htodo
      cases some.inj hy
      refine ⟨?_, fun hk => absurd hk (by decide)⟩
      change ((c.link.sock e).sem.down (c.pid e)).waitList = []
      rw [Semaphore.down, if_pos (h.count (by decide))]
      exact h.sem
    all_goals
      cases some.inj htodo
      cases some.inj hy
      exact ⟨h.sem, fun hk => absurd hk (by decide)⟩
  refine ⟨hrest, by omega, hsem.1, ?_⟩
  intro hk3
  rw [hsem.2 (by omega)]
  exact h.count (by omega)

theorem Served.stmt (h : c.Served e) (hs : c.step (.stmt e) = some c') : c'.Served e := by
  obtain ⟨x, xs, y, ht, hb, hy, hk⟩ := step_stmt hs
  have happ := hk.apart.sock
  cases h with
  | awake k hw => exact .awake (k + 1) (hw.stmt ht hy hk)
  | asked p k hw hp h1 h2 h3 =>
    obtain ⟨hout, ⟨k', hw'⟩ | ⟨k', hw'⟩⟩ := hw.stmt ht hb hy hk
    · exact .awake k' hw'
    · refine .asked p k' hw' hp ?_ (hk.chan.trans h2) (by rw [happ]; exact h3)
      rw [hk.sent, hout, filter_nil, append_nil, h1]
  | answered q q' k hw hq hq' hq'' h1 h2 =>
    obtain ⟨hout, ⟨k', hw'⟩ | ⟨k', hw'⟩⟩ := hw.stmt ht hb hy hk
    · exact .awake k' hw'
    · refine .answered q q' k' hw' hq hq' hq'' ?_ (hk.chan.trans h2)
      rw [hk.sent, hout, filter_nil, append_nil, h1]
  | acked q k hw hq h1 h2 =>
    obtain ⟨hout, ⟨k', hw'⟩ | ⟨k', hw'⟩⟩ := hw.stmt ht hb hy hk
    · exact .awake k' hw'
    · refine .acked q k' hw' hq ?_ (hk.chan.trans h2)
      rw [hk.sent, hout, filter_nil, append_nil, h1]

theorem Active.stmt (h : c.Active e) (hd : c.Careful (.stmt d)) (hs : c.step (.stmt d) = some c') : c'.Active e := by
  by_cases hde : d = e
  · subst hde
    have hserved := h.served.stmt hs
    obtain ⟨x, xs, y, -, -, -, hk⟩ := step_stmt hs
    refine ⟨h.passive.apart hk.apart, ?_, hserved⟩
    intro hst
    rw [hk.apart.sock] at hst
    obtain ⟨p, hp, hfin⟩ := h.fin hst
    rw [hk.sent]
    exact ⟨p, mem_append_left _ hp, hfin⟩
  · have hd' : d = !e := Bool.eq_not.mpr hde
    subst hd'
    obtain ⟨x, xs, y, ht, -, hy, hk⟩ := step_stmt hs
    have hapart := hk.apart
    have hsent := hk.sent
    rw [Bool.not_not] at hapart hsent
    rcases h.passive.todo with (hn | hb) | ⟨hne, hc | hn⟩
    · rw [ht] at hn
      cases hn
    · rw [ht] at hb
      cases some.inj hb
      obtain ⟨hst, hno⟩ := hd _ ht
      obtain ⟨p, hp, hfin⟩ := h.fin hst
      rw [hno p hp] at hfin
      cases hfin
    · rw [ht] at hc
      cases some.inj hc
      cases some.inj hy
      have hclosed : (c'.link.sock (!e)).tcpState = .closed := by
        rw [hk.sock]
        rfl
      refine ⟨⟨?_, ?_, Or.inr ⟨?_, Or.inr hk.todo⟩⟩, ?_, ?_⟩
      · rw [hk.sock]
        exact h.passive.live
      · rw [hk.sock]
        exact h.passive.sem
      · rw [hclosed]
        decide
      · intro hst
        rw [hclosed] at hst
        cases hst
      · exact h.served.other hapart (hsent.trans (append_nil _)) hk.chan fun hst => absurd hst hne
    · rw [ht] at hn
      cases hn

theorem waitList_nil_of_up {s' : Semaphore} (h : s.waitList = []) (hs : s' = s ∨ s' = s.up) :
    s'.waitList = [] ∧ s.count ≤ s'.count := by
  rcases hs with rfl | rfl
  · exact ⟨h, le_refl _⟩
  · rw [Semaphore.up, h]
    exact ⟨rfl, Nat.le_succ _⟩

theorem up_waitList_nil (h : s.waitList = []) : s.up.waitList = [] :=
  (waitList_nil_of_up h (Or.inr rfl)).1

theorem up_count (h : s.waitList = []) : 0 < s.up.count := by
  rw [Semaphore.up, h]
  exact Nat.succ_pos _

theorem Passive.deliver (h : c.Passive e) (hl : c.link.Linked) (hs : c.step (.deliver e) = some c') :
    c'.Passive e := by
  obtain ⟨p, ps, hc, hk⟩ := step_deliver hs
  obtain ⟨hr, -, hsem, -⟩ := deliver_sends (c.link.sock e) p (c.link.ip (!e))
  rw [← hk.sock] at hr hsem
  refine ⟨by rw [hr.ref]; exact h.live, (waitList_nil_of_up h.sem hsem).1, ?_⟩
  rw [hk.todo, hk.pid]
  refine h.todo.imp_right fun ht => ⟨?_, ht.2⟩
  intro hst
  rw [hk.sock] at hst
  exact ht.1 (deliver_established h.live (hl.seg e p (hc ▸ mem_cons_self)) hst).1

theorem Served.deliver (h : c.Served e) (hl : c.link.Linked) (hs : c.step (.deliver e) = some c') :
    c'.Served e := by
  obtain ⟨p, ps, hc, hk⟩ := step_deliver hs
  have hseg := hl.seg e p (hc ▸ mem_cons_self)
  have hip : (c.link.sock e).peerAddr.ip = htonl (c.link.ip (!e)) := by rw [hl.peer e]
  cases h with
  | awake k hw =>
    obtain ⟨-, -, hsem, -⟩ := deliver_sends (c.link.sock e) p (c.link.ip (!e))
    rw [← hk.sock] at hsem
    obtain ⟨h1, h2⟩ := waitList_nil_of_up hw.sem hsem
    refine .awake k ⟨?_, hw.sent, h1, fun hlt => lt_of_lt_of_le (hw.count hlt) h2⟩
    rw [hk.todo, hk.pid]
    exact hw.todo
  | asked q k hw hp h1 h2 h3 =>
    rw [h2] at hc
    cases hc
  | answered q q' k hw hq hq' hq'' h1 h2 =>
    rw [h2] at hc
    cases hc
    have hd := deliver_ack hw.live hseg hip hq hq'
    have hsock := hk.sock
    have hsent := hk.sent
    have htodo : c'.todo e = some ((closeBody (c'.pid e)).drop k) := by
      rw [hk.todo, hk.pid]
      exact hw.todo
    -- before FIN_WAIT_1 is set the ACK is counted by the semaphore, after it the ACK moves on to FIN_WAIT_2
    rcases hw.at_k with ⟨rfl, -, hst, hsem⟩ | ⟨rfl, hst, hsem⟩ | ⟨rfl, hst, hsem⟩
    · rw [hst] at hd
      rw [hd] at hsock
      refine .awake 1 ⟨htodo, le_refl _, ?_, fun _ => ?_⟩
      · rw [hsock]
        exact up_waitList_nil hsem
      · rw [hsock]
        exact up_count hsem
    · rw [hst] at hd
      rw [hd] at hsock hsent
      refine .acked q' 2 ⟨htodo, ?_, Or.inr (Or.inl ⟨rfl, ?_, ?_⟩)⟩ hq'' ?_ hk.chan
      · rw [hsock]
        exact hw.live
      · rw [hsock]
        rfl
      · rw [hsock]
        exact hsem
      · rw [hsent, h1]
        rfl
    · rw [hst] at hd
      rw [hd] at hsock hsent
      refine .acked q' 3 ⟨htodo, ?_, Or.inr (Or.inr ⟨rfl, ?_, ?_⟩)⟩ hq'' ?_ hk.chan
      · rw [hsock]
        exact hw.live
      · rw [hsock]
        rfl
      · rw [hsock, hk.pid]
        exact hsem
      · rw [hsent, h1]
        rfl
  | acked q k hw hq h1 h2 =>
    rw [h2] at hc
    cases hc
    have htodo : c'.todo e = some ((closeBody (c'.pid e)).drop k) := by
      rw [hk.todo, hk.pid]
      exact hw.todo
    rcases hw.at_k with ⟨-, hst, -⟩ | ⟨rfl, hst, hsem⟩ | ⟨rfl, hst, hsem⟩
    · cases hst
    · have hsock := hk.sock
      rw [deliver_fin_finWait2 hw.live hseg hq hst] at hsock
      refine .awake 2 ⟨htodo, by omega, ?_, fun _ => ?_⟩
      · rw [hsock]
        exact up_waitList_nil hsem
      · rw [hsock]
        exact up_count hsem
    · have hsock := hk.sock
      rw [deliver_fin_finWait2 hw.live hseg hq hst] at hsock
      refine .awake 3 ⟨htodo, by omega, ?_, fun hlt => absurd hlt (by omega)⟩
      rw [hsock]
      change ((c.link.sock e).sem.up).waitList = []
      rw [Semaphore.up, hsem]

theorem Active.deliver (h : c.Active e) (hl : c.link.Linked) (hs : c.step (.deliver d) = some c') : c'.Active e := by
  by_cases hde : d = e
  · subst hde
    have hserved := h.served.deliver hl hs
    obtain ⟨p, ps, -, hk⟩ := step_deliver hs
    refine ⟨h.passive.apart hk.apart, ?_, hserved⟩
    intro hst
    rw [hk.apart.sock] at hst
    obtain ⟨q, hq, hfin⟩ := h.fin hst
    rw [hk.sent]
    exact ⟨q, mem_append_left _ hq, hfin⟩
  · have hd' : d = !e := Bool.eq_not.mpr hde
    subst hd'
    have hpassive := h.passive.deliver hl hs
    obtain ⟨p, ps, hc, hk⟩ := step_deliver hs
    have hapart := hk.apart
    have hsent := hk.sent
    rw [Bool.not_not] at hapart hsent
    have hseg := hl.seg (!e) p (hc ▸ mem_cons_self)
    refine ⟨hpassive, ?_, ?_⟩
    · intro hst
      rw [hk.sock] at hst
      obtain ⟨hst', hfin⟩ := deliver_established h.passive.live hseg hst
      obtain ⟨q, hq, hqfin⟩ := h.fin hst'
      rw [hc] at hq
      rw [hk.chan]
      rcases mem_cons.mp hq with rfl | hq
      · rw [hfin] at hqfin
        cases hqfin
      · exact ⟨q, hq, hqfin⟩
    · cases h.served with
      | awake k hw => exact .awake k (hw.apart hapart)
      | asked q k hw hq h1 h2 h3 =>
        rw [h1] at hc
        cases hc
        obtain ⟨r, r', hout, hr, hr', hr'', hfit, hfit'⟩ :=
          deliver_fin_established (c.link.ip e) h.passive.live hseg hq h3
        refine .answered r r' k (hw.apart hapart) hr hr' hr'' hk.chan ?_
        rw [hsent, h2, hout, filter_cons_of_pos hfit, filter_cons_of_pos hfit']
        rfl
      | answered q q' k hw hq hq' hq'' h1 h2 | acked q k hw hq h1 h2 =>
        rw [h1] at hc
        cases hc

theorem Inv.step {a : Act} (h : c.Inv) (ha : c.Careful a) (hs : c.step a = some c') : c'.Inv := by
  cases a with
  | call d =>
    refine ⟨?_, ?_⟩
    · obtain ⟨-, rfl⟩ := step_call hs
      exact h.linked
    · rcases h.phase with hi | ⟨e, he⟩
      · exact Or.inl (hi.call hs)
      · exact Or.inr ⟨e, he.call hs⟩
  | stmt d =>
    refine ⟨?_, ?_⟩
    · obtain ⟨x, xs, l, -, -, hx, rfl⟩ := step_stmt_link hs
      exact h.linked.exec hx
    · rcases h.phase with hi | ⟨e, he⟩
      · exact Or.inr ⟨d, hi.stmt hs⟩
      · exact Or.inr ⟨e, he.stmt ha hs⟩
  | deliver d =>
    refine ⟨?_, ?_⟩
    · obtain ⟨l, hl, rfl⟩ := map_eq_some_iff.mp hs
      exact h.linked.deliver hl
    · rcases h.phase with hi | ⟨e, he⟩
      · obtain ⟨p, ps, hc, -⟩ := step_deliver hs
        rw [hi.chan d] at hc
        cases hc
      · exact Or.inr ⟨e, he.deliver h.linked hs⟩

/-- Closes in which no FIN is sent past another one on its way never wedge. -/
theorem close_run_not_wedged {as : List Act} (h : c.Connected) (ha : Along step Careful c as)
    (hr : run step c as = some c') : ¬c'.Wedged :=
  (run_invariant (fun _ _ _ h => h.step) h.inv ha hr).not_wedged

def twoEnds : Closing := ⟨Link.twoHosts, fun _ => 1, fun _ => none⟩

theorem twoEnds_connected : twoEnds.Connected :=
  ⟨Link.twoHosts_linked, fun _ => Nat.one_ne_zero, fun _ => rfl, fun _ => rfl, fun _ => rfl, fun _ => rfl⟩

/-- The close of one end with all that is delivered for it, up to the other end's last ACK. -/
def oneCloses : List Act :=
  [.call false, .stmt false, .stmt false, .stmt false, .deliver true, .deliver false, .deliver false,
    .stmt false, .stmt false, .stmt false, .call true, .stmt true, .deliver true]

theorem careful_of_head (h : (c.todo e).bind List.head? ≠ some .fin) : c.Careful (.stmt e) := by
  intro xs ht
  rw [ht] at h
  exact absurd rfl h

theorem oneCloses_careful : Along step Careful twoEnds oneCloses := by
  refine along_cons trivial rfl (along_cons ?_ rfl ?_)
  · intro xs _
    exact ⟨rfl, fun p hp => absurd hp not_mem_nil⟩
  · refine along_cons (careful_of_head (by decide)) rfl (along_cons (careful_of_head (by decide)) rfl ?_)
    refine along_cons trivial rfl (along_cons trivial rfl (along_cons trivial rfl ?_))
    refine along_cons (careful_of_head (by decide)) rfl (along_cons (careful_of_head (by decide)) rfl ?_)
    refine along_cons (careful_of_head (by decide)) rfl (along_cons trivial rfl ?_)
    exact along_cons (careful_of_head (by decide)) rfl (along_cons trivial rfl trivial)

theorem close_run_not_wedged_one :
    twoEnds.Connected ∧ ∃ c, run step twoEnds oneCloses = some c ∧ ¬c.Wedged ∧ (c.link.sock false).ref = 0 :=
  ⟨twoEnds_connected, _, rfl, close_run_not_wedged twoEnds_connected oneCloses_careful rfl, rfl⟩

/-- Two closes whose FINs cross: each end takes the other's FIN in FIN_WAIT_1, and neither is woken. -/
theorem crossed_closes_wedge : ∃ c, run step twoEnds [.call false, .stmt false, .stmt false, .stmt false,
    .call true, .stmt true, .stmt true, .stmt true, .deliver true, .deliver false] = some c ∧ c.Wedged := by
  refine ⟨_, rfl, false, ?_, ?_, rfl, rfl, ?_⟩
  · decide
  · decide
  · rfl

end

end Closing

end BabyOS
