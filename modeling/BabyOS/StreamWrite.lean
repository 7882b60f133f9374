import BabyOS.StreamLink
import BabyOS.Runs

open Function List Option

namespace BabyOS

/-- Two connected sockets on which one process writes at each end, with what was sent, read and acknowledged. -/
structure Writing where
  link : Link
  pid : Bool → Nat
  todo : Bool → List SockStmt
  sent : Bool → List (Word × List Byte)
  read : Bool → List Byte
  acked : Bool → List Word

namespace Writing

inductive Act where
  | write (e : Bool) (data : List Byte)
  | stmt (e : Bool)
  | read (e : Bool) (max : Nat)
  | deliver (e : Bool)
  | dup (e : Bool) (k : Nat)

def Blocked (w : Writing) (e : Bool) : Prop := w.pid e ∈ (w.link.sock e).sem.waitList

instance blockedDecidable (w : Writing) (e : Bool) : Decidable (w.Blocked e) :=
  inferInstanceAs (Decidable (_ ∈ _))

def sentBy (s : StreamSocket) : SockStmt → List (Word × List Byte)
  | .send data => [(s.seqNo, data)]
  | _ => []

def setTodo (w : Writing) (e : Bool) (xs : List SockStmt) : Writing :=
  { w with todo := update w.todo e xs }

def setLink (w : Writing) (l : Link) : Writing := { w with link := l }

def addSent (w : Writing) (e : Bool) (qs : List (Word × List Byte)) : Writing :=
  { w with sent := update w.sent e (w.sent e ++ qs) }

def addRead (w : Writing) (e : Bool) (bs : List Byte) : Writing :=
  { w with read := update w.read e (w.read e ++ bs) }

def addAcked (w : Writing) (e : Bool) (qs : List Word) : Writing :=
  { w with acked := update w.acked e (w.acked e ++ qs) }

def step (w : Writing) : Act → Option Writing
  | .write e data =>
    if w.todo e = [] ∧ ¬w.Blocked e ∧ 6 ≤ data.length then some (w.setTodo e (writeBody (w.pid e) data)) else none
  | .stmt e => match w.todo e with
    | [] => none
    | x :: xs =>
      if w.Blocked e then none
      else (w.link.exec e x).map fun l => ((w.setTodo e xs).addSent e (sentBy (w.link.sock e) x)).setLink l
  | .read e max =>
    ((w.link.sock e).read max).map fun x => (w.addRead e (x.1.getD [])).setLink (w.link.put e x.2 [])
  | .deliver e => match w.link.chan e with
    | [] => none
    | p :: _ => (w.link.deliver e).map fun l => (w.addAcked e (if p.flags.ack then [p.ackNo] else [])).setLink l
  | .dup e k => ((w.link.chan e)[k]?).map fun p =>
    w.setLink (w.link.setChan e ((w.link.chan e).insertIdx (k + 1) p))

def put (w : Writing) (e : Bool) : List Byte := w.read e ++ (w.link.sock e).buffer.items

/-- What was written at one end was put into the ring of the other or is on its way, and a write that has
returned, with all before it, has arrived and been acknowledged. -/
structure Exact (w : Writing) : Prop where
  bytes : ∀ e, w.put (!e) ++ ((w.link.chan (!e)).filter fun p => !p.flags.ack).flatMap TcpSend.data =
    (w.sent e).flatMap Prod.snd
  returned : ∀ e, w.todo e = [] → ¬w.Blocked e →
    w.put (!e) = (w.sent e).flatMap Prod.snd ∧ w.acked e = (w.sent e).map fun q => q.1 + 1

/-- No segment is duplicated, and data fits into a segment and into the ring it comes to. -/
def Careful (w : Writing) : Act → Prop
  | .write _ data => data.length ≤ 1994
  | .deliver e => ∀ p ps, w.link.chan e = p :: ps → p.flags.ack = false →
      p.data.length ≤ (w.link.sock e).buffer.left
  | .dup _ _ => False
  | _ => True

structure Connected (w : Writing) : Prop where
  linked : w.link.Linked
  live : ∀ e, (w.link.sock e).ref ≠ 0
  established : ∀ e, (w.link.sock e).tcpState = .established
  connected : ∀ e, (w.link.sock e).state = .connected
  sem : ∀ e, (w.link.sock e).sem = .init 0
  ring : ∀ e, (w.link.sock e).buffer.Wf ∧ (w.link.sock e).buffer.items = []
  chan : ∀ e, w.link.chan e = []
  todo : ∀ e, w.todo e = []
  sent : ∀ e, w.sent e = []
  read : ∀ e, w.read e = []
  acked : ∀ e, w.acked e = []

end Writing

structure Lane where
  data : List TcpSend
  acks : List TcpSend
  put : List Byte
  sent : List (Word × List Byte)
  acked : List Word
  sem : Semaphore
  todo : List SockStmt
  pid : Nat

namespace Lane

structure Settled (l : Lane) : Prop where
  data : l.data = []
  acks : l.acks = []
  put : l.put = l.sent.flatMap Prod.snd
  acked : l.acked = l.sent.map fun q => q.1 + 1

/-- The last segment or the ACK for it is on its way, and everything before it is settled. -/
inductive Flying (l : Lane) : Prop where
  | data (p : TcpSend) (qs : List (Word × List Byte)) : l.data = [p] → l.acks = [] → 6 ≤ p.data.length →
      p.data.length ≤ 1994 → l.sent = qs ++ [(p.seqNo, p.data)] → l.put = qs.flatMap Prod.snd →
      l.acked = (qs.map fun q => q.1 + 1) → Flying l
  | ack (k : TcpSend) (q : Word × List Byte) (qs : List (Word × List Byte)) : l.data = [] → l.acks = [k] →
      k.ackNo = q.1 + 1 → l.sent = qs ++ [q] → l.put = l.sent.flatMap Prod.snd →
      l.acked = (qs.map fun q => q.1 + 1) → Flying l

/-- The sender writes nothing, or is about to send, or waits for the one segment that is not settled. -/
inductive Ok (l : Lane) : Prop where
  | idle : l.todo = [] → l.sem = ⟨0, []⟩ → l.Settled → Ok l
  | ready (data : List Byte) : l.todo = writeBody l.pid data → 6 ≤ data.length → data.length ≤ 1994 →
      l.sem = ⟨0, []⟩ → l.Settled → Ok l
  | early : l.todo = [.down l.pid] → l.sem = ⟨1, []⟩ → l.Settled → Ok l
  | sent : l.todo = [.down l.pid] → l.sem = ⟨0, []⟩ → l.Flying → Ok l
  | asleep : l.todo = [] → l.sem = ⟨0, [l.pid]⟩ → l.Flying → Ok l

section

variable {l : Lane}

theorem Ok.exact (h : l.Ok) : l.put ++ l.data.flatMap TcpSend.data = l.sent.flatMap Prod.snd ∧
    (l.todo = [] → l.pid ∉ l.sem.waitList →
      l.put = l.sent.flatMap Prod.snd ∧ l.acked = l.sent.map fun q => q.1 + 1) := by
  have hsettled : l.Settled → l.put ++ l.data.flatMap TcpSend.data = l.sent.flatMap Prod.snd := by
    intro hs
    rw [hs.data, hs.put, flatMap_nil, append_nil]
  have hflying : l.Flying → l.put ++ l.data.flatMap TcpSend.data = l.sent.flatMap Prod.snd := by
    intro hf
    cases hf with
    | data p qs h1 _ _ _ h5 h6 _ =>
      rw [h1, h5, h6, flatMap_append]
      simp
    | ack k q qs h1 _ _ _ h5 _ => rw [h1, h5, flatMap_nil, append_nil]
  cases h with
  | idle _ _ hs | ready data ht _ _ _ hs | early _ _ hs => exact ⟨hsettled hs, fun _ _ => ⟨hs.put, hs.acked⟩⟩
  | sent ht _ hf =>
    refine ⟨hflying hf, fun hn => ?_⟩
    rw [ht] at hn
    cases hn
  | asleep _ hsem hf =>
    refine ⟨hflying hf, fun _ hn => ?_⟩
    rw [hsem] at hn
    exact absurd (mem_singleton_self _) hn

theorem Ok.write {data : List Byte} (h : l.Ok) (ht : l.todo = []) (hb : l.pid ∉ l.sem.waitList)
    (h6 : 6 ≤ data.length) (hmax : data.length ≤ 1994) : Ok { l with todo := writeBody l.pid data } := by
  cases h with
  | idle _ hsem hs => exact .ready data rfl h6 hmax hsem ⟨hs.data, hs.acks, hs.put, hs.acked⟩
  | ready _ ht' | early ht' | sent ht' =>
    rw [ht] at ht'
    cases ht'
  | asleep _ hsem =>
    rw [hsem] at hb
    exact absurd (mem_singleton_self _) hb

variable {xs : List SockStmt} {p k : TcpSend} {ps : List TcpSend}

theorem Ok.head {x : SockStmt} (h : l.Ok) (ht : l.todo = x :: xs) : (∃ data, x = .send data) ∨ x = .down l.pid := by
  cases h with
  | ready data ht' =>
    rw [ht] at ht'
    cases ht'
    exact Or.inl ⟨data, rfl⟩
  | early ht' | sent ht' =>
    rw [ht] at ht'
    cases ht'
    exact Or.inr rfl
  | idle ht' | asleep ht' =>
    rw [ht] at ht'
    cases ht'

theorem Ok.send (h : l.Ok) (ht : l.todo = .send p.data :: xs) : 6 ≤ p.data.length ∧ p.data.length ≤ 1994 ∧
      Ok { l with todo := xs, sent := l.sent ++ [(p.seqNo, p.data)], data := l.data ++ [p] } := by
  cases h with
  | ready data ht' h6 hmax hsem hs =>
    rw [ht] at ht'
    cases ht'
    refine ⟨h6, hmax, .sent rfl hsem (.data p l.sent ?_ hs.acks h6 hmax rfl hs.put hs.acked)⟩
    change l.data ++ [p] = [p]
    rw [hs.data, nil_append]
  | idle ht' | early ht' | sent ht' | asleep ht' =>
    rw [ht] at ht'
    cases ht'

theorem Ok.down {pid : Nat} (h : l.Ok) (ht : l.todo = .down pid :: xs) :
    Ok { l with todo := xs, sem := l.sem.down pid } := by
  cases h with
  | early ht' hsem hs =>
    rw [ht] at ht'
    cases ht'
    refine .idle rfl ?_ ⟨hs.data, hs.acks, hs.put, hs.acked⟩
    change l.sem.down l.pid = _
    rw [hsem]
    rfl
  | sent ht' hsem hf =>
    rw [ht] at ht'
    cases ht'
    refine .asleep rfl ?_ ?_
    · change l.sem.down l.pid = _
      rw [hsem]
      rfl
    · cases hf with
      | data p qs h1 h2 h3 h4 h5 h6 h7 => exact .data p qs h1 h2 h3 h4 h5 h6 h7
      | ack k q qs h1 h2 h3 h4 h5 h6 => exact .ack k q qs h1 h2 h3 h4 h5 h6
  | idle ht' | ready data ht' | asleep ht' =>
    rw [ht] at ht'
    cases ht'

theorem Flying.arrive (h : l.Flying) (hd : l.data = p :: ps)
    (hk : k.ackNo = p.seqNo + 1) : Flying { l with data := ps, acks := l.acks ++ [k], put := l.put ++ p.data } := by
  cases h with
  | data q qs h1 h2 h3 h4 h5 h6 h7 =>
    rw [hd] at h1
    cases h1
    refine .ack k (p.seqNo, p.data) qs rfl ?_ hk h5 ?_ h7
    · change l.acks ++ [k] = [k]
      rw [h2, nil_append]
    · change l.put ++ p.data = l.sent.flatMap Prod.snd
      rw [h5, h6, flatMap_append]
      simp
  | ack k' q qs h1 =>
    rw [hd] at h1
    cases h1

theorem Ok.flying (h : l.Ok) (hd : l.data = p :: ps) : l.Flying ∧ 6 ≤ p.data.length ∧ p.data.length ≤ 1994 := by
  have hf : l.Flying := by
    cases h with
    | sent _ _ hf | asleep _ _ hf => exact hf
    | idle _ _ hs | ready _ _ _ _ _ hs | early _ _ hs =>
      have hn := hs.data
      rw [hd] at hn
      cases hn
  refine ⟨hf, ?_⟩
  cases hf with
  | data q qs h1 _ h3 h4 =>
    rw [hd] at h1
    cases h1
    exact ⟨h3, h4⟩
  | ack k q qs h1 =>
    rw [hd] at h1
    cases h1

theorem Ok.arrive (h : l.Ok) (hd : l.data = p :: ps)
    (hk : k.ackNo = p.seqNo + 1) : Ok { l with data := ps, acks := l.acks ++ [k], put := l.put ++ p.data } := by
  have hf := (h.flying hd).1.arrive hd hk
  cases h with
  | sent ht hsem _ => exact .sent ht hsem hf
  | asleep ht hsem _ => exact .asleep ht hsem hf
  | idle _ _ hs | ready _ _ _ _ _ hs | early _ _ hs =>
    have hn := hs.data
    rw [hd] at hn
    cases hn

theorem Flying.settle {ks : List TcpSend} (h : l.Flying) (ha : l.acks = k :: ks) :
    l.data = [] ∧ ks = [] ∧ l.put = l.sent.flatMap Prod.snd ∧
      l.acked ++ [k.ackNo] = l.sent.map fun q => q.1 + 1 := by
  cases h with
  | data q qs h1 h2 =>
    rw [ha] at h2
    cases h2
  | ack k' q qs h1 h2 h3 h4 h5 h6 =>
    rw [ha] at h2
    cases h2
    refine ⟨h1, rfl, h5, ?_⟩
    rw [h4, h6, h3, map_append]
    rfl

theorem Ok.settle {ks : List TcpSend} (h : l.Ok) (ha : l.acks = k :: ks) :
    Ok { l with acks := ks, acked := l.acked ++ [k.ackNo], sem := l.sem.up } := by
  cases h with
  | sent ht hsem hf =>
    obtain ⟨h1, h2, h3, h4⟩ := hf.settle ha
    refine .early ht ?_ ⟨h1, h2, h3, h4⟩
    change l.sem.up = _
    rw [hsem]
    rfl
  | asleep ht hsem hf =>
    obtain ⟨h1, h2, h3, h4⟩ := hf.settle ha
    refine .idle ht ?_ ⟨h1, h2, h3, h4⟩
    change l.sem.up = _
    rw [hsem]
    rfl
  | idle _ _ hs | ready _ _ _ _ _ hs | early _ _ hs =>
    have hn := hs.acks
    rw [ha] at hn
    cases hn

end

end Lane

structure Link.Open (l : Link) : Prop where
  linked : l.Linked
  live : ∀ e, (l.sock e).ref ≠ 0
  established : ∀ e, (l.sock e).tcpState = .established
  connected : ∀ e, (l.sock e).state = .connected
  ring : ∀ e, (l.sock e).buffer.Wf
  fin : ∀ e, ∀ p ∈ l.chan e, p.flags.fin = false

theorem Link.Open.put {l : Link} {e : Bool} {s : StreamSocket} {out : List TcpSend} (h : l.Open)
    (hl : (l.put e s out).Linked) (hrest : s.ref = (l.sock e).ref ∧ s.state = (l.sock e).state)
    (hst : s.tcpState = .established) (hw : s.buffer.Wf) (hout : ∀ p ∈ out, p.flags.fin = false) :
    (l.put e s out).Open := by
  refine ⟨hl, ?_, ?_, ?_, ?_, ?_⟩ <;> refine (Link.forall_end e).mpr ⟨?_, ?_⟩
  · rw [put_sock_self, hrest.1]
    exact h.live e
  · rw [put_sock_not]
    exact h.live (!e)
  · rw [put_sock_self]
    exact hst
  · rw [put_sock_not]
    exact h.established (!e)
  · rw [put_sock_self, hrest.2]
    exact h.connected e
  · rw [put_sock_not]
    exact h.connected (!e)
  · rw [put_sock_self]
    exact hw
  · rw [put_sock_not]
    exact h.ring (!e)
  · rw [put_chan_self]
    exact h.fin e
  · intro p hp
    rw [put_chan_not] at hp
    rcases mem_append.mp hp with hp | hp
    · exact h.fin (!e) p hp
    · exact hout p (mem_of_mem_filter hp)

theorem Link.Open.tail {l : Link} {e : Bool} {p : TcpSend} {ps : List TcpSend} (h : l.Open)
    (hc : l.chan e = p :: ps) : (l.setChan e ps).Open := by
  refine ⟨h.linked.tail hc, h.live, h.established, h.connected, h.ring, (Link.forall_end e).mpr ⟨?_, ?_⟩⟩
  · intro q hq
    rw [setChan_self] at hq
    exact h.fin e q (hc ▸ mem_cons_of_mem p hq)
  · rw [setChan_not]
    exact h.fin (!e)

namespace Writing

def lane (w : Writing) (e : Bool) : Lane where
  data := (w.link.chan (!e)).filter fun p => !p.flags.ack
  acks := (w.link.chan e).filter fun p => p.flags.ack
  put := w.put (!e)
  sent := w.sent e
  acked := w.acked e
  sem := (w.link.sock e).sem
  todo := w.todo e
  pid := w.pid e

structure Inv (w : Writing) : Prop where
  link : w.link.Open
  lane : ∀ e, (w.lane e).Ok

section

variable {w w' : Writing} {e : Bool}

theorem Connected.inv (h : w.Connected) : w.Inv := by
  refine ⟨⟨h.linked, h.live, h.established, h.connected, fun e => (h.ring e).1, ?_⟩, ?_⟩
  · intro e p hp
    rw [h.chan e] at hp
    cases hp
  · intro e
    refine .idle (h.todo e) (h.sem e) ⟨?_, ?_, ?_, ?_⟩
    · change (w.link.chan (!e)).filter _ = []
      rw [h.chan (!e), filter_nil]
    · change (w.link.chan e).filter _ = []
      rw [h.chan e, filter_nil]
    · change w.read (!e) ++ (w.link.sock (!e)).buffer.items = (w.sent e).flatMap Prod.snd
      rw [h.read (!e), (h.ring (!e)).2, h.sent e]
      rfl
    · change w.acked e = (w.sent e).map _
      rw [h.acked e, h.sent e]
      rfl

theorem Inv.exact (h : w.Inv) : w.Exact :=
  ⟨fun e => (h.lane e).exact.1, fun e => (h.lane e).exact.2⟩

section

variable {xs : List SockStmt} {qs : List (Word × List Byte)} {ks : List Word} {bs : List Byte} {ps : List TcpSend}
  {s : StreamSocket} {out : List TcpSend}

theorem lane_setTodo_self : (w.setTodo e xs).lane e = { w.lane e with todo := xs } := by
  simp only [lane, setTodo, put, update_self]

theorem lane_setTodo_not : (w.setTodo e xs).lane (!e) = w.lane (!e) := by
  simp only [lane, setTodo, put, update_of_ne (Bool.not_ne_self e)]

theorem lane_addSent_self : (w.addSent e qs).lane e = { w.lane e with sent := w.sent e ++ qs } := by
  simp only [lane, addSent, put, update_self]

theorem lane_addSent_not : (w.addSent e qs).lane (!e) = w.lane (!e) := by
  simp only [lane, addSent, put, update_of_ne (Bool.not_ne_self e)]

end

section

variable {l : Link} {s : StreamSocket} {out : List TcpSend}

theorem lane_moved_self (hl : w.link = l) : (w.setLink (l.put e s out)).lane e = { w.lane e with
    data := (w.lane e).data ++ (out.filter TcpSend.fits).filter fun p => !p.flags.ack, sem := s.sem } := by
  subst hl
  simp only [lane, setLink, put, Link.put_chan_self, Link.put_chan_not, Link.put_sock_self, Link.put_sock_not,
    filter_append]

theorem lane_moved_not (hl : w.link = l) : (w.setLink (l.put e s out)).lane (!e) = { w.lane (!e) with
    acks := (w.lane (!e)).acks ++ (out.filter TcpSend.fits).filter fun p => p.flags.ack,
    put := w.read e ++ s.buffer.items } := by
  subst hl
  simp only [lane, setLink, put, Bool.not_not, Link.put_chan_self, Link.put_chan_not, Link.put_sock_self,
    Link.put_sock_not, filter_append]

end

theorem Inv.lane_not (h : w.Inv) : Lane.Ok { w.lane (!e) with put := w.read e ++ (w.link.sock e).buffer.items } := by
  have hok := h.lane (!e)
  have hput : (w.lane (!e)).put = w.read e ++ (w.link.sock e).buffer.items := by
    simp only [Writing.lane, Writing.put, Bool.not_not]
  rw [← hput]
  exact hok

theorem Inv.write {data : List Byte} (h : w.Inv) (hc : data.length ≤ 1994)
    (hs : w.step (.write e data) = some w') : w'.Inv := by
  simp only [step] at hs
  split at hs
  · next hg =>
    cases some.inj hs
    refine ⟨h.link, (Link.forall_end e).mpr ⟨?_, ?_⟩⟩
    · rw [lane_setTodo_self]
      exact (h.lane e).write hg.1 hg.2.1 hg.2.2 hc
    · rw [lane_setTodo_not]
      exact h.lane (!e)
  · cases hs

theorem step_stmt (hs : w.step (.stmt e) = some w') : ∃ x xs s out, w.todo e = x :: xs ∧
    (w.link.sock e).exec x = some (s, out) ∧
    w' = ((w.setTodo e xs).addSent e (sentBy (w.link.sock e) x)).setLink (w.link.put e s out) ∧
    w.link.exec e x = some w'.link := by
  match ht : w.todo e with
  | [] =>
    simp only [step, ht] at hs
    cases hs
  | x :: xs =>
    simp only [step, ht] at hs
    split at hs
    · cases hs
    · obtain ⟨l, hl, rfl⟩ := map_eq_some_iff.mp hs
      obtain ⟨y, hy, rfl⟩ := map_eq_some_iff.mp hl
      exact ⟨x, xs, y.1, y.2, rfl, hy, rfl, hl⟩

theorem Inv.stmt (h : w.Inv) (hs : w.step (.stmt e) = some w') : w'.Inv := by
  obtain ⟨x, xs, s, out, ht, hy, hw, hl⟩ := step_stmt hs
  have hlinked := h.link.linked.exec hl
  subst hw
  rcases (h.lane e).head ht with ⟨data, rfl⟩ | rfl
  · cases some.inj hy
    obtain ⟨h6, hmax, hok⟩ := (h.lane e).send (p := ((w.link.sock e).tcpSend data).2) ht
    have hfit : [((w.link.sock e).tcpSend data).2].filter TcpSend.fits = [((w.link.sock e).tcpSend data).2] :=
      filter_cons_of_pos (TcpSend.payload_of_length h6 hmax).2
    refine ⟨h.link.put hlinked ⟨rfl, rfl⟩ (h.link.established e) (h.link.ring e) ?_,
      (Link.forall_end e).mpr ⟨?_, ?_⟩⟩
    · intro p hp
      cases mem_singleton.mp hp
      rfl
    · rw [lane_moved_self, hfit, lane_addSent_self, lane_setTodo_self]
      · exact hok
      · rfl
    · rw [lane_moved_not, hfit, lane_addSent_not, lane_setTodo_not, filter_cons_of_neg Bool.false_ne_true,
        filter_nil, append_nil]
      · exact h.lane_not
      · rfl
  · cases some.inj hy
    refine ⟨h.link.put hlinked ⟨rfl, rfl⟩ (h.link.established e) (h.link.ring e) ?_,
      (Link.forall_end e).mpr ⟨?_, ?_⟩⟩
    · intro p hp
      cases hp
    · rw [lane_moved_self, lane_addSent_self, lane_setTodo_self, filter_nil, filter_nil, append_nil]
      · have hok := (h.lane e).down ht
        change Lane.Ok { w.lane e with todo := xs, sent := w.sent e ++ [], sem := _ }
        rw [append_nil]
        exact hok
      · rfl
    · rw [lane_moved_not, lane_addSent_not, lane_setTodo_not, filter_nil, filter_nil, append_nil]
      · exact h.lane_not
      · rfl

theorem lane_addRead_self {bs : List Byte} : (w.addRead e bs).lane e = w.lane e := by
  simp only [lane, addRead, put, update_of_ne (Bool.not_ne_self e)]

theorem Inv.read {max : Nat} (h : w.Inv) (hs : w.step (.read e max) = some w') : w'.Inv := by
  obtain ⟨x, hx, rfl⟩ := map_eq_some_iff.mp hs
  obtain ⟨r, hr, hget, he⟩ := StreamSocket.read_some hx
  obtain ⟨hw, hitems⟩ := SockRingBuffer.getData_items (h.link.ring e) hget
  rw [he]
  refine ⟨h.link.put (h.link.linked.put rfl rfl fun q hq => absurd hq not_mem_nil) ⟨rfl, rfl⟩
    (h.link.established e) hw fun q hq => absurd hq not_mem_nil, (Link.forall_end e).mpr ⟨?_, ?_⟩⟩
  · rw [lane_moved_self, lane_addRead_self, filter_nil, filter_nil, append_nil]
    · exact h.lane e
    · rfl
  · have hread : (w.addRead e (x.1.getD [])).read e = w.read e ++ x.1.getD [] := by
      simp only [addRead, update_self]
    rw [lane_moved_not, filter_nil, filter_nil, append_nil, hread, append_assoc]
    · change Lane.Ok { w.lane (!e) with put := w.read e ++ (x.1.getD [] ++ r.items) }
      rw [← hitems]
      exact h.lane_not
    · rfl

variable {ks : List Word} {ps : List TcpSend} {p : TcpSend}

theorem lane_popped_self : ((w.addAcked e ks).setLink (w.link.setChan e ps)).lane e =
      { w.lane e with acked := w.acked e ++ ks, acks := ps.filter fun p => p.flags.ack } := by
  simp only [lane, addAcked, setLink, put, Link.setChan_self, Link.setChan_not, update_self]
  rfl

theorem lane_popped_not : ((w.addAcked e ks).setLink (w.link.setChan e ps)).lane (!e) =
      { w.lane (!e) with data := ps.filter fun p => !p.flags.ack } := by
  simp only [lane, addAcked, setLink, put, Bool.not_not, Link.setChan_self, Link.setChan_not,
    update_of_ne (Bool.not_ne_self e)]
  rfl

theorem Inv.deliver_data (h : w.Inv) (hc : w.link.chan e = p :: ps)
    (hack : p.flags.ack = false) (hroom : p.data.length ≤ (w.link.sock e).buffer.left) :
    (((w.addAcked e []).setLink (w.link.setChan e ps)).setLink
      ((w.link.setChan e ps).put e ((w.link.sock e).deliver p (w.link.ip (!e))).1
        ((w.link.sock e).deliver p (w.link.ip (!e))).2)).Inv := by
  have hseg := h.link.linked.seg e p (hc ▸ mem_cons_self)
  obtain ⟨hrest, hpeer, -, hto⟩ := StreamSocket.deliver_sends (w.link.sock e) p (w.link.ip (!e))
  have hdata : (w.lane (!e)).data = p :: ps.filter fun p => !p.flags.ack := by
    simp only [Writing.lane, Bool.not_not, hc]
    exact filter_cons_of_pos (by rw [hack]; rfl)
  have hacks : (w.lane e).acks = ps.filter fun p => p.flags.ack := by
    simp only [Writing.lane, hc]
    exact filter_cons_of_neg (by rw [hack]; exact Bool.false_ne_true)
  obtain ⟨-, h6, hmax⟩ := (h.lane (!e)).flying hdata
  have hpay := (TcpSend.payload_of_length h6 hmax).1
  obtain ⟨hbuf, hsem, hst, k, hout, hk, hkfin, hkno, hfit⟩ := StreamSocket.deliver_data (w.link.ip (!e))
    (h.link.live e) hseg (h.link.fin e p (hc ▸ mem_cons_self)) hack (h.link.connected e)
    (by rw [hpay]; exact hroom)
  obtain ⟨hring, hitems⟩ := SockRingBuffer.items_foldl_putByte (h.link.ring e) hroom
  rw [hpay] at hbuf
  have hlinked := (h.link.linked.tail hc).put hrest.addr hpeer hto
  have hfilter : [k].filter TcpSend.fits = [k] := filter_cons_of_pos hfit
  refine ⟨(h.link.tail hc).put hlinked ⟨hrest.ref, hrest.state⟩ (hst.trans (h.link.established e))
    (hbuf ▸ hring) ?_, (Link.forall_end e).mpr ⟨?_, ?_⟩⟩
  · intro q hq
    rw [hout] at hq
    cases mem_singleton.mp hq
    exact hkfin
  · rw [lane_moved_self, lane_popped_self, hout, hfilter, hsem, ← hacks,
      filter_cons_of_neg (by rw [hk]; decide), filter_nil, append_nil, append_nil]
    · exact h.lane e
    · rfl
  · have hkack : [k].filter (fun p => p.flags.ack) = [k] := filter_cons_of_pos hk
    rw [lane_moved_not, lane_popped_not, hout, hfilter, hbuf, hitems, hkack]
    · have hok := (h.lane (!e)).arrive hdata hkno
      have hput : (w.lane (!e)).put = w.read e ++ (w.link.sock e).buffer.items := by
        simp only [Writing.lane, Writing.put, Bool.not_not]
      rw [hput, append_assoc] at hok
      exact hok
    · rfl

theorem Inv.deliver_ack (h : w.Inv) (hc : w.link.chan e = p :: ps) (hack : p.flags.ack = true) :
    (((w.addAcked e [p.ackNo]).setLink (w.link.setChan e ps)).setLink
      ((w.link.setChan e ps).put e ((w.link.sock e).deliver p (w.link.ip (!e))).1
        ((w.link.sock e).deliver p (w.link.ip (!e))).2)).Inv := by
  have hseg := h.link.linked.seg e p (hc ▸ mem_cons_self)
  obtain ⟨-, -, -, hto⟩ := StreamSocket.deliver_sends (w.link.sock e) p (w.link.ip (!e))
  have hdata : (w.lane (!e)).data = ps.filter fun p => !p.flags.ack := by
    simp only [Writing.lane, Bool.not_not, hc]
    exact filter_cons_of_neg (by rw [hack]; decide)
  have hacks : (w.lane e).acks = p :: ps.filter fun p => p.flags.ack := by
    simp only [Writing.lane, hc]
    exact filter_cons_of_pos hack
  have hd := StreamSocket.deliver_ack (h.link.live e) hseg (by rw [h.link.linked.peer e])
    (h.link.fin e p (hc ▸ mem_cons_self)) hack
  rw [h.link.established e] at hd
  rw [hd]
  refine ⟨(h.link.tail hc).put ((h.link.linked.tail hc).put rfl rfl fun q hq => absurd hq not_mem_nil)
    ⟨rfl, rfl⟩ (h.link.established e) (h.link.ring e) fun q hq => absurd hq not_mem_nil,
    (Link.forall_end e).mpr ⟨?_, ?_⟩⟩
  · rw [lane_moved_self, lane_popped_self, filter_nil, filter_nil, append_nil]
    · exact (h.lane e).settle hacks
    · rfl
  · rw [lane_moved_not, lane_popped_not, filter_nil, filter_nil, append_nil, ← hdata]
    · exact h.lane_not
    · rfl

theorem Inv.step {a : Act} (h : w.Inv) (hcare : w.Careful a) (hs : w.step a = some w') : w'.Inv := by
  cases a with
  | write e data => exact h.write hcare hs
  | stmt e => exact h.stmt hs
  | read e max => exact h.read hs
  | deliver e =>
    match hc : w.link.chan e with
    | [] =>
      simp only [Writing.step, hc] at hs
      cases hs
    | p :: ps =>
      simp only [Writing.step, hc] at hs
      obtain ⟨l, hl, rfl⟩ := map_eq_some_iff.mp hs
      obtain ⟨q, qs, hq, rfl⟩ := Link.deliver_some hl
      rw [hc] at hq
      cases hq
      cases hack : p.flags.ack
      · exact h.deliver_data hc hack (hcare p ps hc hack)
      · exact h.deliver_ack hc hack
  | dup e k => exact hcare.elim

/-- Where no segment is duplicated and the ring has room, every byte arrives once and in order, and a write
returns only when its own segment is acknowledged. -/
theorem write_run_exact {as : List Act} (h : w.Connected) (ha : Along step Careful w as)
    (hr : run step w as = some w') : w'.Exact :=
  (run_invariant (fun _ _ _ h => h.step) h.inv ha hr).exact

end

def twoWriters : Writing := ⟨Link.twoHosts, fun _ => 1, fun _ => [], fun _ => [], fun _ => [], fun _ => []⟩

theorem twoWriters_connected : twoWriters.Connected :=
  ⟨Link.twoHosts_linked, fun _ => Nat.one_ne_zero, fun _ => rfl, fun _ => rfl, fun _ => rfl,
    fun _ => ⟨SockRingBuffer.init_wf 4 _, SockRingBuffer.init_items 4 _⟩, fun _ => rfl, fun _ => rfl, fun _ => rfl,
    fun _ => rfl, fun _ => rfl⟩

def twoWrites : List Act :=
  [.write false [1, 2, 3, 4, 5, 6], .stmt false, .stmt false, .deliver true, .deliver false, .read true 6,
    .write false [7, 8, 9, 10, 11, 12], .stmt false, .stmt false, .deliver true, .deliver false]

theorem write_run_exact_two : twoWriters.Connected ∧ ∃ w, run step twoWriters twoWrites = some w ∧ w.Exact ∧
    w.put true = [1, 2, 3, 4, 5, 6, 7, 8, 9, 10, 11, 12] := by
  have hcare : Along step Careful twoWriters twoWrites := by
    refine along_cons (show 6 ≤ 1994 by decide) rfl (along_cons trivial rfl (along_cons trivial rfl ?_))
    refine along_cons ?_ rfl (along_cons ?_ rfl (along_cons trivial rfl ?_))
    · intro p ps hc _
      cases hc
      decide
    · intro p ps hc hack
      cases hc
      cases hack
    · refine along_cons (show 6 ≤ 1994 by decide) rfl (along_cons trivial rfl (along_cons trivial rfl ?_))
      refine along_cons ?_ rfl (along_cons ?_ rfl trivial)
      · intro p ps hc _
        cases hc
        decide
      · intro p ps hc hack
        cases hc
        cases hack
  exact ⟨twoWriters_connected, _, rfl, write_run_exact twoWriters_connected hcare rfl, by decide⟩

/-- A duplicated segment is put into the ring twice, and a duplicated ACK ends the next write before its segment
arrives. -/
theorem duplicates_felt :
    (∃ w, run step twoWriters [.write false [1, 2, 3, 4, 5, 6], .stmt false, .dup true 0, .deliver true,
        .deliver true] = some w ∧
      w.put true = [1, 2, 3, 4, 5, 6, 1, 2, 3, 4, 5, 6] ∧ w.sent false = [(0, [1, 2, 3, 4, 5, 6])]) ∧
    ∃ w, run step twoWriters [.write false [1, 2, 3, 4, 5, 6], .stmt false, .stmt false, .deliver true, .dup false 0,
        .deliver false, .deliver false, .write false [7, 8, 9, 10, 11, 12], .stmt false, .stmt false] = some w ∧
      w.todo false = [] ∧ ¬w.Blocked false ∧ w.put true = [1, 2, 3, 4, 5, 6] ∧ w.acked false = [1, 1] := by
  refine ⟨⟨_, rfl, ?_, rfl⟩, _, rfl, rfl, ?_, ?_, rfl⟩
  · decide
  · decide
  · decide

end Writing

end BabyOS
