import BabyOS.StreamReceive
import BabyOS.Runs

open Function

namespace BabyOS

open StreamTable

namespace StreamTable

def alloc (t : StreamTable) : Option StreamIx := (List.finRange 128).find? fun i => (t i).ref = 0

/-- `dup` of a server by a new socket, with the port that `get_not_used_port` gives it. -/
def dup (t : StreamTable) (d server : StreamIx) (ip : Word) (port : Half) (mem : Nat → Byte) : StreamTable :=
  let t := t.set d { StreamSocket.create mem with addr := ⟨htonl ip, port⟩ }
  t.set server { t server with dupSocket := some d }

end StreamTable

/-- How far a process has come in `accept` with a new socket; in `popped` with the number of its client. -/
inductive AcceptPhase where
  | idle
  | poll (d : StreamIx)
  | asleep (d : StreamIx)
  | popped (d : StreamIx) (n : Nat)
  | answered (d : StreamIx)
  deriving DecidableEq

def AcceptPhase.slot : AcceptPhase → Option StreamIx
  | .idle => none
  | .poll d => some d
  | .asleep d => some d
  | .popped d _ => some d
  | .answered d => some d

structure Client where
  ip : Word
  port : Half
  seqNo : Word
  deriving DecidableEq

def Client.addr (c : Client) : SockAddr := ⟨ntohl c.ip, ntohs c.port⟩

def Client.syn (c : Client) (dst : Half) : TcpHdr :=
  ⟨htons c.port, dst, htonl c.seqNo, 0, { TcpFlags.init with syn := true }⟩

/-- A listening socket and the processes that accept, the clients whose SYN has come in, how many were taken
from the queue, and the SYN-ACKs by the number of the client. -/
structure Accepting where
  table : StreamTable
  phase : Nat → AcceptPhase
  arrived : List Client
  taken : Nat
  answers : List (Nat × TcpSend)
  crashed : Bool

namespace Accepting

inductive Act where
  | syn (c : Client)
  | accept (pid : Nat) (port : Half) (mem : Nat → Byte) (ok : Bool)
  | poll (pid : Nat)
  | wake (pid : Nat)
  | answer (pid : Nat)
  | ack (pid : Nat) (seqNo : Word)
  | finish (pid : Nat)

def setPhase (s : Accepting) (pid : Nat) (p : AcceptPhase) : Accepting :=
  { s with phase := update s.phase pid p }

def setSock (s : Accepting) (i : StreamIx) (k : StreamSocket) : Accepting := { s with table := s.table.set i k }

def syn (server : StreamIx) (s : Accepting) (c : Client) : Accepting :=
  let hdr := c.syn (s.table server).addr.port
  match s.table.netReceive server hdr c.ip (ntohs hdr.srcPort) [] with
  | none => { s with crashed := true }
  | some x => { s with table := x.2.1, arrived := s.arrived ++ [c] }

/-- `sys_socket_t::accept` up to the loop of `accept`; without a file or a descriptor the new socket is released. -/
def accept (server : StreamIx) (ip : Word) (s : Accepting) (pid : Nat) (port : Half) (mem : Nat → Byte) (ok : Bool) :
    Option Accepting :=
  if s.phase pid ≠ .idle ∨ (s.table server).state ≠ .unconnected then none
  else s.table.alloc.map fun d =>
    let s := { s with table := s.table.dup d server ip port mem }
    if ok = false then s.setSock d ((s.table d).setTcpState .closed)
    else if (s.table server).tcpState ≠ .listen then s
    else s.setPhase pid (.poll d)

/-- A round of the loop of `accept`: to sleep, or on with the first client of the queue. -/
def poll (server : StreamIx) (s : Accepting) (pid : Nat) (d : StreamIx) : Accepting :=
  match (s.table server).connectingList with
  | [] =>
    (s.setSock server { s.table server with sem := (s.table server).sem.down pid }).setPhase pid (.asleep d)
  | a :: as =>
    let s := s.setSock server { s.table server with connectingList := as }
    let s := s.setSock d (((s.table d).setPeerAddr a).setTcpState .synRcvd)
    { s.setPhase pid (.popped d s.taken) with taken := s.taken + 1 }

def answer (s : Accepting) (pid : Nat) (d : StreamIx) (n : Nat) : Accepting :=
  let x := (s.table d).tcpAck (s.table d).ackNo true
  let s := s.setSock d { x.1 with sem := x.1.sem.down pid }
  { s.setPhase pid (.answered d) with answers := s.answers ++ [(n, x.2)] }

def step (server : StreamIx) (ip : Word) (s : Accepting) (a : Act) : Option Accepting :=
  if s.crashed then none
  else match a with
    | .syn c => some (s.syn server c)
    | .accept pid port mem ok => s.accept server ip pid port mem ok
    | .poll pid => match s.phase pid with
      | .poll d => some (s.poll server pid d)
      | _ => none
    | .wake pid => match s.phase pid with
      | .asleep d => if pid ∈ (s.table server).sem.waitList then none else some (s.setPhase pid (.poll d))
      | _ => none
    | .answer pid => match s.phase pid with
      | .popped d n => some (s.answer pid d n)
      | _ => none
    | .ack pid seqNo => match s.phase pid with
      | .answered d =>
        let peer := (s.table d).peerAddr
        let hdr : TcpHdr := ⟨peer.port, (s.table d).addr.port, htonl seqNo, 0, { TcpFlags.init with ack := true }⟩
        some (s.setSock d ((s.table d).netReceive hdr (ntohl peer.ip) (ntohs peer.port) []).2.1)
      | _ => none
    | .finish pid => match s.phase pid with
      | .answered d =>
        if pid ∈ (s.table d).sem.waitList then none
        else some ((s.setSock d { s.table d with tcpState := .established, state := .connected }).setPhase pid .idle)
      | _ => none

/-- No SYN is written through a null pointer; the clients taken are the first that came, and each is sent one
SYN-ACK with its own sequence number. -/
structure OwnSyn (server : StreamIx) (s : Accepting) : Prop where
  alive : s.crashed = false
  queue : (s.table server).connectingList = (s.arrived.drop s.taken).map Client.addr
  own : ∀ n p, (n, p) ∈ s.answers → n < s.taken ∧ ∃ c, s.arrived[n]? = some c ∧ p.dstIp = c.ip ∧ p.dstPort = c.port ∧
    p.ackNo = c.seqNo + 1 ∧ p.flags.syn = true ∧ p.flags.ack = true
  once : (s.answers.map Prod.fst).Nodup

/-- A SYN comes only when no client is queued and the newest socket waits in `accept`; no `accept` begins while
a client is queued, and a client is taken by the process with the newest socket. -/
def Careful (server : StreamIx) (s : Accepting) : Act → Prop
  | .syn _ => (s.table server).connectingList = [] ∧ ∃ pid d, (s.phase pid = .poll d ∨ s.phase pid = .asleep d) ∧
      (s.table server).dupSocket = some d
  | .accept _ _ _ _ => (s.table server).connectingList = []
  | .poll pid => (s.table server).connectingList = [] ∨ ∃ d, s.phase pid = .poll d ∧
      (s.table server).dupSocket = some d
  | _ => True

/-- A listening socket with no client queued and nobody in `accept`. -/
structure Listens (server : StreamIx) (s : Accepting) : Prop where
  live : (s.table server).ref ≠ 0
  listen : (s.table server).tcpState = .listen
  queue : (s.table server).connectingList = []
  phase : ∀ pid, s.phase pid = .idle
  arrived : s.arrived = []
  taken : s.taken = 0
  answers : s.answers = []
  crashed : s.crashed = false

/-- A process that waits in the loop of `accept` with a socket. -/
def Waits (s : Accepting) (pid : Nat) (d : StreamIx) : Prop := s.phase pid = .poll d ∨ s.phase pid = .asleep d

structure Inv (server : StreamIx) (s : Accepting) : Prop extends OwnSyn server s where
  live : (s.table server).ref ≠ 0
  listen : (s.table server).tcpState = .listen
  le : s.taken ≤ s.arrived.length
  slot : ∀ pid d, (s.phase pid).slot = some d → d ≠ server ∧ (s.table d).ref ≠ 0
  distinct : ∀ pid pid' d, (s.phase pid).slot = some d → (s.phase pid').slot = some d → pid = pid'
  popped : ∀ pid d n, s.phase pid = .popped d n → n < s.taken ∧ n ∉ s.answers.map Prod.fst ∧
    ∃ c, s.arrived[n]? = some c ∧ (s.table d).peerAddr = c.addr ∧ (s.table d).ackNo = c.seqNo + 1
  apart : ∀ pid pid' d d' n, s.phase pid = .popped d n → s.phase pid' = .popped d' n → pid = pid'
  pending : s.arrived.drop s.taken = [] ∨ ∃ c pid d, s.arrived.drop s.taken = [c] ∧ s.Waits pid d ∧
    (s.table server).dupSocket = some d ∧ (s.table d).ackNo = c.seqNo + 1

section

variable {server : StreamIx} {ip : Word} {s s' : Accepting}

theorem Listens.inv (h : Listens server s) : Inv server s where
  alive := h.crashed
  queue := by rw [h.queue, h.arrived, h.taken]; rfl
  own n p hp := by rw [h.answers] at hp; cases hp
  once := by rw [h.answers]; exact List.nodup_nil
  live := h.live
  listen := h.listen
  le := by rw [h.taken]; exact Nat.zero_le _
  slot pid d hd := by rw [h.phase pid] at hd; cases hd
  distinct pid pid' d hd := by rw [h.phase pid] at hd; cases hd
  popped pid d n hd := by rw [h.phase pid] at hd; cases hd
  apart pid pid' d d' n hd := by rw [h.phase pid] at hd; cases hd
  pending := by rw [h.arrived]; exact Or.inl List.drop_nil

variable {pid n : Nat} {d : StreamIx} {p : AcceptPhase}

theorem Waits.slot (h : s.Waits pid d) : (s.phase pid).slot = some d := by
  rcases h with h | h <;> rw [h] <;> rfl

theorem Waits.not_popped {d' : StreamIx} (h : s.Waits pid d) : s.phase pid ≠ .popped d' n := by
  intro hp
  rcases h with h | h <;> rw [h] at hp <;> cases hp

theorem Inv.queue_nil (h : Inv server s) (hq : (s.table server).connectingList = []) :
    s.arrived.drop s.taken = [] := by
  rw [h.queue] at hq
  exact List.map_eq_nil_iff.mp hq

variable {c : Client} {a : SockAddr} {as : List SockAddr}

theorem syn_eq (hl : (s.table server).tcpState = .listen) (hd : (s.table server).dupSocket = some d) :
    s.syn server c = { s with
      table := (s.table.set server ((s.table server).setAckNo (c.seqNo + 1))).queueSyn server d c.addr (c.seqNo + 1)
      arrived := s.arrived ++ [c] } := by
  have hseq : ntohl (c.syn (s.table server).addr.port).seqNo = c.seqNo := ntohl_htonl _
  have hport : ntohs (c.syn (s.table server).addr.port).srcPort = c.port := ntohs_htons _
  have hx : s.table.netReceive server (c.syn (s.table server).addr.port) c.ip
      (ntohs (c.syn (s.table server).addr.port).srcPort) [] = some (0,
        (s.table.set server ((s.table server).setAckNo (c.seqNo + 1))).queueSyn server d c.addr (c.seqNo + 1), []) := by
    rw [netReceive_of_syn rfl,
      netReceiveSyn_listen rfl (by rw [set_self]; exact hl), set_self,
      show ∀ a, ((s.table server).setAckNo a).dupSocket = some d from fun _ => hd, hseq, hport]
    rfl
  simp only [syn, hx]

theorem drop_append_singleton {α : Type} {xs : List α} {x : α} (hn : n ≤ xs.length)
    (h : xs.drop n = []) : (xs ++ [x]).drop n = [x] := by
  rw [List.drop_append_of_le_length hn, h, List.nil_append]

theorem Inv.setTable {t : StreamTable} {arrived : List Client} (h : Inv server s)
    (hget : ∀ {n : Nat} {c : Client}, s.arrived[n]? = some c → arrived[n]? = some c) (hle : s.taken ≤ arrived.length)
    (hserver : (t server).ref ≠ 0 ∧ (t server).tcpState = .listen ∧
      (t server).connectingList = (arrived.drop s.taken).map Client.addr)
    (hslot : ∀ pid d, (s.phase pid).slot = some d → (t d).ref ≠ 0)
    (hpop : ∀ pid d n, s.phase pid = .popped d n → t d = s.table d)
    (hpending : arrived.drop s.taken = [] ∨ ∃ c pid d, arrived.drop s.taken = [c] ∧ s.Waits pid d ∧
      (t server).dupSocket = some d ∧ (t d).ackNo = c.seqNo + 1) : Inv server { s with table := t, arrived := arrived } := by
  obtain ⟨href, hst, hq⟩ := hserver
  refine ⟨⟨h.alive, hq, ?_, h.once⟩, href, hst, hle, fun pid d hd => ⟨(h.slot pid d hd).1, hslot pid d hd⟩, h.distinct,
    ?_, h.apart, hpending⟩
  · intro n p hp
    obtain ⟨hn, c, hc, hrest⟩ := h.own n p hp
    exact ⟨hn, c, hget hc, hrest⟩
  · intro pid d n hp
    obtain ⟨hn, hna, c, hc, hrest⟩ := h.popped pid d n hp
    refine ⟨hn, hna, c, hget hc, ?_⟩
    change (t d).peerAddr = c.addr ∧ (t d).ackNo = c.seqNo + 1
    rw [hpop pid d n hp]
    exact hrest

theorem Inv.syn (h : Inv server s) (hc : Careful server s (.syn c)) : Inv server (s.syn server c) := by
  obtain ⟨hq, pid, d, hw, hdup⟩ := hc
  have hw : s.Waits pid d := hw
  have hds := (h.slot pid d hw.slot).1
  have hdrop := h.queue_nil hq
  rw [syn_eq h.listen hdup]
  generalize hT : (s.table.set server ((s.table server).setAckNo (c.seqNo + 1))).queueSyn server d c.addr
    (c.seqNo + 1) = T
  have hserver : T server = ((((s.table server).setAckNo (c.seqNo + 1))).pushConnecting c.addr).upSem := by
    rw [← hT, queueSyn_self hds, set_self]
  have hother : ∀ j, j ≠ server → T j = if d = j then (s.table j).setAckNo (c.seqNo + 1) else s.table j := by
    intro j hj
    rw [← hT, queueSyn_of_ne hj, set_of_ne hj]
  have hd : T d = (s.table d).setAckNo (c.seqNo + 1) := by
    rw [hother d hds, if_pos rfl]
  have hget : ∀ {n : Nat} {c' : Client}, s.arrived[n]? = some c' → (s.arrived ++ [c])[n]? = some c' := by
    intro n c' hn
    rw [List.getElem?_append_left (List.getElem?_eq_some_iff.mp hn).1]
    exact hn
  refine h.setTable hget ?_ ?_ (fun pid' d' hd' => ?_) (fun pid' d' n hp => ?_)
    (Or.inr ⟨c, pid, d, drop_append_singleton h.le hdrop, hw, ?_, ?_⟩)
  · rw [List.length_append]
    exact h.le.trans (Nat.le_add_right _ _)
  · rw [hserver, drop_append_singleton h.le hdrop]
    refine ⟨h.live, h.listen, ?_⟩
    change (s.table server).connectingList ++ [c.addr] = _
    rw [hq]
    rfl
  · obtain ⟨hne, href⟩ := h.slot pid' d' hd'
    rw [hother d' hne]
    split
    · exact href
    · exact href
  · have hslot : (s.phase pid').slot = some d' := by
      rw [hp]
      rfl
    have hdd : d ≠ d' := by
      rintro rfl
      cases h.distinct pid pid' d hw.slot hslot
      exact hw.not_popped hp
    rw [hother d' (h.slot pid' d' hslot).1, if_neg hdd]
  · rw [hserver]
    exact hdup
  · rw [hd]
    rfl

theorem Inv.retable {t : StreamTable} (h : Inv server s) (hdrop : s.arrived.drop s.taken = [])
    (href : (t server).ref = (s.table server).ref) (hst : (t server).tcpState = (s.table server).tcpState)
    (hq : (t server).connectingList = (s.table server).connectingList)
    (ht : ∀ pid d, (s.phase pid).slot = some d → t d = s.table d) : Inv server { s with table := t } := by
  refine h.setTable id h.le ⟨by rw [href]; exact h.live, hst.trans h.listen, hq.trans h.queue⟩ (fun pid d hd => ?_)
    (fun pid d n hp => ht pid d (by rw [hp]; rfl)) (Or.inl hdrop)
  rw [ht pid d hd]
  exact (h.slot pid d hd).2

theorem setPhase_self : (s.setPhase pid p).phase pid = p := by
  simp only [setPhase, update_self]

theorem setPhase_of_ne {q : Nat} (h : q ≠ pid) : (s.setPhase pid p).phase q = s.phase q := by
  simp only [setPhase, update_of_ne h]

theorem Inv.setPhase (h : Inv server s) (hpop : ∀ d n, p ≠ .popped d n)
    (hslot : ∀ d, p.slot = some d → (s.phase pid).slot = some d ∨
      d ≠ server ∧ (s.table d).ref ≠ 0 ∧ ∀ q, (s.phase q).slot ≠ some d)
    (hwait : ∀ d, s.Waits pid d → p = .poll d ∨ p = .asleep d) : Inv server (s.setPhase pid p) := by
  have hself : (s.setPhase pid p).phase pid = p := setPhase_self
  refine ⟨⟨h.alive, h.queue, h.own, h.once⟩, h.live, h.listen, h.le, ?_, ?_, ?_, ?_, ?_⟩
  · intro q d hd
    by_cases hq : q = pid
    · subst hq
      rw [hself] at hd
      rcases hslot d hd with hd | hd
      · exact h.slot q d hd
      · exact ⟨hd.1, hd.2.1⟩
    · rw [setPhase_of_ne hq] at hd
      exact h.slot q d hd
  · have hside : ∀ q d, q ≠ pid → p.slot = some d → (s.phase q).slot = some d → q = pid := by
      intro q d _ hd hqd
      rcases hslot d hd with hd | hd
      · exact h.distinct q pid d hqd hd
      · exact absurd hqd (hd.2.2 q)
    intro q q' d hd hd'
    by_cases hq : q = pid
    · by_cases hq' : q' = pid
      · rw [hq, hq']
      · rw [hq, hself] at hd
        rw [setPhase_of_ne hq'] at hd'
        rw [hq]
        exact (hside q' d hq' hd hd').symm
    · rw [setPhase_of_ne hq] at hd
      by_cases hq' : q' = pid
      · rw [hq', hself] at hd'
        rw [hq']
        exact hside q d hq hd' hd
      · rw [setPhase_of_ne hq'] at hd'
        exact h.distinct q q' d hd hd'
  · intro q d n hd
    by_cases hq : q = pid
    · rw [hq, hself] at hd
      exact absurd hd (hpop d n)
    · rw [setPhase_of_ne hq] at hd
      exact h.popped q d n hd
  · intro q q' d d' n hd hd'
    by_cases hq : q = pid
    · rw [hq, hself] at hd
      exact absurd hd (hpop d n)
    · by_cases hq' : q' = pid
      · rw [hq', hself] at hd'
        exact absurd hd' (hpop d' n)
      · rw [setPhase_of_ne hq] at hd
        rw [setPhase_of_ne hq'] at hd'
        exact h.apart q q' d d' n hd hd'
  · refine h.pending.imp id ?_
    rintro ⟨c, q, d, hc, hw, hrest⟩
    refine ⟨c, q, d, hc, ?_, hrest⟩
    unfold Waits
    by_cases hq : q = pid
    · rw [hq, hself]
      exact hwait d (hq ▸ hw)
    · rw [setPhase_of_ne hq]
      exact hw

theorem Inv.setSock {k : StreamSocket} (h : Inv server s)
    (hp : s.phase pid = .answered d) (hk : k.ref ≠ 0) : Inv server (s.setSock d k) := by
  have hslot : (s.phase pid).slot = some d := by
    rw [hp]
    rfl
  have hserver : s.table.set d k server = s.table server :=
    set_of_ne (h.slot pid d hslot).1.symm _ _
  have hother : ∀ q d', q ≠ pid → (s.phase q).slot = some d' → s.table.set d k d' = s.table d' := by
    intro q d' hq hd'
    apply set_of_ne
    rintro rfl
    exact hq (h.distinct q pid d' hd' hslot)
  refine h.setTable id h.le ?_ (fun q d' hd' => ?_) (fun q d' n hq => ?_) ?_
  · rw [hserver]
    exact ⟨h.live, h.listen, h.queue⟩
  · by_cases hq : q = pid
    · subst hq
      cases Option.some.inj (hslot.symm.trans hd')
      rw [set_self]
      exact hk
    · rw [hother q d' hq hd']
      exact (h.slot q d' hd').2
  · refine hother q d' ?_ (by rw [hq]; rfl)
    rintro rfl
    rw [hp] at hq
    cases hq
  · rw [hserver]
    refine h.pending.imp id ?_
    rintro ⟨c, q, d', hc, hw, hdup, hack⟩
    have hne : q ≠ pid := by
      rintro rfl
      rcases hw with hw | hw <;> rw [hp] at hw <;> cases hw
    refine ⟨c, q, d', hc, hw, hdup, ?_⟩
    rw [hother q d' hne hw.slot]
    exact hack

theorem Inv.accept {port : Half} {mem : Nat → Byte} {ok : Bool} (h : Inv server s)
    (hc : (s.table server).connectingList = []) (hs : s.accept server ip pid port mem ok = some s') :
    Inv server s' := by
  unfold Accepting.accept at hs
  split at hs
  · cases hs
  · next hidle =>
    obtain ⟨d, hd, rfl⟩ := Option.map_eq_some_iff.mp hs
    have href : (s.table d).ref = 0 := by simpa using List.find?_some hd
    have hds : d ≠ server := by
      rintro rfl
      exact h.live href
    have hfree : ∀ q, (s.phase q).slot ≠ some d := fun q hq => (h.slot q d hq).2 href
    have hserver : s.table.dup d server ip port mem server = { s.table server with dupSocket := some d } := by
      unfold StreamTable.dup
      rw [set_self, set_of_ne hds.symm]
    have hnew : (s.table.dup d server ip port mem d).ref ≠ 0 := by
      unfold StreamTable.dup
      rw [set_of_ne hds, set_self]
      exact Nat.one_ne_zero
    have hother : ∀ j, j ≠ d → j ≠ server → s.table.dup d server ip port mem j = s.table j := by
      intro j hj hjs
      unfold StreamTable.dup
      rw [set_of_ne hjs, set_of_ne hj]
    have hslots : ∀ q j, (s.phase q).slot = some j → j ≠ d ∧ j ≠ server :=
      fun q j hq => ⟨fun he => hfree q (he ▸ hq), (h.slot q j hq).1⟩
    have hdrop := h.queue_nil hc
    have hdup : Inv server { s with table := s.table.dup d server ip port mem } := by
      refine h.retable hdrop ?_ ?_ ?_ fun q j hq => hother j (hslots q j hq).1 (hslots q j hq).2
      all_goals rw [hserver]
    by_cases hok : ok = false
    · have hkeep : ∀ j, j ≠ d → ∀ k, (s.table.dup d server ip port mem).set d k j = s.table.dup d server ip port mem j :=
        fun j hj k => set_of_ne hj _ _
      rw [if_pos hok]
      refine h.retable hdrop ?_ ?_ ?_ fun q j hq => ?_
      · rw [hkeep server hds.symm, hserver]
      · rw [hkeep server hds.symm, hserver]
      · rw [hkeep server hds.symm, hserver]
      · rw [hkeep j (hslots q j hq).1, hother j (hslots q j hq).1 (hslots q j hq).2]
    · dsimp only
      rw [if_neg hok]
      split
      · exact hdup
      · refine hdup.setPhase (fun _ _ => AcceptPhase.noConfusion) ?_ ?_
        · intro j hj
          cases hj
          exact Or.inr ⟨hds, hnew, hfree⟩
        · intro j hw
          have hw : s.phase pid = .poll j ∨ s.phase pid = .asleep j := hw
          have hi : s.phase pid = .idle := by
            by_contra hne
            exact hidle (Or.inl hne)
          rcases hw with hw | hw <;> rw [hi] at hw <;> cases hw

theorem Inv.take (h : Inv server s) (hp : s.phase pid = .poll d) (hdup : (s.table server).dupSocket = some d)
    (hq : (s.table server).connectingList = a :: as) : Inv server (s.poll server pid d) := by
  rcases h.pending with hnil | ⟨c, q, d', hdrop, -, hdup', hack⟩
  · rw [h.queue, hnil] at hq
    cases hq
  cases Option.some.inj (hdup.symm.trans hdup')
  have hslot : (s.phase pid).slot = some d := by
    rw [hp]
    rfl
  have hds := (h.slot pid d hslot).1
  have hlist : c.addr = a ∧ [] = as := by
    rw [h.queue, hdrop] at hq
    exact List.cons.inj hq
  have hlt : s.taken < s.arrived.length := by
    by_contra hle
    rw [List.drop_eq_nil_of_le (Nat.le_of_not_lt hle)] at hdrop
    cases hdrop
  have hget : s.arrived[s.taken]? = some c ∧ s.arrived.drop (s.taken + 1) = [] := by
    rw [List.drop_eq_getElem_cons hlt] at hdrop
    rw [List.getElem?_eq_getElem hlt]
    exact ⟨congrArg some (List.cons.inj hdrop).1, (List.cons.inj hdrop).2⟩
  simp only [poll, hq, Accepting.setSock, Accepting.setPhase, set_of_ne hds]
  generalize hT : (s.table.set server { s.table server with connectingList := as }).set d
    (((s.table d).setPeerAddr a).setTcpState .synRcvd) = T
  have hserver : T server = { s.table server with connectingList := [] } := by
    rw [← hT, set_of_ne hds.symm, set_self, ← hlist.2]
  have hself : T d = ((s.table d).setPeerAddr c.addr).setTcpState .synRcvd := by
    rw [← hT, set_self, hlist.1]
  have hother : ∀ j, j ≠ d → j ≠ server → T j = s.table j := by
    intro j hj hjs
    rw [← hT, set_of_ne hj, set_of_ne hjs]
  have hphase : ∀ q, q ≠ pid → update s.phase pid (.popped d s.taken) q = s.phase q :=
    fun q hq => update_of_ne hq _ _
  have hphase' : update s.phase pid (.popped d s.taken) pid = .popped d s.taken := by
    rw [update_self]
  have hslots : ∀ q, (update s.phase pid (.popped d s.taken) q).slot = (s.phase q).slot := by
    intro q
    by_cases hq : q = pid
    · rw [hq, hphase', hslot]
      rfl
    · rw [hphase q hq]
  have hkeep : ∀ q j, q ≠ pid → (s.phase q).slot = some j → T j = s.table j := by
    intro q j hq hj
    refine hother j ?_ (h.slot q j hj).1
    rintro rfl
    exact hq (h.distinct q pid j hj hslot)
  refine ⟨⟨h.alive, ?_, ?_, h.once⟩, ?_, ?_, hlt, ?_, ?_, ?_, ?_, Or.inl hget.2⟩
  · change (T server).connectingList = (s.arrived.drop (s.taken + 1)).map Client.addr
    rw [hserver, hget.2]
    rfl
  · intro n p hp
    obtain ⟨hn, hrest⟩ := h.own n p hp
    exact ⟨Nat.lt_succ_of_lt hn, hrest⟩
  · change (T server).ref ≠ 0
    rw [hserver]
    exact h.live
  · change (T server).tcpState = .listen
    rw [hserver]
    exact h.listen
  · intro q j hj
    replace hj : (s.phase q).slot = some j := (hslots q).symm.trans hj
    refine ⟨(h.slot q j hj).1, ?_⟩
    change (T j).ref ≠ 0
    by_cases hq : q = pid
    · subst hq
      cases Option.some.inj (hslot.symm.trans hj)
      rw [hself]
      exact (h.slot q d hslot).2
    · rw [hkeep q j hq hj]
      exact (h.slot q j hj).2
  · intro q q' j hj hj'
    exact h.distinct q q' j ((hslots q).symm.trans hj) ((hslots q').symm.trans hj')
  · intro q j n hn
    change n < s.taken + 1 ∧ _ ∧ ∃ c' : Client, s.arrived[n]? = some c' ∧ (T j).peerAddr = c'.addr ∧
      (T j).ackNo = c'.seqNo + 1
    by_cases hq : q = pid
    · subst hq
      cases hphase'.symm.trans hn
      refine ⟨Nat.lt_succ_self _, ?_, c, hget.1, ?_, ?_⟩
      · intro hmem
        obtain ⟨x, hx, hx'⟩ := List.mem_map.mp hmem
        have := (h.own x.1 x.2 hx).1
        omega
      · rw [hself]
        rfl
      · rw [hself]
        exact hack
    · have hn : s.phase q = .popped j n := (hphase q hq).symm.trans hn
      obtain ⟨hlt', hna, hrest⟩ := h.popped q j n hn
      rw [hkeep q j hq (by rw [hn]; rfl)]
      exact ⟨Nat.lt_succ_of_lt hlt', hna, hrest⟩
  · have hnew : ∀ q j, q ≠ pid → s.phase q ≠ .popped j s.taken := by
      intro q j _ hn
      exact absurd (h.popped q j _ hn).1 (Nat.lt_irrefl _)
    intro q q' j j' n hn hn'
    by_cases hq : q = pid
    · by_cases hq' : q' = pid
      · rw [hq, hq']
      · subst hq
        cases hphase'.symm.trans hn
        exact absurd ((hphase q' hq').symm.trans hn') (hnew q' j' hq')
    · replace hn : s.phase q = .popped j n := (hphase q hq).symm.trans hn
      by_cases hq' : q' = pid
      · subst hq'
        cases hphase'.symm.trans hn'
        exact absurd hn (hnew q j hq)
      · exact h.apart q q' j j' n hn ((hphase q' hq').symm.trans hn')

theorem Inv.sleep (h : Inv server s) (hp : s.phase pid = .poll d)
    (hq : (s.table server).connectingList = []) : Inv server (s.poll server pid d) := by
  rw [poll, hq]
  have hdown : Inv server (s.setSock server { s.table server with sem := (s.table server).sem.down pid }) := by
    refine h.retable (h.queue_nil hq) ?_ ?_ ?_ fun q j hj => set_of_ne (h.slot q j hj).1 _ _
    all_goals rw [set_self]
  refine hdown.setPhase (p := .asleep d) (fun _ _ => AcceptPhase.noConfusion) ?_ ?_
  · intro j hj
    cases hj
    left
    change (s.phase pid).slot = some d
    rw [hp]
    rfl
  · intro j hw
    have hw : s.phase pid = .poll j ∨ s.phase pid = .asleep j := hw
    rw [hp] at hw
    rcases hw with hw | hw
    · cases hw
      exact Or.inr rfl
    · cases hw

theorem Inv.answer (h : Inv server s) (hp : s.phase pid = .popped d n) : Inv server (s.answer pid d n) := by
  obtain ⟨hn, hna, c, hc, hpeer, hack⟩ := h.popped pid d n hp
  have hphase : Inv server (s.setPhase pid (.answered d)) := by
    refine h.setPhase (p := .answered d) (fun _ _ => AcceptPhase.noConfusion) ?_ ?_
    · intro j hj
      cases hj
      left
      rw [hp]
      rfl
    · intro j hw
      exact absurd hp hw.not_popped
  have hsock := hphase.setSock (k := { ((s.table d).tcpAck (s.table d).ackNo true).1 with
    sem := ((s.table d).tcpAck (s.table d).ackNo true).1.sem.down pid }) setPhase_self
    (h.slot pid d (by rw [hp]; rfl)).2
  have hpop : ∀ q d', (s.setPhase pid (.answered d)).phase q ≠ .popped d' n := by
    intro q d' hq
    by_cases hqp : q = pid
    · rw [hqp, setPhase_self] at hq
      cases hq
    · rw [setPhase_of_ne hqp] at hq
      exact hqp (h.apart q pid d' d n hq hp)
  have hmem : ∀ {m : Nat} {p : TcpSend}, (m, p) ∈ (s.answer pid d n).answers →
      (m, p) ∈ s.answers ∨ m = n ∧ p = ((s.table d).tcpAck (s.table d).ackNo true).2 := by
    intro m p hm
    rcases List.mem_append.mp hm with hm | hm
    · exact Or.inl hm
    · exact Or.inr (Prod.mk.inj (List.mem_singleton.mp hm))
  have hfst : (s.answer pid d n).answers.map Prod.fst = s.answers.map Prod.fst ++ [n] := List.map_append
  refine ⟨⟨h.alive, hsock.queue, ?_, ?_⟩, hsock.live, hsock.listen, h.le, hsock.slot, hsock.distinct, ?_,
    hsock.apart, hsock.pending⟩
  · intro m p hm
    rcases hmem hm with hm | ⟨rfl, rfl⟩
    · exact h.own m p hm
    · refine ⟨hn, c, hc, ?_, ?_, hack, rfl, rfl⟩
      · change ntohl (s.table d).peerAddr.ip = c.ip
        rw [hpeer]
        exact ntohl_htonl c.ip
      · change ntohs (s.table d).peerAddr.port = c.port
        rw [hpeer]
        exact ntohs_htons c.port
  · rw [hfst]
    exact h.once.append (List.nodup_singleton n) (List.disjoint_singleton.mpr hna)
  · intro q d' m hq
    obtain ⟨hm, hma, hrest⟩ := hsock.popped q d' m hq
    refine ⟨hm, ?_, hrest⟩
    rw [hfst, List.mem_append, List.mem_singleton]
    rintro (hmem | rfl)
    · exact hma hmem
    · exact hpop q d' hq

theorem Inv.step {a : Act} (h : Inv server s) (hc : Careful server s a) (hs : step server ip s a = some s') :
    Inv server s' := by
  simp only [Accepting.step, h.alive, Bool.false_eq_true, if_false] at hs
  cases a with
  | syn c =>
    cases hs
    exact h.syn hc
  | accept pid port mem ok => exact h.accept hc hs
  | poll pid =>
    cases hp : s.phase pid <;> simp only [hp, Option.some.injEq, reduceCtorEq] at hs
    case poll d =>
      subst hs
      cases hq : (s.table server).connectingList with
      | nil => exact h.sleep hp hq
      | cons a as =>
        rcases hc with hc | ⟨d', hd', hdup⟩
        · rw [hc] at hq
          cases hq
        · cases hp.symm.trans hd'
          exact h.take hp hdup hq
  | wake pid =>
    cases hp : s.phase pid <;> simp only [hp, reduceCtorEq] at hs
    case asleep d =>
      split at hs
      · cases hs
      · cases hs
        refine h.setPhase (p := .poll d) (fun _ _ => AcceptPhase.noConfusion) ?_ ?_
        · intro j hj
          cases hj
          left
          rw [hp]
          rfl
        · intro j hw
          left
          have := hw.slot
          rw [hp] at this
          cases this
          rfl
  | answer pid =>
    cases hp : s.phase pid <;> simp only [hp, Option.some.injEq, reduceCtorEq] at hs
    case popped d n =>
      subst hs
      exact h.answer hp
  | ack pid seqNo =>
    cases hp : s.phase pid <;> simp only [hp, Option.some.injEq, reduceCtorEq] at hs
    case answered d =>
      subst hs
      refine h.setSock hp ?_
      rw [(StreamSocket.netReceive_rest).ref]
      exact (h.slot pid d (by rw [hp]; rfl)).2
  | finish pid =>
    cases hp : s.phase pid <;> simp only [hp, reduceCtorEq] at hs
    case answered d =>
      split at hs
      · cases hs
      · cases hs
        have hk := h.setSock (k := { s.table d with tcpState := .established, state := .connected }) hp
          (h.slot pid d (by rw [hp]; rfl)).2
        refine hk.setPhase (p := .idle) (fun _ _ => AcceptPhase.noConfusion) ?_ ?_
        · intro j hj
          cases hj
        · intro j hw
          have hw : s.phase pid = .poll j ∨ s.phase pid = .asleep j := hw
          rw [hp] at hw
          rcases hw with hw | hw <;> cases hw

/-- Over every run of SYNs, `accept` calls and ACKs with these steps, each SYN-ACK answers the SYN of its client. -/
theorem accept_run_own_syn {as : List Act} (h : Listens server s) (hc : Along (step server ip) (Careful server) s as)
    (hs : run (step server ip) s as = some s') : OwnSyn server s' :=
  (run_invariant (fun _ _ _ h => h.step) h.inv hc hs).toOwnSyn

end

def listening : Accepting where
  table i :=
    if i = 0 then { StreamSocket.create (fun _ => 0) with tcpState := .listen, addr := ⟨0, 80⟩ }
    else { StreamSocket.create (fun _ => 0) with ref := 0 }
  phase _ := .idle
  arrived := []
  taken := 0
  answers := []
  crashed := false

theorem listening_listens : Listens 0 listening :=
  ⟨by decide, rfl, rfl, fun _ => rfl, rfl, rfl, rfl, rfl⟩

/-- Two processes accept a client each, one after the other. -/
def twoAccepts : List Act :=
  [.accept 7 9 (fun _ => 0) true, .poll 7, .syn ⟨2, 3, 5⟩, .wake 7, .poll 7, .answer 7,
    .accept 8 10 (fun _ => 0) true, .poll 8, .syn ⟨4, 3, 8⟩, .wake 8, .poll 8, .answer 8]

theorem accept_run_own_syn_two : ∃ s, run (step 0 1) listening twoAccepts = some s ∧ OwnSyn 0 s ∧
    s.answers = [(0, ⟨2, ntohs 9, 3, 0, 6, { TcpFlags.init with ack := true, syn := true }, []⟩),
      (1, ⟨4, ntohs 10, 3, 0, 9, { TcpFlags.init with ack := true, syn := true }, []⟩)] := by
  have hcare : Along (step 0 1) (Careful 0) listening twoAccepts := by
    refine along_cons ?_ rfl (along_cons ?_ rfl (along_cons ?_ rfl (along_cons ?_ rfl (along_cons ?_ rfl
      (along_cons ?_ rfl (along_cons ?_ rfl (along_cons ?_ rfl (along_cons ?_ rfl (along_cons ?_ rfl (along_cons ?_ rfl
      (along_cons ?_ rfl trivial)))))))))))
    · exact rfl
    · exact Or.inl rfl
    · exact ⟨rfl, 7, 1, Or.inr rfl, rfl⟩
    · trivial
    · exact Or.inr ⟨1, rfl, rfl⟩
    · trivial
    · exact rfl
    · exact Or.inl rfl
    · exact ⟨rfl, 8, 2, Or.inr rfl, rfl⟩
    · trivial
    · exact Or.inr ⟨2, rfl, rfl⟩
    · trivial
  obtain ⟨s, hs⟩ : ∃ s, run (step 0 1) listening twoAccepts = some s := ⟨_, rfl⟩
  refine ⟨s, hs, accept_run_own_syn listening_listens hcare hs, ?_⟩
  cases hs
  rfl

/-- A SYN before the first `accept` is written through the null `m_dup_socket`; of two SYNs before an `accept`
takes a client, the first is answered with the number of the second. -/
theorem syn_of_another_acknowledged :
    (∃ s, run (step 0 1) listening [.syn ⟨2, 3, 5⟩] = some s ∧ s.crashed = true) ∧
    ∃ s p, run (step 0 1) listening
        [.accept 7 9 (fun _ => 0) true, .syn ⟨2, 3, 5⟩, .syn ⟨4, 3, 8⟩, .poll 7, .answer 7] = some s ∧
      (0, p) ∈ s.answers ∧ s.arrived[0]? = some ⟨2, 3, 5⟩ ∧ p.dstIp = 2 ∧ p.ackNo = 9 ∧ ¬ OwnSyn 0 s := by
  refine ⟨⟨_, rfl, rfl⟩, _, _, rfl, List.mem_singleton_self _, rfl, rfl, rfl, fun h => ?_⟩
  obtain ⟨-, c, hc, -, -, hack, -⟩ := h.own 0 _ (List.mem_singleton_self _)
  cases hc
  exact absurd hack (by decide)

end Accepting

end BabyOS
