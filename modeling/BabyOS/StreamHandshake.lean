import BabyOS.StreamLink
import BabyOS.Runs

namespace BabyOS

open StreamTable

/-- How far a process is in `connect`: after the address and the port, the SYN, its state, the semaphore, its new
state and the socket's, and the ACK. -/
inductive ConnectAt
  | begin
  | addressed
  | synced
  | sent
  | waiting
  | woken
  | connected
  | returned
  | failed
  deriving DecidableEq

/-- How far a process is in `accept`: in the loop, after the client was taken from the queue, its address, the
state of the new socket, the SYN-ACK, the semaphore, and its new state. -/
inductive AcceptAt
  | asleep
  | poll
  | popped (client : SockAddr)
  | peered
  | rcvd
  | answered
  | waiting
  | woken
  | returned
  deriving DecidableEq

/-- The listening socket, the one that `accept` fills and the one that connects, by their places; the addresses
and ports in network order, the processes, and the first sequence numbers. -/
structure Hosts where
  listener : StreamIx
  dup : StreamIx
  client : StreamIx
  serverIp : Word
  clientIp : Word
  listenPort : Half
  dupPort : Half
  clientPort : Half
  acceptPid : Nat
  connectPid : Nat
  dupSeq : Word
  clientSeq : Word

def Hosts.dupAddr (e : Hosts) : SockAddr := ⟨htonl e.serverIp, e.dupPort⟩

def Hosts.clientAddr (e : Hosts) : SockAddr := ⟨htonl e.clientIp, e.clientPort⟩

namespace StreamSocket

def tcpSyn (s : StreamSocket) (dst : SockAddr) : StreamSocket × TcpSend :=
  s.transmit dst 0 { TcpFlags.init with syn := true } []

def downSem (s : StreamSocket) (pid : Nat) : StreamSocket := { s with sem := s.sem.down pid }

def setAddr (s : StreamSocket) (addr : SockAddr) : StreamSocket := { s with addr := addr }

def setConnected (s : StreamSocket) : StreamSocket := { s with state := .connected }

/-- A statement of `connect` to the listening port; `none` while the process sleeps, and at the end. -/
def connectStep (e : Hosts) (s : StreamSocket) : ConnectAt → Option (ConnectAt × StreamSocket × List TcpSend)
  | .begin =>
    if s.state = .connecting ∨ s.state = .connected ∨ s.tcpState ≠ .closed then some (.failed, s, [])
    else some (.addressed, s.setAddr e.clientAddr, [])
  | .addressed =>
    let x := s.tcpSyn ⟨htonl e.serverIp, e.listenPort⟩
    some (.synced, x.1, [x.2])
  | .synced => some (.sent, s.setTcpState .synSent, [])
  | .sent => some (.waiting, s.downSem e.connectPid, [])
  | .waiting => if e.connectPid ∈ s.sem.waitList then none else some (.woken, s.setTcpState .established, [])
  | .woken => some (.connected, s.setConnected, [])
  | .connected =>
    let x := s.tcpAck s.ackNo false
    some (.returned, x.1, [x.2])
  | .returned => none
  | .failed => none

end StreamSocket

namespace StreamTable

/-- A statement of `accept`; `none` while the process sleeps, and at the end. -/
def acceptStep (e : Hosts) (t : StreamTable) : AcceptAt → Option (AcceptAt × StreamTable × List TcpSend)
  | .asleep => if e.acceptPid ∈ (t e.listener).sem.waitList then none else some (.poll, t, [])
  | .poll =>
    match (t e.listener).connectingList with
    | [] => some (.asleep, t.set e.listener ((t e.listener).downSem e.acceptPid), [])
    | a :: as => some (.popped a, t.set e.listener { t e.listener with connectingList := as }, [])
  | .popped a => some (.peered, t.set e.dup ((t e.dup).setPeerAddr a), [])
  | .peered => some (.rcvd, t.set e.dup ((t e.dup).setTcpState .synRcvd), [])
  | .rcvd =>
    let x := (t e.dup).tcpAck (t e.dup).ackNo true
    some (.answered, t.set e.dup x.1, [x.2])
  | .answered => some (.waiting, t.set e.dup ((t e.dup).downSem e.acceptPid), [])
  | .waiting =>
    if e.acceptPid ∈ (t e.dup).sem.waitList then none
    else some (.woken, t.set e.dup ((t e.dup).setTcpState .established), [])
  | .woken => some (.returned, t.set e.dup (t e.dup).setConnected, [])
  | .returned => none

end StreamTable

/-- A connection being made: the sockets of the two hosts, the two calls, the segments on their way, and all that
have been sent. -/
structure Handshake where
  server : StreamTable
  client : StreamTable
  acceptAt : AcceptAt
  connectAt : ConnectAt
  toServer : List TcpSend
  toClient : List TcpSend
  fromServer : List TcpSend
  fromClient : List TcpSend

namespace Handshake

inductive Act
  | connect
  | accept
  | deliverServer
  | deliverClient
  deriving DecidableEq

def step (e : Hosts) (s : Handshake) : Act → Option Handshake
  | .connect => ((s.client e.client).connectStep e s.connectAt).map fun x =>
    { s with
      connectAt := x.1
      client := s.client.set e.client x.2.1
      toServer := s.toServer ++ x.2.2
      fromClient := s.fromClient ++ x.2.2 }
  | .accept => (s.server.acceptStep e s.acceptAt).map fun x =>
    { s with
      acceptAt := x.1
      server := x.2.1
      toClient := s.toClient ++ x.2.2
      fromServer := s.fromServer ++ x.2.2 }
  | .deliverServer =>
    match s.toServer with
    | [] => none
    | p :: rest => (s.server.streamNetReceive p.hdr e.clientIp p.payload).map fun x =>
      { s with
        server := x.2.1
        toServer := rest
        toClient := s.toClient ++ x.2.2
        fromServer := s.fromServer ++ x.2.2 }
  | .deliverClient =>
    match s.toClient with
    | [] => none
    | p :: rest => (s.client.streamNetReceive p.hdr e.serverIp p.payload).map fun x =>
      { s with
        client := x.2.1
        toClient := rest
        toServer := s.toServer ++ x.2.2
        fromClient := s.fromClient ++ x.2.2 }

/-- The server waits in `accept` with nobody queued, the client has a new socket, and no other socket has one of
the ports. -/
structure Start (e : Hosts) (s : Handshake) : Prop where
  apart : e.listener ≠ e.dup
  listenLive : (s.server e.listener).ref ≠ 0
  listenPort : (s.server e.listener).addr.port = e.listenPort
  listens : (s.server e.listener).tcpState = .listen
  queue : (s.server e.listener).connectingList = []
  listenSem : (s.server e.listener).sem = ⟨0, [e.acceptPid]⟩
  dupSocket : (s.server e.listener).dupSocket = some e.dup
  dupLive : (s.server e.dup).ref ≠ 0
  dupAddr : (s.server e.dup).addr = e.dupAddr
  dupSem : (s.server e.dup).sem = ⟨0, []⟩
  dupSeq : (s.server e.dup).seqNo = e.dupSeq
  clientLive : (s.client e.client).ref ≠ 0
  closed : (s.client e.client).tcpState = .closed
  unconnected : (s.client e.client).state = .unconnected
  clientSem : (s.client e.client).sem = ⟨0, []⟩
  clientSeq : (s.client e.client).seqNo = e.clientSeq
  soleListen : ∀ j, j ≠ e.listener → (s.server j).ref ≠ 0 → (s.server j).addr.port ≠ e.listenPort
  soleDup : ∀ j, j ≠ e.dup → (s.server j).ref ≠ 0 → (s.server j).addr.port ≠ e.dupPort
  soleClient : ∀ j, j ≠ e.client → (s.client j).ref ≠ 0 → (s.client j).addr.port ≠ e.clientPort
  acceptAt : s.acceptAt = .asleep
  connectAt : s.connectAt = .begin
  toServer : s.toServer = []
  toClient : s.toClient = []
  fromServer : s.fromServer = []
  fromClient : s.fromClient = []

/-- Nothing is on its way and a call has not returned, yet nobody can go on. -/
def Stuck (e : Hosts) (s : Handshake) : Prop :=
  s.toServer = [] ∧ s.toClient = [] ∧ ¬(s.connectAt = .returned ∧ s.acceptAt = .returned) ∧ ∀ a, s.step e a = none

/-- Both sockets are established, know each other, and have acknowledged all that the other has sent. -/
structure Established (e : Hosts) (s : Handshake) : Prop where
  client : (s.client e.client).tcpState = .established
  server : (s.server e.dup).tcpState = .established
  clientPeer : (s.client e.client).peerAddr = (s.server e.dup).addr
  serverPeer : (s.server e.dup).peerAddr = (s.client e.client).addr
  clientAck : ∃ p, s.fromServer.getLast? = some p ∧ (s.client e.client).ackNo = p.seqNo + 1
  serverAck : ∃ p, s.fromClient.getLast? = some p ∧ (s.server e.dup).ackNo = p.seqNo + 1

/-- A segment reaches the client only once its state says that it waits for one. -/
def Careful (e : Hosts) (s : Handshake) : Act → Prop
  | .deliverClient => (s.client e.client).tcpState = .synSent
  | _ => True

/-- Nothing sent, the SYN under way, received, the SYN-ACK under way, received, the ACK under way, received. -/
inductive Wire
  | quiet
  | syn
  | queued
  | synAck
  | heard
  | ack
  | acked
  deriving DecidableEq

def synSeg (e : Hosts) : TcpSend :=
  ⟨ntohl (htonl e.serverIp), ntohs e.clientPort, ntohs e.listenPort, e.clientSeq, 0,
    { TcpFlags.init with syn := true }, []⟩

def synAckSeg (e : Hosts) : TcpSend :=
  ⟨ntohl (htonl e.clientIp), ntohs e.dupPort, ntohs e.clientPort, e.dupSeq, e.clientSeq + 1,
    { TcpFlags.init with ack := true, syn := true }, []⟩

def ackSeg (e : Hosts) : TcpSend :=
  ⟨ntohl (htonl e.serverIp), ntohs e.clientPort, ntohs e.dupPort, e.clientSeq + 1, e.dupSeq + 1,
    { TcpFlags.init with ack := true, syn := false }, []⟩

def Wire.segments (e : Hosts) : Wire → List TcpSend × List TcpSend
  | .syn => ([synSeg e], [])
  | .synAck => ([], [synAckSeg e])
  | .ack => ([ackSeg e], [])
  | _ => ([], [])

def Wire.Heard : Wire → Prop
  | .heard | .ack | .acked => True
  | _ => False

/-- What is on the wire while `connect` is at some place. -/
def clientFits : ConnectAt → Wire → Prop
  | .begin, g | .addressed, g => g = .quiet
  | .synced, g => g = .syn ∨ g = .queued ∨ g = .synAck
  | .sent, g | .waiting, g => g = .syn ∨ g = .queued ∨ g = .synAck ∨ g = .heard
  | .woken, g | .connected, g => g = .heard
  | .returned, g => g = .ack ∨ g = .acked
  | .failed, _ => False

def clientTcp : ConnectAt → TcpState
  | .begin | .addressed | .synced => .closed
  | .sent | .waiting => .synSent
  | _ => .established

/-- An `up` comes before the `down` of the process, or takes it off the list. -/
def clientSem (e : Hosts) : ConnectAt → Wire → Semaphore
  | .sent, .heard => ⟨1, []⟩
  | .waiting, .heard => ⟨0, []⟩
  | .waiting, _ => ⟨0, [e.connectPid]⟩
  | _, _ => ⟨0, []⟩

def clientSent (e : Hosts) : ConnectAt → List TcpSend
  | .begin | .addressed => []
  | .returned => [synSeg e, ackSeg e]
  | _ => [synSeg e]

structure ClientInv (e : Hosts) (g : Wire) (place : ConnectAt) (k : StreamSocket) : Prop where
  fits : clientFits place g
  live : k.ref ≠ 0
  tcp : k.tcpState = clientTcp place
  sem : k.sem = clientSem e place g
  seq : k.seqNo = e.clientSeq + BitVec.ofNat 32 (clientSent e place).length
  fresh : place = .begin → k.state = .unconnected
  addr : place ≠ .begin → k.addr = e.clientAddr
  peer : g.Heard → k.peerAddr = e.dupAddr ∧ k.ackNo = e.dupSeq + 1

def serverFits (e : Hosts) : AcceptAt → Wire → Prop
  | .asleep, g => g = .quiet ∨ g = .syn ∨ g = .queued
  | .poll, g | .peered, g | .rcvd, g => g = .queued
  | .popped a, g => g = .queued ∧ a = e.clientAddr
  | .answered, g | .waiting, g => g = .synAck ∨ g = .heard ∨ g = .ack ∨ g = .acked
  | .woken, g | .returned, g => g = .acked

def listenQueue (e : Hosts) : AcceptAt → Wire → List SockAddr
  | .asleep, .queued | .poll, .queued => [e.clientAddr]
  | _, _ => []

def listenSem (e : Hosts) : AcceptAt → Wire → Semaphore
  | .asleep, .quiet | .asleep, .syn => ⟨0, [e.acceptPid]⟩
  | _, _ => ⟨0, []⟩

structure ListenInv (e : Hosts) (g : Wire) (place : AcceptAt) (k : StreamSocket) : Prop where
  live : k.ref ≠ 0
  port : k.addr.port = e.listenPort
  listens : k.tcpState = .listen
  dupSocket : k.dupSocket = some e.dup
  queue : k.connectingList = listenQueue e place g
  sem : k.sem = listenSem e place g

/-- The state of the new socket once `accept` has set it. -/
def dupTcp : AcceptAt → Option TcpState
  | .rcvd | .answered | .waiting => some .synRcvd
  | .woken | .returned => some .established
  | _ => none

def dupSem (e : Hosts) : AcceptAt → Wire → Semaphore
  | .answered, .acked => ⟨1, []⟩
  | .waiting, .acked => ⟨0, []⟩
  | .waiting, _ => ⟨0, [e.acceptPid]⟩
  | _, _ => ⟨0, []⟩

def serverSent (e : Hosts) : AcceptAt → List TcpSend
  | .answered | .waiting | .woken | .returned => [synAckSeg e]
  | _ => []

def dupAck (e : Hosts) : Wire → Option Word
  | .quiet | .syn => none
  | .acked => some (e.clientSeq + 1 + 1)
  | _ => some (e.clientSeq + 1)

structure DupInv (e : Hosts) (g : Wire) (place : AcceptAt) (k : StreamSocket) : Prop where
  live : k.ref ≠ 0
  addr : k.addr = e.dupAddr
  tcp : ∀ st, dupTcp place = some st → k.tcpState = st
  sem : k.sem = dupSem e place g
  seq : k.seqNo = e.dupSeq + BitVec.ofNat 32 (serverSent e place).length
  ack : ∀ n, dupAck e g = some n → k.ackNo = n
  peer : place = .peered ∨ dupTcp place ≠ none → k.peerAddr = e.clientAddr

/-- The two sockets of the server while `accept` is at some place. -/
structure ServerInv (e : Hosts) (g : Wire) (place : AcceptAt) (t : StreamTable) : Prop where
  fits : serverFits e place g
  listener : ListenInv e g place (t e.listener)
  dup : DupInv e g place (t e.dup)

def Sole (t : StreamTable) (i : StreamIx) (port : Half) : Prop :=
  ∀ j, j ≠ i → (t j).ref ≠ 0 → (t j).addr.port ≠ port

structure InvAt (e : Hosts) (g : Wire) (s : Handshake) : Prop where
  apart : e.listener ≠ e.dup
  client : ClientInv e g s.connectAt (s.client e.client)
  server : ServerInv e g s.acceptAt s.server
  soleListen : Sole s.server e.listener e.listenPort
  soleDup : Sole s.server e.dup e.dupPort
  soleClient : Sole s.client e.client e.clientPort
  wire : (s.toServer, s.toClient) = g.segments e
  fromClient : s.fromClient = clientSent e s.connectAt
  fromServer : s.fromServer = serverSent e s.acceptAt

section

variable {e : Hosts} {g g' : Wire} {s s' t : Handshake} {k : StreamSocket}

theorem Start.inv (h : Start e s) : InvAt e .quiet s where
  apart := h.apart
  client := by
    rw [h.connectAt]
    exact ⟨rfl, h.clientLive, h.closed, h.clientSem, by rw [h.clientSeq]; exact (BitVec.add_zero _).symm,
      fun _ => h.unconnected, fun hne => absurd rfl hne, fun hh => absurd hh id⟩
  server := by
    rw [h.acceptAt]
    refine ⟨Or.inl rfl, ⟨h.listenLive, h.listenPort, h.listens, h.dupSocket, h.queue, h.listenSem⟩, h.dupLive,
      h.dupAddr, fun st hst => ?_, h.dupSem, by rw [h.dupSeq]; exact (BitVec.add_zero _).symm, fun n hn => ?_,
      fun hp => ?_⟩
    · cases hst
    · cases hn
    · rcases hp with hp | hp
      · cases hp
      · exact absurd rfl hp
  soleListen := h.soleListen
  soleDup := h.soleDup
  soleClient := h.soleClient
  wire := by
    rw [h.toServer, h.toClient]
    rfl
  fromClient := by
    rw [h.connectAt]
    exact h.fromClient
  fromServer := by
    rw [h.acceptAt]
    exact h.fromServer

variable {place : AcceptAt} {t : StreamTable} {i : StreamIx}

theorem server_move (hg : g = .quiet ∧ g' = .syn ∨ g = .synAck ∧ g' = .heard ∨ g = .heard ∧ g' = .ack)
    (h : ServerInv e g place t) : ServerInv e g' place t := by
  obtain ⟨hf, hl, hd⟩ := h
  have hsame : serverFits e place g' ∧ listenQueue e place g' = listenQueue e place g ∧
      listenSem e place g' = listenSem e place g ∧ dupSem e place g' = dupSem e place g ∧ dupAck e g' = dupAck e g := by
    rcases hg with ⟨rfl, rfl⟩ | ⟨rfl, rfl⟩ | ⟨rfl, rfl⟩
    · cases place with
      | asleep => exact ⟨Or.inr (Or.inl rfl), rfl, rfl, rfl, rfl⟩
      | _ => simp [serverFits] at hf
    · cases place with
      | answered | waiting => exact ⟨Or.inr (Or.inl rfl), rfl, rfl, rfl, rfl⟩
      | _ => simp [serverFits] at hf
    · cases place with
      | answered | waiting => exact ⟨Or.inr (Or.inr (Or.inl rfl)), rfl, rfl, rfl, rfl⟩
      | _ => simp [serverFits] at hf
  obtain ⟨hfits, hqueue, hlisten, hdup, hack⟩ := hsame
  refine ⟨hfits, ⟨hl.live, hl.port, hl.listens, hl.dupSocket, hl.queue.trans hqueue.symm, hl.sem.trans hlisten.symm⟩,
    ⟨hd.live, hd.addr, hd.tcp, hd.sem.trans hdup.symm, hd.seq, ?_, hd.peer⟩⟩
  rw [hack]
  exact hd.ack

theorem client_move {place : ConnectAt}
    (hg : g = .syn ∧ g' = .queued ∨ g = .queued ∧ g' = .synAck ∨ g = .ack ∧ g' = .acked)
    (h : ClientInv e g place k) : ClientInv e g' place k := by
  have hf := h.fits
  have hsame : clientFits place g' ∧ clientSem e place g' = clientSem e place g ∧ (g'.Heard → g.Heard) := by
    rcases hg with ⟨rfl, rfl⟩ | ⟨rfl, rfl⟩ | ⟨rfl, rfl⟩
    all_goals cases place <;> simp_all [clientFits, clientSem, Wire.Heard]
  exact ⟨hsame.1, h.live, h.tcp, h.sem.trans hsame.2.1.symm, h.seq, h.fresh, h.addr, fun hh => h.peer (hsame.2.2 hh)⟩

theorem ClientInv.connectStep {place place' : ConnectAt} {out : List TcpSend} {k' : StreamSocket}
    (h : ClientInv e g place k) (hs : k.connectStep e place = some (place', k', out)) :
    ∃ g', ClientInv e g' place' k' ∧ clientSent e place' = clientSent e place ++ out ∧
      (g' = g ∧ out = [] ∨ g = .quiet ∧ g' = .syn ∧ out = [synSeg e] ∨ g = .heard ∧ g' = .ack ∧ out = [ackSeg e]) := by
  have hfits := h.fits
  have hseq := h.seq
  cases place with
  | begin =>
    have hopen : ¬(k.state = .connecting ∨ k.state = .connected ∨ k.tcpState ≠ .closed) := by
      rw [h.fresh rfl, h.tcp]
      decide
    rw [StreamSocket.connectStep, if_neg hopen] at hs
    cases hs
    exact ⟨g, ⟨hfits, h.live, h.tcp, h.sem, hseq, ConnectAt.noConfusion, fun _ => rfl, h.peer⟩, rfl,
      Or.inl ⟨rfl, rfl⟩⟩
  | addressed =>
    cases hs
    obtain rfl : g = .quiet := hfits
    have hseq0 : k.seqNo = e.clientSeq := hseq.trans (BitVec.add_zero _)
    have hseg : (k.tcpSyn ⟨htonl e.serverIp, e.listenPort⟩).2 = synSeg e := by
      unfold StreamSocket.tcpSyn StreamSocket.transmit synSeg
      rw [h.addr ConnectAt.noConfusion, hseq0]
      rfl
    refine ⟨.syn, ⟨Or.inl rfl, h.live, h.tcp, h.sem, ?_, ConnectAt.noConfusion,
      fun _ => h.addr ConnectAt.noConfusion, fun hh => absurd hh id⟩, ?_, Or.inr (Or.inl ⟨rfl, rfl, by rw [hseg]⟩)⟩
    · change k.seqNo + 1 = _
      rw [hseq0]
      rfl
    · rw [hseg]
      rfl
  | synced =>
    cases hs
    refine ⟨g, ⟨?_, h.live, rfl, ?_, hseq, ConnectAt.noConfusion,
      fun _ => h.addr ConnectAt.noConfusion, h.peer⟩, rfl, Or.inl ⟨rfl, rfl⟩⟩
    · rcases hfits with rfl | rfl | rfl
      · exact Or.inl rfl
      · exact Or.inr (Or.inl rfl)
      · exact Or.inr (Or.inr (Or.inl rfl))
    · rcases hfits with rfl | rfl | rfl
      · exact h.sem
      · exact h.sem
      · exact h.sem
  | sent =>
    cases hs
    refine ⟨g, ⟨hfits, h.live, h.tcp, ?_, hseq, ConnectAt.noConfusion,
      fun _ => h.addr ConnectAt.noConfusion, h.peer⟩, rfl, Or.inl ⟨rfl, rfl⟩⟩
    change k.sem.down e.connectPid = _
    rw [h.sem]
    rcases hfits with rfl | rfl | rfl | rfl
    · rfl
    · rfl
    · rfl
    · rfl
  | waiting =>
    rw [StreamSocket.connectStep, h.sem] at hs
    have hheard : g = .heard := by
      rcases hfits with rfl | rfl | rfl | rfl
      · simp [clientSem] at hs
      · simp [clientSem] at hs
      · simp [clientSem] at hs
      · rfl
    subst hheard
    cases hs
    exact ⟨.heard, ⟨rfl, h.live, rfl, h.sem, hseq, ConnectAt.noConfusion,
      fun _ => h.addr ConnectAt.noConfusion, h.peer⟩, rfl, Or.inl ⟨rfl, rfl⟩⟩
  | woken =>
    cases hs
    exact ⟨g, ⟨hfits, h.live, h.tcp, h.sem, hseq, ConnectAt.noConfusion,
      fun _ => h.addr ConnectAt.noConfusion, h.peer⟩, rfl, Or.inl ⟨rfl, rfl⟩⟩
  | connected =>
    cases hs
    obtain rfl : g = .heard := hfits
    obtain ⟨hpeer, hack⟩ := h.peer trivial
    have hseq1 : k.seqNo = e.clientSeq + 1 := hseq
    have hseg : (k.tcpAck k.ackNo false).2 = ackSeg e := by
      unfold StreamSocket.tcpAck StreamSocket.transmit ackSeg
      rw [h.addr ConnectAt.noConfusion, hseq1, hpeer, hack]
      rfl
    refine ⟨.ack, ⟨Or.inl rfl, h.live, h.tcp, h.sem, ?_, ConnectAt.noConfusion,
      fun _ => h.addr ConnectAt.noConfusion, fun _ => ⟨hpeer, hack⟩⟩, ?_, Or.inr (Or.inr ⟨rfl, rfl, by rw [hseg]⟩)⟩
    · change k.seqNo + 1 = _
      rw [hseq1, BitVec.add_assoc]
      rfl
    · rw [hseg]
      rfl
  | returned => cases hs
  | failed => cases hs

def KeepsAddr (t t' : StreamTable) : Prop := ∀ j, (t' j).ref = (t j).ref ∧ (t' j).addr = (t j).addr

theorem KeepsAddr.set (hr : k.ref = (t i).ref) (ha : k.addr = (t i).addr) : KeepsAddr t (t.set i k) := by
  intro j
  by_cases hj : j = i
  · subst hj
    rw [set_self]
    exact ⟨hr, ha⟩
  · rw [set_of_ne hj]
    exact ⟨rfl, rfl⟩

theorem Sole.keeps {t' : StreamTable} {port : Half} (h : Sole t i port) (hk : KeepsAddr t t') : Sole t' i port := by
  intro j hj hr
  rw [(hk j).2]
  rw [(hk j).1] at hr
  exact h j hj hr

theorem ServerInv.setDup {place' : AcceptAt} (hne : e.listener ≠ e.dup)
    (h : ServerInv e g place t) (hf : serverFits e place' g') (hq : listenQueue e place' g' = listenQueue e place g)
    (hsem : listenSem e place' g' = listenSem e place g) (hd : DupInv e g' place' k) :
    ServerInv e g' place' (t.set e.dup k) := by
  refine ⟨hf, ?_, ?_⟩
  · rw [set_of_ne hne]
    have hl := h.listener
    exact ⟨hl.live, hl.port, hl.listens, hl.dupSocket, hl.queue.trans hq.symm, hl.sem.trans hsem.symm⟩
  · rw [set_self]
    exact hd

theorem ServerInv.acceptStep {place' : AcceptAt} {out : List TcpSend} {t' : StreamTable}
    (hne : e.listener ≠ e.dup) (h : ServerInv e g place t) (hs : t.acceptStep e place = some (place', t', out)) :
    ∃ g', ServerInv e g' place' t' ∧ KeepsAddr t t' ∧ serverSent e place' = serverSent e place ++ out ∧
      (g' = g ∧ out = [] ∨ g = .queued ∧ g' = .synAck ∧ out = [synAckSeg e]) := by
  have hfits := h.fits
  have hl := h.listener
  have hd := h.dup
  cases place with
  | asleep =>
    rw [StreamTable.acceptStep, hl.sem] at hs
    have hqueued : g = .queued := by
      rcases hfits with rfl | rfl | rfl
      · simp [listenSem] at hs
      · simp [listenSem] at hs
      · rfl
    subst hqueued
    cases hs
    exact ⟨.queued, ⟨rfl, ⟨hl.live, hl.port, hl.listens, hl.dupSocket, hl.queue, hl.sem⟩,
      ⟨hd.live, hd.addr, hd.tcp, hd.sem, hd.seq, hd.ack, fun hp => hd.peer (hp.imp AcceptAt.noConfusion id)⟩⟩,
      fun j => ⟨rfl, rfl⟩, rfl, Or.inl ⟨rfl, rfl⟩⟩
  | poll =>
    obtain rfl : g = .queued := hfits
    rw [StreamTable.acceptStep, hl.queue] at hs
    cases hs
    refine ⟨.queued, ⟨⟨rfl, rfl⟩, ?_, ?_⟩, KeepsAddr.set rfl rfl, rfl, Or.inl ⟨rfl, rfl⟩⟩
    · rw [set_self]
      exact ⟨hl.live, hl.port, hl.listens, hl.dupSocket, rfl, hl.sem⟩
    · rw [set_of_ne hne.symm]
      exact ⟨hd.live, hd.addr, hd.tcp, hd.sem, hd.seq, hd.ack, fun hp => hd.peer (hp.imp AcceptAt.noConfusion id)⟩
  | popped a =>
    obtain ⟨rfl, rfl⟩ := hfits
    cases hs
    exact ⟨.queued, h.setDup hne rfl rfl rfl ⟨hd.live, hd.addr, hd.tcp, hd.sem, hd.seq, hd.ack, fun _ => rfl⟩,
      KeepsAddr.set rfl rfl, rfl, Or.inl ⟨rfl, rfl⟩⟩
  | peered =>
    obtain rfl : g = .queued := hfits
    cases hs
    exact ⟨.queued, h.setDup hne rfl rfl rfl ⟨hd.live, hd.addr, fun st hst => Option.some.inj hst, hd.sem, hd.seq, hd.ack,
      fun _ => hd.peer (Or.inl rfl)⟩, KeepsAddr.set rfl rfl, rfl, Or.inl ⟨rfl, rfl⟩⟩
  | rcvd =>
    obtain rfl : g = .queued := hfits
    cases hs
    have hpeer := hd.peer (Or.inr (Option.some_ne_none _))
    have hseq0 : (t e.dup).seqNo = e.dupSeq := hd.seq.trans (BitVec.add_zero _)
    have hseg : ((t e.dup).tcpAck (t e.dup).ackNo true).2 = synAckSeg e := by
      unfold StreamSocket.tcpAck StreamSocket.transmit synAckSeg
      rw [hd.addr, hseq0, hpeer, hd.ack _ rfl]
      rfl
    refine ⟨.synAck, h.setDup hne (Or.inl rfl) rfl rfl ⟨hd.live, hd.addr, hd.tcp, hd.sem, ?_, hd.ack,
      fun _ => hpeer⟩, KeepsAddr.set rfl rfl, ?_, Or.inr ⟨rfl, rfl, by rw [hseg]⟩⟩
    · change (t e.dup).seqNo + 1 = _
      rw [hseq0]
      rfl
    · rw [hseg]
      rfl
  | answered =>
    cases hs
    refine ⟨g, h.setDup hne hfits ?_ ?_ ⟨hd.live, hd.addr, hd.tcp, ?_, hd.seq, hd.ack,
      fun _ => hd.peer (Or.inr (Option.some_ne_none _))⟩, KeepsAddr.set rfl rfl, rfl, Or.inl ⟨rfl, rfl⟩⟩
    · rcases hfits with rfl | rfl | rfl | rfl <;> rfl
    · rcases hfits with rfl | rfl | rfl | rfl <;> rfl
    · change (t e.dup).sem.down e.acceptPid = _
      rw [hd.sem]
      rcases hfits with rfl | rfl | rfl | rfl <;> rfl
  | waiting =>
    rw [StreamTable.acceptStep, hd.sem] at hs
    have hacked : g = .acked := by
      rcases hfits with rfl | rfl | rfl | rfl
      · simp [dupSem] at hs
      · simp [dupSem] at hs
      · simp [dupSem] at hs
      · rfl
    subst hacked
    cases hs
    exact ⟨.acked, h.setDup hne rfl rfl rfl ⟨hd.live, hd.addr, fun st hst => Option.some.inj hst, hd.sem, hd.seq, hd.ack,
      fun _ => hd.peer (Or.inr (Option.some_ne_none _))⟩, KeepsAddr.set rfl rfl, rfl, Or.inl ⟨rfl, rfl⟩⟩
  | woken =>
    obtain rfl : g = .acked := hfits
    cases hs
    exact ⟨.acked, h.setDup hne rfl rfl rfl ⟨hd.live, hd.addr, hd.tcp, hd.sem, hd.seq, hd.ack,
      fun _ => hd.peer (Or.inr (Option.some_ne_none _))⟩, KeepsAddr.set rfl rfl, rfl, Or.inl ⟨rfl, rfl⟩⟩
  | returned => cases hs

theorem Sole.not_addressed {j : StreamIx} {hdr : TcpHdr} (h : Sole t i hdr.dstPort) (hj : j ≠ i) :
    ¬(t j).Addressed hdr := fun ha => h j hj ha.1 ha.2

theorem ServerInv.deliverSyn (hne : e.listener ≠ e.dup)
    (h : ServerInv e .syn place t) (hsole : Sole t e.listener e.listenPort) :
    ∃ t', t.streamNetReceive (synSeg e).hdr e.clientIp (synSeg e).payload = some (0, t', []) ∧ KeepsAddr t t' ∧
      ServerInv e .queued place t' := by
  have hplace : place = .asleep := by
    have hfits := h.fits
    cases place <;> simp [serverFits] at hfits ⊢
  subst hplace
  have hl := h.listener
  have hd := h.dup
  have hport : (synSeg e).hdr.dstPort = e.listenPort := htons_ntohs _
  have hseq : ntohl (synSeg e).hdr.seqNo = e.clientSeq := ntohl_htonl _
  have haddr : (⟨ntohl e.clientIp, ntohs (ntohs (synSeg e).hdr.srcPort)⟩ : SockAddr) = e.clientAddr := by
    have hsrc : (synSeg e).hdr.srcPort = e.clientPort := htons_ntohs _
    rw [hsrc]
    exact congrArg (SockAddr.mk _) (htons_ntohs _)
  obtain ⟨t', ht'⟩ : ∃ t', t' = (t.set e.listener ((t e.listener).setAckNo (e.clientSeq + 1))).queueSyn e.listener e.dup
      e.clientAddr (e.clientSeq + 1) := ⟨_, rfl⟩
  have hreceive : t.netReceive e.listener (synSeg e).hdr e.clientIp (ntohs (synSeg e).hdr.srcPort) (synSeg e).payload =
      some (0, t', []) := by
    rw [netReceive_of_syn rfl, hseq, netReceiveSyn_listen rfl, hseq, haddr,
      set_self, show ((t e.listener).setAckNo (e.clientSeq + 1)).dupSocket = some e.dup from hl.dupSocket,
      Option.map_some, Option.map_some, ← ht']
    · rw [set_self]
      exact hl.listens
  have hlisten : t' e.listener =
      (((t e.listener).setAckNo (e.clientSeq + 1)).pushConnecting e.clientAddr).upSem := by
    rw [ht', queueSyn_self hne.symm, set_self]
  have hother : ∀ j, j ≠ e.listener → t' j = if e.dup = j then (t j).setAckNo (e.clientSeq + 1) else t j := by
    intro j hj
    rw [ht', queueSyn_of_ne hj, set_of_ne hj]
  refine ⟨t', streamNetReceive_sole_taken ⟨hl.live, hl.port.trans hport.symm⟩ (fun j hj => ?_) hreceive,
    fun j => ?_, ⟨Or.inr (Or.inr rfl), ?_, ?_⟩⟩
  · rw [← hport] at hsole
    exact hsole.not_addressed hj
  · by_cases hj : j = e.listener
    · subst hj
      rw [hlisten]
      exact ⟨rfl, rfl⟩
    · rw [hother j hj]
      split
      · exact ⟨rfl, rfl⟩
      · exact ⟨rfl, rfl⟩
  · rw [hlisten]
    refine ⟨hl.live, hl.port, hl.listens, hl.dupSocket, ?_, ?_⟩
    · change (t e.listener).connectingList ++ [e.clientAddr] = _
      rw [hl.queue]
      rfl
    · change (t e.listener).sem.up = _
      rw [hl.sem]
      rfl
  · rw [hother _ hne.symm, if_pos rfl]
    exact ⟨hd.live, hd.addr, hd.tcp, hd.sem, hd.seq, fun n hn => Option.some.inj hn, hd.peer⟩

theorem ServerInv.deliverAck (hne : e.listener ≠ e.dup)
    (h : ServerInv e .ack place t) (hsole : Sole t e.dup e.dupPort) :
    ∃ r t', t.streamNetReceive (ackSeg e).hdr e.clientIp (ackSeg e).payload = some (r, t', []) ∧ KeepsAddr t t' ∧
      ServerInv e .acked place t' := by
  have hd := h.dup
  have hwait : place = .answered ∨ place = .waiting := by
    have hfits := h.fits
    cases place <;> simp [serverFits] at hfits ⊢
  have hrcvd : dupTcp place = some .synRcvd := by rcases hwait with rfl | rfl <;> rfl
  have hpeer : (t e.dup).peerAddr = e.clientAddr := hd.peer (Or.inr (by rw [hrcvd]; exact Option.some_ne_none _))
  have hport : (ackSeg e).hdr.dstPort = e.dupPort := htons_ntohs _
  have hfrom : (t e.dup).FromPeer (ackSeg e) := by
    refine ⟨?_, ?_, rfl⟩
    · rw [hport, hd.addr]
      rfl
    · rw [hpeer]
      exact htons_ntohs _
  have hdeliver : (t e.dup).deliver (ackSeg e) e.clientIp = (((t e.dup).setAckNo (e.clientSeq + 1 + 1)).upSem, []) := by
    rw [StreamSocket.deliver_ack hd.live hfrom (by rw [hpeer]; rfl) rfl rfl, hd.tcp _ hrcvd]
    rfl
  obtain ⟨r, hr⟩ : ∃ r, t.streamNetReceive (ackSeg e).hdr e.clientIp (ackSeg e).payload = some (r,
      t.set e.dup ((t e.dup).deliver (ackSeg e) e.clientIp).1, ((t e.dup).deliver (ackSeg e) e.clientIp).2) := by
    rw [← hport] at hsole
    exact streamNetReceive_deliver (fun j hj => hsole.not_addressed hj) rfl
  rw [hdeliver] at hr
  refine ⟨r, _, hr, KeepsAddr.set rfl rfl, ?_⟩
  have hnext : serverFits e place .acked ∧ listenQueue e place .acked = listenQueue e place .ack ∧
      listenSem e place .acked = listenSem e place .ack ∧ (dupSem e place .ack).up = dupSem e place .acked := by
    rcases hwait with rfl | rfl
    all_goals exact ⟨Or.inr (Or.inr (Or.inr rfl)), rfl, rfl, rfl⟩
  refine h.setDup hne hnext.1 hnext.2.1 hnext.2.2.1 ⟨hd.live, hd.addr, hd.tcp, ?_, hd.seq, fun n hn => Option.some.inj hn,
    hd.peer⟩
  change (t e.dup).sem.up = _
  rw [hd.sem, hnext.2.2.2]

theorem ClientInv.deliverSynAck {place : ConnectAt} (h : ClientInv e .synAck place (t e.client))
    (hst : (t e.client).tcpState = .synSent) (hsole : Sole t e.client e.clientPort) :
    ∃ k, t.streamNetReceive (synAckSeg e).hdr e.serverIp (synAckSeg e).payload = some (0, t.set e.client k, []) ∧
      ClientInv e .heard place k := by
  have hwait : place = .sent ∨ place = .waiting := by
    have htcp := h.tcp
    rw [hst] at htcp
    cases place <;> simp [clientTcp] at htcp ⊢
  have haddr : (t e.client).addr = e.clientAddr := h.addr (by rcases hwait with rfl | rfl <;> exact ConnectAt.noConfusion)
  have hport : (synAckSeg e).hdr.dstPort = e.clientPort := htons_ntohs _
  have hseq : ntohl (synAckSeg e).hdr.seqNo = e.dupSeq := ntohl_htonl _
  have hpeer : (⟨htonl e.serverIp, htons (ntohs (synAckSeg e).hdr.srcPort)⟩ : SockAddr) = e.dupAddr := by
    rw [htons_ntohs]
    exact congrArg (SockAddr.mk _) (htons_ntohs _)
  have hreceive : t.netReceive e.client (synAckSeg e).hdr e.serverIp (ntohs (synAckSeg e).hdr.srcPort)
      (synAckSeg e).payload = some (0, t.set e.client (((((t e.client).setAckNo (e.dupSeq + 1)).setPeerAddr
        e.dupAddr).setAckNo (e.dupSeq + 1)).upSem), []) := by
    rw [netReceive_of_syn rfl, hseq, netReceiveSyn_synSent rfl, hseq, hpeer, set_self,
      StreamTable.set, StreamTable.set, Function.update_idem]
    · rfl
    · rw [set_self]
      exact hst
  refine ⟨_, streamNetReceive_sole_taken ⟨h.live, ?_⟩ (fun j hj => ?_) hreceive, ?_⟩
  · rw [haddr, hport]
    rfl
  · rw [← hport] at hsole
    exact hsole.not_addressed hj
  · have hsem : (clientSem e place .synAck).up = clientSem e place .heard := by rcases hwait with rfl | rfl <;> rfl
    refine ⟨?_, h.live, h.tcp, ?_, h.seq, h.fresh, h.addr, fun _ => ⟨rfl, rfl⟩⟩
    · rcases hwait with rfl | rfl
      · exact Or.inr (Or.inr (Or.inr rfl))
      · exact Or.inr (Or.inr (Or.inr rfl))
    · change (t e.client).sem.up = _
      rw [h.sem, hsem]

section

variable (h : InvAt e g s)
include h

theorem InvAt.connect (hs : s.step e .connect = some s') : ∃ g', InvAt e g' s' := by
  obtain ⟨⟨place', k', out⟩, hx, rfl⟩ := Option.map_eq_some_iff.mp hs
  obtain ⟨g', hc, hsent, hmove⟩ := h.client.connectStep hx
  obtain ⟨hto, hcl⟩ := Prod.mk.inj h.wire
  have hserver : ServerInv e g' s.acceptAt s.server := by
    rcases hmove with ⟨rfl, -⟩ | ⟨rfl, rfl, -⟩ | ⟨rfl, rfl, -⟩
    · exact h.server
    · exact server_move (Or.inl ⟨rfl, rfl⟩) h.server
    · exact server_move (Or.inr (Or.inr ⟨rfl, rfl⟩)) h.server
  refine ⟨g', h.apart, ?_, hserver, h.soleListen, h.soleDup, fun j hj => ?_, ?_, ?_, h.fromServer⟩
  · change ClientInv e g' place' (s.client.set e.client k' e.client)
    rw [set_self]
    exact hc
  · change (s.client.set e.client k' j).ref ≠ 0 → (s.client.set e.client k' j).addr.port ≠ e.clientPort
    rw [set_of_ne hj]
    exact h.soleClient j hj
  · change (s.toServer ++ out, s.toClient) = _
    rcases hmove with ⟨rfl, rfl⟩ | ⟨rfl, rfl, rfl⟩ | ⟨rfl, rfl, rfl⟩
    · rw [List.append_nil]
      exact h.wire
    · rw [hto, hcl]
      rfl
    · rw [hto, hcl]
      rfl
  · change s.fromClient ++ out = _
    rw [h.fromClient, hsent]

theorem InvAt.accept (hs : s.step e .accept = some s') : ∃ g', InvAt e g' s' := by
  obtain ⟨⟨place', t', out⟩, hx, rfl⟩ := Option.map_eq_some_iff.mp hs
  obtain ⟨g', hserver, hkeeps, hsent, hmove⟩ := h.server.acceptStep h.apart hx
  obtain ⟨hto, hcl⟩ := Prod.mk.inj h.wire
  have hclient : ClientInv e g' s.connectAt (s.client e.client) := by
    rcases hmove with ⟨rfl, -⟩ | ⟨rfl, rfl, -⟩
    · exact h.client
    · exact client_move (Or.inr (Or.inl ⟨rfl, rfl⟩)) h.client
  refine ⟨g', h.apart, hclient, hserver, h.soleListen.keeps hkeeps, h.soleDup.keeps hkeeps, h.soleClient, ?_,
    h.fromClient, ?_⟩
  · change (s.toServer, s.toClient ++ out) = _
    rcases hmove with ⟨rfl, rfl⟩ | ⟨rfl, rfl, rfl⟩
    · rw [List.append_nil]
      exact h.wire
    · rw [hto, hcl]
      rfl
  · change s.fromServer ++ out = _
    rw [h.fromServer, hsent]

theorem InvAt.received (hkeeps : KeepsAddr s.server t)
    (hserver : ServerInv e g' s.acceptAt t) (hg : g = .syn ∧ g' = .queued ∨ g = .ack ∧ g' = .acked) :
    InvAt e g' { s with
      server := t
      toServer := []
      toClient := s.toClient ++ []
      fromServer := s.fromServer ++ [] } := by
  obtain ⟨-, hcl⟩ := Prod.mk.inj h.wire
  refine ⟨h.apart, client_move ?_ h.client, hserver, h.soleListen.keeps hkeeps, h.soleDup.keeps hkeeps, h.soleClient, ?_,
    h.fromClient, ?_⟩
  · rcases hg with hg | hg
    · exact Or.inl hg
    · exact Or.inr (Or.inr hg)
  · change ([], s.toClient ++ []) = _
    rw [hcl]
    rcases hg with ⟨rfl, rfl⟩ | ⟨rfl, rfl⟩
    · rfl
    · rfl
  · change s.fromServer ++ [] = _
    rw [List.append_nil]
    exact h.fromServer

theorem InvAt.deliverServer (hs : s.step e .deliverServer = some s') : ∃ g', InvAt e g' s' := by
  obtain ⟨hto, -⟩ := Prod.mk.inj h.wire
  rw [step, hto] at hs
  cases g with
  | syn =>
    obtain ⟨t', ht, hkeeps, hserver⟩ := h.server.deliverSyn h.apart h.soleListen
    change (s.server.streamNetReceive _ _ _).map _ = _ at hs
    rw [ht] at hs
    cases hs
    exact ⟨.queued, h.received hkeeps hserver (Or.inl ⟨rfl, rfl⟩)⟩
  | ack =>
    obtain ⟨r, t', ht, hkeeps, hserver⟩ := h.server.deliverAck h.apart h.soleDup
    change (s.server.streamNetReceive _ _ _).map _ = _ at hs
    rw [ht] at hs
    cases hs
    exact ⟨.acked, h.received hkeeps hserver (Or.inr ⟨rfl, rfl⟩)⟩
  | _ => cases hs

theorem InvAt.deliverClient (hst : (s.client e.client).tcpState = .synSent)
    (hs : s.step e .deliverClient = some s') : ∃ g', InvAt e g' s' := by
  obtain ⟨hto, hcl⟩ := Prod.mk.inj h.wire
  rw [step, hcl] at hs
  cases g with
  | synAck =>
    obtain ⟨k, hk, hc⟩ := h.client.deliverSynAck hst h.soleClient
    change (s.client.streamNetReceive _ _ _).map _ = _ at hs
    rw [hk] at hs
    cases hs
    refine ⟨.heard, h.apart, ?_, server_move (Or.inr (Or.inl ⟨rfl, rfl⟩)) h.server, h.soleListen, h.soleDup,
      fun j hj => ?_, ?_, ?_, h.fromServer⟩
    · change ClientInv e .heard s.connectAt (s.client.set e.client k e.client)
      rw [set_self]
      exact hc
    · change (s.client.set e.client k j).ref ≠ 0 → (s.client.set e.client k j).addr.port ≠ e.clientPort
      rw [set_of_ne hj]
      exact h.soleClient j hj
    · change (s.toServer ++ [], []) = _
      rw [hto]
      rfl
    · change s.fromClient ++ [] = _
      rw [List.append_nil]
      exact h.fromClient
  | _ => cases hs

theorem InvAt.step {a : Act} (hc : Careful e s a) (hs : s.step e a = some s') : ∃ g', InvAt e g' s' := by
  cases a with
  | connect => exact h.connect hs
  | accept => exact h.accept hs
  | deliverServer => exact h.deliverServer hs
  | deliverClient => exact h.deliverClient hc hs

end

theorem ClientInv.blocked {place : ConnectAt} (h : ClientInv e g place k) (hs : k.connectStep e place = none) :
    g = .syn ∨ g = .queued ∨ g = .synAck ∨ place = .returned ∧ (g = .ack ∨ g = .acked) := by
  have hfits := h.fits
  cases place with
  | begin =>
    rw [StreamSocket.connectStep] at hs
    split at hs
    · cases hs
    · cases hs
  | waiting =>
    rcases hfits with rfl | rfl | rfl | rfl
    · exact Or.inl rfl
    · exact Or.inr (Or.inl rfl)
    · exact Or.inr (Or.inr (Or.inl rfl))
    · rw [StreamSocket.connectStep, h.sem] at hs
      cases hs
  | returned => exact Or.inr (Or.inr (Or.inr ⟨rfl, hfits⟩))
  | failed => exact absurd hfits id
  | _ => cases hs

theorem ServerInv.blocked (h : ServerInv e g place t) (hs : t.acceptStep e place = none) :
    g ≠ .queued ∧ (g = .acked → place = .returned) := by
  have hfits := h.fits
  cases place with
  | asleep =>
    rcases hfits with rfl | rfl | rfl
    · exact ⟨Wire.noConfusion, Wire.noConfusion⟩
    · exact ⟨Wire.noConfusion, Wire.noConfusion⟩
    · rw [StreamTable.acceptStep, h.listener.sem] at hs
      cases hs
  | poll =>
    rw [StreamTable.acceptStep] at hs
    split at hs
    · cases hs
    · cases hs
  | waiting =>
    rcases hfits with rfl | rfl | rfl | rfl
    · exact ⟨Wire.noConfusion, Wire.noConfusion⟩
    · exact ⟨Wire.noConfusion, Wire.noConfusion⟩
    · exact ⟨Wire.noConfusion, Wire.noConfusion⟩
    · rw [StreamTable.acceptStep, h.dup.sem] at hs
      cases hs
  | returned =>
    obtain rfl : g = .acked := hfits
    exact ⟨Wire.noConfusion, fun _ => rfl⟩
  | _ => cases hs

theorem InvAt.not_stuck (h : InvAt e g s) : ¬Stuck e s := by
  rintro ⟨hto, hcl, hopen, hnone⟩
  have hwire := h.wire
  rw [hto, hcl] at hwire
  have hconnect := h.client.blocked (Option.map_eq_none_iff.mp (hnone .connect))
  obtain ⟨hqueued, hacked⟩ := h.server.blocked (Option.map_eq_none_iff.mp (hnone .accept))
  rcases hconnect with rfl | rfl | rfl | ⟨hret, rfl | rfl⟩
  · cases hwire
  · exact hqueued rfl
  · cases hwire
  · cases hwire
  · exact hopen ⟨hret, hacked rfl⟩

theorem InvAt.established (h : InvAt e g s) (hc : s.connectAt = .returned) (ha : s.acceptAt = .returned) :
    Established e s := by
  have hclient := h.client
  have hdup := h.server.dup
  have hfits := h.server.fits
  have hfromClient := h.fromClient
  have hfromServer := h.fromServer
  rw [hc] at hclient hfromClient
  rw [ha] at hdup hfits hfromServer
  obtain rfl : g = .acked := hfits
  obtain ⟨hpeer, hack⟩ := hclient.peer trivial
  refine ⟨hclient.tcp, hdup.tcp _ rfl, hpeer.trans hdup.addr.symm, ?_, ⟨synAckSeg e, ?_, hack⟩,
    ⟨ackSeg e, ?_, hdup.ack _ rfl⟩⟩
  · rw [hclient.addr ConnectAt.noConfusion]
    exact hdup.peer (Or.inr (Option.some_ne_none _))
  · rw [hfromServer]
    rfl
  · rw [hfromClient]
    rfl

/-- While segments reach the client only after `m_tcp_state = ST_SYN_SENT`, an unfinished call can go on or a
segment is on its way, and when both have returned the connection is established. -/
theorem handshake_completes {as : List Act} (h : Start e s) (hc : Along (Handshake.step e) (Careful e) s as)
    (hr : run (Handshake.step e) s as = some s') :
    ¬Stuck e s' ∧ (s'.connectAt = .returned ∧ s'.acceptAt = .returned → Established e s') := by
  have hinv : ∃ g, InvAt e g s' :=
    run_invariant (I := fun s => ∃ g, InvAt e g s) (fun _ _ _ hi hc hs => hi.elim fun _ hi => hi.step hc hs)
      ⟨.quiet, h.inv⟩ hc hr
  obtain ⟨g, hg⟩ := hinv
  exact ⟨hg.not_stuck, fun hret => hg.established hret.1 hret.2⟩

end

def hosts : Hosts where
  listener := 0
  dup := 1
  client := 0
  serverIp := 0x0a000204
  clientIp := 0x0a000203
  listenPort := htons 80
  dupPort := htons 4097
  clientPort := htons 4096
  acceptPid := 5
  connectPid := 6
  dupSeq := 100
  clientSeq := 200

def spareSocket : StreamSocket := { StreamSocket.create (fun _ => 0) with ref := 0 }

def begun : Handshake where
  server i :=
    if i = 0 then { StreamSocket.create (fun _ => 0) with
      tcpState := .listen, addr := ⟨0, hosts.listenPort⟩, sem := ⟨0, [hosts.acceptPid]⟩, dupSocket := some hosts.dup }
    else if i = 1 then { StreamSocket.create (fun _ => 0) with addr := hosts.dupAddr, seqNo := hosts.dupSeq }
    else spareSocket
  client i := if i = 0 then { StreamSocket.create (fun _ => 0) with seqNo := hosts.clientSeq } else spareSocket
  acceptAt := .asleep
  connectAt := .begin
  toServer := []
  toClient := []
  fromServer := []
  fromClient := []

theorem begun_start : Start hosts begun := by
  refine ⟨by decide, Nat.one_ne_zero, rfl, rfl, rfl, rfl, rfl, Nat.one_ne_zero, rfl, rfl, rfl, Nat.one_ne_zero, rfl, rfl,
    rfl, rfl, fun j hj hr => ?_, fun j hj hr => ?_, fun j hj hr => ?_, rfl, rfl, rfl, rfl, rfl, rfl⟩
  all_goals
    revert hj hr
    revert j
    decide

theorem handshake_completes_once : ∃ s', run (Handshake.step hosts) begun
    [.connect, .connect, .connect, .connect, .deliverServer, .accept, .accept, .accept, .accept, .accept, .accept,
      .deliverClient, .connect, .connect, .connect, .deliverServer, .accept, .accept] = some s' ∧
    ¬Stuck hosts s' ∧ Established hosts s' := by
  have hcareful : Along (Handshake.step hosts) (Careful hosts) begun
      [.connect, .connect, .connect, .connect, .deliverServer, .accept, .accept, .accept, .accept, .accept, .accept,
        .deliverClient, .connect, .connect, .connect, .deliverServer, .accept, .accept] := by
    refine along_cons trivial rfl (along_cons trivial rfl (along_cons trivial rfl (along_cons trivial rfl ?_)))
    refine along_cons trivial rfl (along_cons trivial rfl (along_cons trivial rfl (along_cons trivial rfl ?_)))
    refine along_cons trivial rfl (along_cons trivial rfl (along_cons trivial rfl (along_cons rfl rfl ?_)))
    refine along_cons trivial rfl (along_cons trivial rfl (along_cons trivial rfl (along_cons trivial rfl ?_)))
    exact along_cons trivial rfl (along_cons trivial rfl trivial)
  obtain ⟨hgo, hest⟩ := handshake_completes begun_start hcareful rfl
  exact ⟨_, rfl, hgo, hest ⟨rfl, rfl⟩⟩

/-- The SYN-ACK arrives after the SYN was sent and before the client's state says so: it is dropped, and both
calls sleep for ever. -/
theorem handshake_lost : Start hosts begun ∧ ∃ s', run (Handshake.step hosts) begun
    [.connect, .connect, .deliverServer, .accept, .accept, .accept, .accept, .accept, .accept, .deliverClient, .connect,
      .connect] = some s' ∧ Stuck hosts s' := by
  refine ⟨begun_start, _, rfl, rfl, rfl, ?_, fun a => ?_⟩
  · decide
  · cases a with
    | connect => rfl
    | accept => rfl
    | deliverServer => rfl
    | deliverClient => rfl

end Handshake

end BabyOS
