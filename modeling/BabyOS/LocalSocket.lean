import BabyOS.Runs
import BabyOS.StreamSocket

open Function

namespace BabyOS

/-- `sock_addr_local_t`; the path without its terminating zero. -/
structure SockAddrLocal where
  family : Half
  path : List Byte
  deriving DecidableEq

def afLocal : Half := 1

def sfAcceptCon : Word := 0x10000

def sfWaitData : Word := 0x20000

abbrev LocalIx := Fin 128

/-- `socket_local_t`; the semaphores by their counts. -/
structure LocalSocket where
  ref : Word
  addr : SockAddrLocal
  flags : Word
  state : SockState
  connectingList : List LocalIx
  connectedSocket : Option LocalIx
  waitConnectSem : Nat
  waitAcceptSem : Nat
  deriving DecidableEq

namespace LocalSocket

/-- `create`, which leaves the flags and the family of the address as the slot's last owner left them. -/
def create (s : LocalSocket) : LocalSocket :=
  { s with
    ref := 1, state := .unconnected, addr := { s.addr with path := [] }, connectingList := []
    connectedSocket := none, waitConnectSem := 0, waitAcceptSem := 0 }

def acceptCon (s : LocalSocket) : Bool := s.flags &&& sfAcceptCon != 0

end LocalSocket

abbrev LocalTable := LocalIx → LocalSocket

namespace LocalTable

def allocLocalSocket (t : LocalTable) : Option LocalIx :=
  (List.finRange 128).find? fun i => (t i).ref == 0

def lookupLocalSocket (t : LocalTable) (addr : SockAddrLocal) : Option LocalIx :=
  (List.finRange 128).find? fun i => (t i).addr == addr

def bindLocalSocket (t : LocalTable) (i : LocalIx) (addr : SockAddrLocal) : Option LocalTable :=
  if (List.finRange 128).any fun j => (t j).addr == addr && (t j).ref != 0 then none
  else some (update t i { t i with addr })

def setState (t : LocalTable) (i : LocalIx) (state : SockState) : LocalTable :=
  update t i { t i with state }

def incRef (t : LocalTable) (i : LocalIx) : LocalTable :=
  update t i { t i with ref := (t i).ref + 1 }

def decRef (t : LocalTable) (i : LocalIx) : LocalTable :=
  update t i { t i with ref := (t i).ref - 1 }

def link (t : LocalTable) (a c : LocalIx) : LocalTable :=
  let t := update t c { t c with connectedSocket := some a, state := .connected }
  update t a { t a with connectedSocket := some c, state := .connected }

def leave (t : LocalTable) (x : LocalIx) : LocalTable :=
  if (t x).state = .unconnected then t else t.setState x .disconnecting

def drop (t : LocalTable) (x : LocalIx) (old : SockState) : LocalTable :=
  match (t x).connectedSocket with
  | none => t.decRef x
  | some j => ((if old = .connected then t.setState j .disconnecting else t).decRef x).decRef j

def underflows (t : LocalTable) (x : LocalIx) : Bool :=
  (t x).ref == 0 || (t x).connectedSocket.any fun j => (t.decRef x j).ref == 0

end LocalTable

inductive LocalPlace where
  | outside
  | connectAdd (c server : LocalIx) (addr : SockAddrLocal)
  | connectUp (c server : LocalIx)
  | connectDown (c server : LocalIx)
  | connectInc (c : LocalIx)
  | acceptCheck (server a : LocalIx)
  | acceptDown (server a : LocalIx)
  | acceptPop (server a : LocalIx)
  | acceptLink (server a c : LocalIx)
  | acceptInc (server a c : LocalIx)
  | acceptUp (server a c : LocalIx)
  | releaseLoop (x : LocalIx) (old : SockState)
  deriving DecidableEq

/-- How often `socket` and `accept` release a new socket without a file or descriptor: `close_file` releases it,
and then `release_socket`. -/
def errorReleases (file fd : Bool) : Nat := if file then (if fd then 0 else 2) else 1

/-- The local sockets, the open files of each (a file by the processes with a descriptor of it), where the
processes stand, and the connecting lists whose lock a `release` holds. Also recorded: whether an `m_ref` was
counted down from 0, and for each slot its addresses and whether it was listened on since its last allocation.
-/
structure LocalSys (Proc : Type) where
  tab : LocalTable
  files : LocalIx → List (List Proc)
  place : Proc → LocalPlace
  locked : LocalIx → Bool
  wrapped : Bool
  bound : LocalIx → List SockAddrLocal
  listened : LocalIx → Bool

/-- The system calls, and `go`, the next step of a call. For `socket` and `accept`: whether a file and a
descriptor can be allocated. -/
inductive LocalAct (Proc : Type) where
  | fork (p q : Proc)
  | socket (p : Proc) (file fd : Bool)
  | bind (p : Proc) (x : LocalIx) (addr : SockAddrLocal)
  | listen (p : Proc) (x : LocalIx)
  | accept (p : Proc) (server : LocalIx) (file fd : Bool)
  | connect (p : Proc) (c : LocalIx) (addr : SockAddrLocal)
  | close (p : Proc) (x : LocalIx) (file : Nat)
  | go (p : Proc)

namespace LocalSys

variable {Proc : Type} [DecidableEq Proc]

def set (s : LocalSys Proc) (i : LocalIx) (x : LocalSocket) : LocalSys Proc :=
  { s with tab := update s.tab i x }

def holds (s : LocalSys Proc) (p : Proc) (x : LocalIx) : Bool := (s.files x).any fun ps => p ∈ ps

def move (s : LocalSys Proc) (p : Proc) (place : LocalPlace) : LocalSys Proc :=
  { s with place := update s.place p place }

def create (s : LocalSys Proc) (i : LocalIx) : LocalSys Proc :=
  { s.set i (s.tab i).create with
    bound := update s.bound i [], listened := update s.listened i false }

def drop (s : LocalSys Proc) (x : LocalIx) (old : SockState) : LocalSys Proc :=
  { s with tab := s.tab.drop x old, wrapped := s.wrapped || s.tab.underflows x }

/-- `release`; its loop never ends while a connection is waiting in the list. -/
def release (s : LocalSys Proc) (p : Proc) (x : LocalIx) : LocalSys Proc :=
  let old := (s.tab x).state
  let s := { s with tab := s.tab.leave x }
  if (s.tab x).connectingList = [] then s.drop x old
  else { s.move p (.releaseLoop x old) with locked := update s.locked x true }

def install (s : LocalSys Proc) (p : Proc) (i : LocalIx) (file fd : Bool) (place : LocalPlace) :
    LocalSys Proc :=
  if file && fd then { s.move p place with files := update s.files i (s.files i ++ [[p]]) }
  else (fun s => s.release p i)^[errorReleases file fd] s

def findServer (t : LocalTable) (addr : SockAddrLocal) : Option LocalIx :=
  if addr.family = afLocal then
    (t.lookupLocalSocket addr).filter fun i => (t i).state = .unconnected && (t i).acceptCon
  else none

def go (s : LocalSys Proc) (p : Proc) : Option (LocalSys Proc) :=
  match s.place p with
  | .outside => none
  | .connectAdd c server _ =>
    if s.locked server then none
    else
      let x := s.tab server
      some ((s.set server { x with connectingList := x.connectingList ++ [c] }).move p (.connectUp c server))
  | .connectUp c server =>
    let x := s.tab server
    some ((s.set server { x with waitConnectSem := x.waitConnectSem + 1 }).move p (.connectDown c server))
  | .connectDown c _ =>
    let x := s.tab c
    if x.waitAcceptSem = 0 then none
    else
      some ((s.set c { x with waitAcceptSem := x.waitAcceptSem - 1 }).move p
        (if x.state = .connected then .connectInc c else .outside))
  | .connectInc c => some ({ s with tab := s.tab.incRef c }.move p .outside)
  | .acceptCheck server a =>
    let x := s.tab server
    if x.connectingList = [] then
      some ((s.set server { x with flags := x.flags ||| sfWaitData }).move p (.acceptDown server a))
    else some (s.move p (.acceptPop server a))
  | .acceptDown server a =>
    let x := s.tab server
    if x.waitConnectSem = 0 then none
    else
      some ((s.set server
        { x with waitConnectSem := x.waitConnectSem - 1, flags := x.flags &&& ~~~sfWaitData }).move p
          (.acceptCheck server a))
  | .acceptPop server a =>
    let x := s.tab server
    if s.locked server then none
    else
      match x.connectingList with
      | [] => none
      | c :: cs => some ((s.set server { x with connectingList := cs }).move p (.acceptLink server a c))
  | .acceptLink server a c => some ({ s with tab := s.tab.link a c }.move p (.acceptInc server a c))
  | .acceptInc server a c => some ({ s with tab := s.tab.incRef a }.move p (.acceptUp server a c))
  | .acceptUp _ _ c =>
    let x := s.tab c
    some ((s.set c { x with waitAcceptSem := x.waitAcceptSem + 1 }).move p .outside)
  | .releaseLoop x old =>
    match (s.tab x).connectingList with
    | [] => some { (s.drop x old).move p .outside with locked := update s.locked x false }
    | c :: _ => some (s.set c { s.tab c with waitAcceptSem := (s.tab c).waitAcceptSem + 1 })

/-- One step of one process. A call starts only when the process is in none, and on a socket of one of its
descriptors; only the last close of a file releases the socket. -/
def step (s : LocalSys Proc) : LocalAct Proc → Option (LocalSys Proc)
  | .fork p q =>
    if s.place p = .outside ∧ s.place q = .outside then
      some { s with files := fun i => (s.files i).map fun ps => ps ++ List.replicate (ps.count p) q }
    else none
  | .socket p file fd =>
    if s.place p = .outside then
      match s.tab.allocLocalSocket with
      | none => some s
      | some i => some ((s.create i).install p i file fd .outside)
    else none
  | .bind p x addr =>
    if s.place p = .outside ∧ s.holds p x then
      match s.tab.bindLocalSocket x addr with
      | none => some s
      | some tab => some { s with tab, bound := update s.bound x (addr :: s.bound x) }
    else none
  | .listen p x =>
    if s.place p = .outside ∧ s.holds p x then
      if (s.tab x).state = .unconnected then
        some { s.set x { s.tab x with flags := (s.tab x).flags ||| sfAcceptCon } with
          listened := update s.listened x true }
      else some s
    else none
  | .accept p server file fd =>
    if s.place p = .outside ∧ s.holds p server then
      if (s.tab server).state = .unconnected ∧ (s.tab server).acceptCon then
        match s.tab.allocLocalSocket with
        | none => some s
        | some a => some ((s.create a).install p a file fd (.acceptCheck server a))
      else some s
    else none
  | .connect p c addr =>
    if s.place p = .outside ∧ s.holds p c then
      if (s.tab c).state = .unconnected then
        match findServer s.tab addr with
        | none => some s
        | some server => some (s.move p (.connectAdd c server addr))
      else some s
    else none
  | .close p x k =>
    match (s.files x)[k]? with
    | none => none
    | some ps =>
      if s.place p = .outside ∧ p ∈ ps then
        let qs := ps.erase p
        if qs = [] then some ({ s with files := update s.files x ((s.files x).eraseIdx k) }.release p x)
        else some { s with files := update s.files x ((s.files x).set k qs) }
      else none
  | .go p => s.go p

end LocalSys

end BabyOS
