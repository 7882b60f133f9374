import BabyOS.LocalRef
import BabyOS.NetRun
import BabyOS.StreamAccept
import BabyOS.StreamClose

open Function

namespace BabyOS

open StreamSocket StreamTable

inductive InetType where
  | raw
  | dgram
  | stream
  deriving DecidableEq

namespace Sockets

def ref (k : Sockets) : InetType → Fin 128 → Nat
  | .raw, i => (k.raws i).ref
  | .dgram, i => (k.dgrams i).ref
  | .stream, i => (k.streams i).ref

def SameRefs (k k' : Sockets) : Prop :=
  (∀ i, k.ref .raw i = k'.ref .raw i) ∧ (∀ i, k.ref .dgram i = k'.ref .dgram i) ∧
    ∀ i, k.ref .stream i = k'.ref .stream i

instance sameRefsDecidable (k k' : Sockets) : Decidable (k.SameRefs k') := inferInstanceAs (Decidable (_ ∧ _ ∧ _))

def setStream (k : Sockets) (i : StreamIx) (x : StreamSocket) : Sockets := { k with streams := k.streams.set i x }

def alloc (k : Sockets) (ty : InetType) : Option (Fin 128) := (List.finRange 128).find? fun i => k.ref ty i = 0

def create (k : Sockets) (i : Fin 128) (protocol : Word) (mem : Nat → Byte) : InetType → Sockets
  | .raw => k.setRaw i ⟨1, protocol, [], .init 0⟩
  | .dgram => k.setDgram i ⟨1, (k.dgrams i).family, ⟨0, 0⟩, [], .init 0⟩
  | .stream => k.setStream i (.create mem)

/-- `dup` of a socket by the slot that was allocated; raw and datagram sockets have none. -/
def dup (k : Sockets) (i server : Fin 128) (ip : Word) (port : Half) (mem : Nat → Byte) : InetType → Sockets
  | .raw => k.setRaw i { k.raws i with ref := 1 }
  | .dgram => k.setDgram i { k.dgrams i with ref := 1 }
  | .stream => { k with streams := k.streams.dup i server ip port mem }

end Sockets

/-- The socket tables, the open files of the `AF_INET` sockets and what is left of the `tcp_close` of each
process. -/
structure SockSys where
  locals : LocalSys Nat
  socks : Sockets
  files : InetType → Fin 128 → List (List Nat)
  closing : Nat → List (StreamIx × SockStmt)

/-- The calls that get and give up sockets, and the steps of `tcp_close`; whatever else is done to the `AF_INET`
tables changes no `m_ref`. -/
inductive SockAct where
  | loc (a : LocalAct Nat)
  | socket (ty : InetType) (p : Nat) (protocol : Word) (mem : Nat → Byte) (file fd : Bool)
  | accept (ty : InetType) (p : Nat) (server : Fin 128) (ip : Word) (port : Half) (mem : Nat → Byte) (file fd : Bool)
  | close (ty : InetType) (p : Nat) (x : Fin 128) (file : Nat)
  | stmt (p : Nat)
  | other (socks : Sockets)

namespace SockSys

def setFiles (s : SockSys) (ty : InetType) (i : Fin 128) (fs : List (List Nat)) : SockSys :=
  { s with files := update s.files ty (update (s.files ty) i fs) }

/-- `release` of a stream socket, with the statements of its `tcp_close` still to be run. -/
def releaseStream (s : SockSys) (p : Nat) (x : StreamIx) : SockSys :=
  let k := s.socks.streams x
  { s with
    socks := s.socks.setStream x (if k.state = .unconnected then k else { k with state := .disconnecting })
    closing := update s.closing p (s.closing p ++ (k.tcpClose p).map (x, ·)) }

def release (s : SockSys) (p : Nat) (x : Fin 128) : InetType → SockSys
  | .raw => s
  | .dgram => { s with socks := s.socks.setDgram x { s.socks.dgrams x with ref := 0, buffers := [] } }
  | .stream => s.releaseStream p x

def install (s : SockSys) (ty : InetType) (p : Nat) (i : Fin 128) (file fd : Bool) : SockSys :=
  if file && fd then s.setFiles ty i (s.files ty i ++ [[p]])
  else (fun s => s.release p i ty)^[errorReleases file fd] s

def step (s : SockSys) : SockAct → Option SockSys
  | .loc a => (s.locals.step a).map fun l => { s with locals := l }
  | .socket ty p protocol mem file fd =>
    if s.closing p = [] then
      match s.socks.alloc ty with
      | none => some s
      | some i => some ({ s with socks := s.socks.create i protocol mem ty }.install ty p i file fd)
    else none
  | .accept ty p server ip port mem file fd =>
    if s.closing p = [] then
      match s.socks.alloc ty with
      | none => some s
      | some i => some ({ s with socks := s.socks.dup i server ip port mem ty }.install ty p i file fd)
    else none
  | .close ty p x n =>
    match (s.files ty x)[n]? with
    | none => none
    | some ps =>
      if s.closing p = [] ∧ p ∈ ps then
        let qs := ps.erase p
        if qs = [] then some ((s.setFiles ty x ((s.files ty x).eraseIdx n)).release p x ty)
        else some (s.setFiles ty x ((s.files ty x).set n qs))
      else none
  | .stmt p =>
    match s.closing p with
    | [] => none
    | (x, st) :: rest =>
      if p ∈ (s.socks.streams x).sem.waitList then none
      else
        ((s.socks.streams x).exec st).map fun y =>
          { s with socks := s.socks.setStream x y.1, closing := update s.closing p rest }
  | .other socks => if socks.SameRefs s.socks then some { s with socks } else none

def Returned (s : SockSys) (x : StreamIx) : Prop := ∀ p st, (x, st) ∉ s.closing p

/-- Every slot that no descriptor refers to, whose peer is closed too and whose `release` has returned,
is free. -/
structure Reclaimed (s : SockSys) : Prop where
  locals : ∀ i, s.locals.files i = [] →
    (∀ j, (s.locals.tab i).connectedSocket = some j → s.locals.files j = []) → (s.locals.tab i).ref = 0
  inet : ∀ ty i, s.files ty i = [] → (ty = .stream → s.Returned i) → s.socks.ref ty i = 0

/-- The local sockets are used carefully, a new socket with a file also gets a descriptor, and a raw or stream
socket gets its file; no raw socket is closed, and a stream socket only while it is established. -/
def Careful (s : SockSys) : SockAct → Prop
  | .loc a => s.locals.Careful a
  | .socket ty _ _ _ file fd | .accept ty _ _ _ _ _ file fd => (file → fd) ∧ (ty ≠ .dgram → file)
  | .close ty p x n => (s.files ty x)[n]? = some [p] →
    ty ≠ .raw ∧ (ty = .stream → (s.socks.streams x).tcpState = .established)
  | _ => True

structure Start (s : SockSys) : Prop where
  locals : s.locals.Start
  ref : ∀ ty i, s.socks.ref ty i = 0
  closing : ∀ p, s.closing p = []

structure Inv (s : SockSys) : Prop where
  locals : s.locals.Inv
  inet : ∀ ty i, s.socks.ref ty i ≠ 0 → s.files ty i ≠ [] ∨ ty = .stream ∧ ∃ p, (i, .free) ∈ s.closing p

section

variable {s s' : SockSys} {ty : InetType} {i x : Fin 128} {p : Nat}

variable {k : Sockets} {v : StreamSocket} {ty' : InetType} {j : Fin 128} {mem : Nat → Byte}

theorem ref_setStream (hv : v.ref = (k.streams x).ref) (ty : InetType) (i : Fin 128) :
    (k.setStream x v).ref ty i = k.ref ty i := by
  cases ty with
  | stream =>
    change (k.streams.set x v i).ref = _
    by_cases hi : i = x
    · rw [hi, set_self, hv]
      rfl
    · rw [set_of_ne hi]
      rfl
  | raw | dgram => rfl

theorem exec_ref {st : SockStmt} {y : StreamSocket × List TcpSend} (h : v.exec st = some y)
    (hst : st ≠ .free) : y.1.ref = v.ref := by
  cases st with
  | get max =>
    obtain ⟨z, hz, rfl⟩ := Option.map_eq_some_iff.mp h
    obtain ⟨r, hr, -, he⟩ := read_some hz
    change z.2.ref = _
    rw [he]
  | free => exact absurd rfl hst
  | send data | ack | fin | setState st | down pid =>
    cases Option.some.inj h
    rfl

theorem ref_create {protocol : Word}
    (h : ty' ≠ ty ∨ j ≠ i) : (k.create i protocol mem ty).ref ty' j = k.ref ty' j := by
  have hj : ty' = ty → j ≠ i := fun e => h.resolve_left fun h => h e
  cases ty <;> cases ty'
  case raw.raw => simp [Sockets.create, Sockets.setRaw, Sockets.ref, hj rfl]
  case dgram.dgram => simp [Sockets.create, Sockets.setDgram, Sockets.ref, hj rfl]
  case stream.stream =>
    change (k.streams.set i _ j).ref = _
    rw [set_of_ne (hj rfl)]
    rfl
  all_goals rfl

theorem ref_dup {server : Fin 128} {ip : Word} {port : Half}
    (h : ty' ≠ ty ∨ j ≠ i) : (k.dup i server ip port mem ty).ref ty' j = k.ref ty' j := by
  have hj : ty' = ty → j ≠ i := fun e => h.resolve_left fun h => h e
  cases ty <;> cases ty'
  case raw.raw => simp [Sockets.dup, Sockets.setRaw, Sockets.ref, hj rfl]
  case dgram.dgram => simp [Sockets.dup, Sockets.setDgram, Sockets.ref, hj rfl]
  case stream.stream =>
    change (k.streams.dup i server ip port mem j).ref = _
    rw [StreamTable.dup]
    by_cases hs : j = server
    · rw [hs, set_self]
      change (k.streams.set i _ server).ref = _
      rw [set_of_ne (hs ▸ hj rfl)]
      rfl
    · rw [set_of_ne hs, set_of_ne (hj rfl)]
      rfl
  all_goals rfl

theorem files_setFiles_self (fs : List (List Nat)) : (s.setFiles ty i fs).files ty i = fs := by
  simp [setFiles]

theorem files_setFiles_of_ne {fs : List (List Nat)} (h : ty' ≠ ty ∨ j ≠ i) :
    (s.setFiles ty i fs).files ty' j = s.files ty' j := by
  by_cases ht : ty' = ty
  · subst ht
    have hj : j ≠ i := h.resolve_left fun h => h rfl
    simp [setFiles, hj]
  · simp [setFiles, ht]

end

theorem Start.inv {s : SockSys} (h : s.Start) : s.Inv :=
  ⟨h.locals.inv, fun ty i hi => absurd (h.ref ty i) hi⟩

theorem Inv.reclaimed {s : SockSys} (h : s.Inv) : s.Reclaimed := by
  refine ⟨h.locals.sound.closed, ?_⟩
  intro ty i hf hr
  by_contra hi
  rcases h.inet ty i hi with hn | ⟨rfl, p, hp⟩
  · exact hn hf
  · exact hr rfl p .free hp

namespace Inv

variable {s s' : SockSys} {ty : InetType} {i x : Fin 128} {p : Nat}

theorem ref_dropDgram {k : Sockets} {ty' : InetType} {j : Fin 128}
    (h : (k.setDgram i { k.dgrams i with ref := 0, buffers := [] }).ref ty' j ≠ 0) :
    (ty' ≠ .dgram ∨ j ≠ i) ∧ k.ref ty' j ≠ 0 := by
  have hne : ty' ≠ .dgram ∨ j ≠ i := by
    by_contra he
    obtain ⟨rfl, rfl⟩ := not_or.mp he |>.imp not_not.mp not_not.mp
    exact h (by simp [Sockets.ref, Sockets.setDgram])
  refine ⟨hne, ?_⟩
  cases ty' with
  | dgram =>
    have hji : j ≠ i := hne.resolve_left fun h => h rfl
    simpa [Sockets.ref, Sockets.setDgram, hji] using h
  | raw | stream => exact h

theorem install (h : s.Inv) {k : Sockets} {file fd : Bool}
    (hk : ∀ ty' j, ty' ≠ ty ∨ j ≠ i → k.ref ty' j = s.socks.ref ty' j) (hfd : file → fd) (hfile : ty ≠ .dgram → file) :
    ({ s with socks := k }.install ty p i file fd).Inv := by
  cases file with
  | true =>
    rw [hfd rfl]
    refine ⟨h.locals, ?_⟩
    intro ty' j hj
    change k.ref ty' j ≠ 0 at hj
    change ({ s with socks := k }.setFiles ty i _).files ty' j ≠ [] ∨ _
    by_cases he : ty' = ty ∧ j = i
    · obtain ⟨rfl, rfl⟩ := he
      rw [files_setFiles_self]
      exact Or.inl (List.append_ne_nil_of_right_ne_nil _ (List.cons_ne_nil _ _))
    · have hne : ty' ≠ ty ∨ j ≠ i := not_and_or.mp he
      rw [files_setFiles_of_ne hne]
      rw [hk ty' j hne] at hj
      exact h.inet ty' j hj
  | false =>
    have hty : ty = .dgram := by
      by_contra hn
      cases hfile hn
    subst hty
    refine ⟨h.locals, ?_⟩
    intro ty' j hj
    obtain ⟨hne, hr⟩ := ref_dropDgram (k := k) hj
    refine h.inet ty' j ?_
    rwa [← hk ty' j hne]

theorem releaseStream (h : s.Inv) (hc : (s.socks.streams x).tcpState = .established)
    (hf : ∀ ty' j, ty' ≠ .stream ∨ j ≠ x → s'.files ty' j = s.files ty' j) (hl : s'.locals = s.locals)
    (hs : s'.socks = s.socks) (hcl : s'.closing = s.closing) : (s'.releaseStream p x).Inv := by
  refine ⟨?_, ?_⟩
  · change s'.locals.Inv
    rw [hl]
    exact h.locals
  · intro ty j hj
    have hr : s.socks.ref ty j ≠ 0 := by
      rw [← hs]
      refine fun h0 => hj ((ref_setStream ?_ ty j).trans h0)
      split
      · rfl
      · rfl
    by_cases he : ty = .stream ∧ j = x
    · obtain ⟨rfl, rfl⟩ := he
      refine Or.inr ⟨rfl, p, ?_⟩
      simp only [SockSys.releaseStream, update_self]
      refine List.mem_append_right _ (List.mem_map.mpr ⟨.free, ?_, rfl⟩)
      rw [hs, StreamSocket.tcpClose, if_neg (fun hn => hn hc)]
      simp [closeBody]
    · have hne := not_and_or.mp he
      rcases h.inet ty j hr with hn | ⟨rfl, q, hq⟩
      · exact Or.inl (by rw [← hf ty j hne] at hn; exact hn)
      · refine Or.inr ⟨rfl, q, ?_⟩
        simp only [SockSys.releaseStream, hcl]
        by_cases hqp : q = p
        · rw [hqp, update_self]
          exact List.mem_append_left _ (hqp ▸ hq)
        · rwa [update_of_ne hqp]

theorem stmt (h : s.Inv) (hs : s.step (.stmt p) = some s') : s'.Inv := by
  cases hc : s.closing p with
  | nil =>
    simp only [SockSys.step, hc] at hs
    cases hs
  | cons a rest =>
    obtain ⟨x, st⟩ := a
    simp only [SockSys.step, hc] at hs
    obtain ⟨_, he⟩ := Option.ite_none_left_eq_some.mp hs
    obtain ⟨y, hy, rfl⟩ := Option.map_eq_some_iff.mp he
    refine ⟨h.locals, ?_⟩
    intro ty j hj
    have hfree : st = .free → ty = .stream → j ≠ x := by
      rintro rfl rfl rfl
      cases Option.some.inj hy
      refine hj ?_
      change (s.socks.streams.set j _ j).ref = 0
      rw [set_self]
    have hr : s.socks.ref ty j ≠ 0 := by
      by_cases hst : st = .free
      · cases ty with
        | stream =>
          have hjx := hfree hst rfl
          change (s.socks.streams.set x _ j).ref ≠ 0 at hj
          rwa [set_of_ne hjx] at hj
        | raw | dgram => exact hj
      · exact fun h0 => hj ((ref_setStream (exec_ref hy hst) ty j).trans h0)
    rcases h.inet ty j hr with hn | ⟨rfl, q, hq⟩
    · exact Or.inl hn
    · refine Or.inr ⟨rfl, q, ?_⟩
      by_cases hqp : q = p
      · subst hqp
        simp only [update_self]
        rw [hc] at hq
        rcases List.mem_cons.mp hq with he | hq
        · cases he
          exact absurd rfl (hfree rfl rfl)
        · exact hq
      · simpa only [update_of_ne hqp] using hq

theorem close (h : s.Inv) {n : Nat} (hc : s.Careful (.close ty p x n))
    (hs : s.step (.close ty p x n) = some s') : s'.Inv := by
  have hother : ∀ {fs : List (List Nat)} {ty' j}, ty' ≠ ty ∨ j ≠ x →
      (s.setFiles ty x fs).files ty' j = s.files ty' j := files_setFiles_of_ne
  cases hn : (s.files ty x)[n]? with
  | none =>
    simp only [SockSys.step, hn] at hs
    cases hs
  | some ps =>
    simp only [SockSys.step, hn] at hs
    obtain ⟨⟨_, hp⟩, he⟩ := Option.ite_none_right_eq_some.mp hs
    split at he
    · next hq =>
      cases he
      obtain rfl := LocalSys.Inv.eq_singleton_of_erase hp hq
      obtain ⟨hraw, hst⟩ := hc hn
      cases ty with
      | raw => exact absurd rfl hraw
      | stream => exact h.releaseStream (hst rfl) (fun _ _ => hother) rfl rfl rfl
      | dgram =>
        refine ⟨h.locals, ?_⟩
        intro ty' j hj
        obtain ⟨hne, hr⟩ := ref_dropDgram (k := s.socks) hj
        change (s.setFiles .dgram x _).files ty' j ≠ [] ∨ _
        rw [hother hne]
        exact h.inet ty' j hr
    · next hq =>
      cases he
      refine ⟨h.locals, ?_⟩
      intro ty' j hj
      by_cases he : ty' = ty ∧ j = x
      · obtain ⟨rfl, rfl⟩ := he
        rw [files_setFiles_self]
        refine Or.inl fun h0 => ?_
        have hl := congrArg List.length h0
        rw [List.length_set, List.length_nil] at hl
        rw [List.length_eq_zero_iff.mp hl] at hn
        cases hn
      · rw [hother (not_and_or.mp he)]
        exact h.inet ty' j hj

theorem step (h : s.Inv) {a : SockAct} (hc : s.Careful a) (hs : s.step a = some s') : s'.Inv := by
  cases a with
  | loc a =>
    obtain ⟨l, hl, rfl⟩ := Option.map_eq_some_iff.mp hs
    exact ⟨h.locals.step hc hl, h.inet⟩
  | socket ty p protocol mem file fd =>
    obtain ⟨_, he⟩ := Option.ite_none_right_eq_some.mp hs
    split at he
    · cases he
      exact h
    · cases he
      exact h.install (fun _ _ => ref_create) hc.1 hc.2
  | accept ty p server ip port mem file fd =>
    obtain ⟨_, he⟩ := Option.ite_none_right_eq_some.mp hs
    split at he
    · cases he
      exact h
    · cases he
      exact h.install (fun _ _ => ref_dup) hc.1 hc.2
  | close ty p x n => exact h.close hc hs
  | stmt p => exact h.stmt hs
  | other socks =>
    obtain ⟨hr, he⟩ := Option.ite_none_right_eq_some.mp hs
    cases he
    refine ⟨h.locals, ?_⟩
    intro ty i hi
    have hri : socks.ref ty i = s.socks.ref ty i := by
      cases ty with
      | raw => exact hr.1 i
      | dgram => exact hr.2.1 i
      | stream => exact hr.2.2 i
    exact h.inet ty i (hri ▸ hi)

end Inv

end SockSys

namespace Closing

variable {c c' : Closing} {e : Bool}

/-- One end runs a statement of its call or keeps its place and its reference. -/
def EndStep (c c' : Closing) (e : Bool) : Prop :=
  c'.pid e = c.pid e ∧ (c'.todo e = c.todo e ∧ (c'.link.sock e).ref = (c.link.sock e).ref ∨
    ∃ x xs y, c.todo e = some (x :: xs) ∧ (c.link.sock e).exec x = some y ∧ c'.todo e = some xs ∧ c'.link.sock e = y.1)

theorem step_end {a : Act} (hs : c.step a = some c') (ht : c.todo e ≠ none) : c.EndStep c' e := by
  have hapart : c.Apart c' e → c.EndStep c' e := fun h => ⟨h.pid, Or.inl ⟨h.todo, congrArg StreamSocket.ref h.sock⟩⟩
  cases a with
  | call d =>
    obtain ⟨hd, rfl⟩ := step_call hs
    have hde : e ≠ d := by
      rintro rfl
      exact ht hd
    exact hapart ⟨rfl, setTodo_of_ne hde, rfl⟩
  | stmt d =>
    obtain ⟨x, xs, y, hx, _, hy, htook⟩ := step_stmt hs
    by_cases hde : e = d
    · subst hde
      exact ⟨htook.pid, Or.inr ⟨x, xs, y, hx, hy, htook.todo, htook.sock⟩⟩
    · rw [Bool.eq_not.mpr hde]
      rw [Bool.eq_not.mpr hde] at hapart
      exact hapart htook.apart
  | deliver d =>
    obtain ⟨p, ps, _, hcame⟩ := step_deliver hs
    by_cases hde : e = d
    · subst hde
      refine ⟨hcame.pid, Or.inl ⟨hcame.todo, ?_⟩⟩
      rw [hcame.sock]
      exact (deliver_sends _ _ _).1.ref
    · rw [Bool.eq_not.mpr hde]
      rw [Bool.eq_not.mpr hde] at hapart
      exact hapart hcame.apart

/-- An end whose close has run `k` statements of its body, the last of which frees the slot. -/
def Frees (c : Closing) (e : Bool) : Prop :=
  ∃ k ≤ 6, c.todo e = some ((closeBody (c.pid e)).drop k) ∧ (k = 6 → (c.link.sock e).ref = 0)

def Keeps (c : Closing) (e : Bool) : Prop :=
  (c.todo e = some [.setState .closed] ∨ c.todo e = some []) ∧ (c.link.sock e).ref ≠ 0

theorem Frees.step {a : Act} (h : c.Frees e) (hs : c.step a = some c') : c'.Frees e := by
  obtain ⟨k, hk, ht, hr⟩ := h
  obtain ⟨hp, ⟨ht', hr'⟩ | ⟨x, xs, y, hx, hy, ht', hs'⟩⟩ := step_end (e := e) hs (by rw [ht]; exact Option.some_ne_none _)
  · refine ⟨k, hk, ?_, fun h6 => hr'.trans (hr h6)⟩
    rw [ht', ht, hp]
  · have hd := Option.some.inj (ht.symm.trans hx)
    have hlt : k < 6 := by
      by_contra hn
      rw [List.drop_eq_nil_of_le (by simp [closeBody]; omega)] at hd
      cases hd
    refine ⟨k + 1, hlt, ?_, ?_⟩
    · rw [ht', hp, ← List.drop_drop, hd]
      rfl
    · intro h6
      obtain rfl : k = 5 := by omega
      cases hd
      cases Option.some.inj hy
      rw [hs']

theorem Keeps.step {a : Act} (h : c.Keeps e) (hs : c.step a = some c') : c'.Keeps e := by
  obtain ⟨ht, hr⟩ := h
  obtain ⟨_, ⟨ht', hr'⟩ | ⟨x, xs, y, hx, hy, ht', hs'⟩⟩ := step_end (e := e) hs (by
    rcases ht with ht | ht
    · rw [ht]
      exact Option.some_ne_none _
    · rw [ht]
      exact Option.some_ne_none _)
  · exact ⟨ht'.symm ▸ ht, hr'.symm ▸ hr⟩
  · rcases ht with ht | ht
    · cases ht.symm.trans hx
      cases Option.some.inj hy
      exact ⟨Or.inr ht', by rw [hs']; exact hr⟩
    · cases ht.symm.trans hx

theorem Inv.live (h : c.Inv) (ht : c.todo e = none) : (c.link.sock e).ref ≠ 0 := by
  rcases h.phase with hi | ⟨a, ha⟩
  · exact hi.live e
  · have hea : e ≠ a := by
      rintro rfl
      exact ha.served.todo_ne ht
    rw [Bool.eq_not.mpr hea]
    exact ha.passive.live

theorem closed_ref_iff {d : Closing} {bs : List Act} (h : c.Inv) (hcall : c.step (.call e) = some c')
    (hb : Along step Careful c' bs) (hr : run step c' bs = some d) (hchan : ∀ e, d.link.chan e = [])
    (hstop : ∀ e, d.step (.stmt e) = none) :
    (d.link.sock e).ref = 0 ↔ (c.link.sock e).tcpState = .established := by
  have hd : d.Inv := run_invariant (fun _ _ _ h hc ht => h.step hc ht) (h.step (a := .call e) trivial hcall) hb hr
  obtain ⟨ht, rfl⟩ := step_call hcall
  have hkeep : ∀ {I : Closing → Prop}, (∀ s a s', I s → step s a = some s' → I s') →
      I (c.setTodo e ((c.link.sock e).tcpClose (c.pid e))) → I d :=
    fun hI h0 => run_invariant (P := Careful) (fun s a s' h _ hs => hI s a s' h hs) h0 hb hr
  by_cases hest : (c.link.sock e).tcpState = .established
  · refine iff_of_true ?_ hest
    have h0 : (c.setTodo e ((c.link.sock e).tcpClose (c.pid e))).Frees e := by
      refine ⟨0, Nat.zero_le 6, ?_, fun h => by cases h⟩
      rw [setTodo_self, StreamSocket.tcpClose, if_neg (fun hn => hn hest)]
      rfl
    obtain ⟨k, hk, htd, hrd⟩ := hkeep (I := fun c => c.Frees e) (fun _ _ _ h hs => h.step hs) h0
    refine hrd ?_
    by_contra hk6
    refine hd.not_wedged ⟨e, by rw [htd]; exact Option.some_ne_none _, ?_, hchan e, hchan _, hstop _⟩
    by_contra hnb
    obtain ⟨st, rest, hst⟩ := List.exists_cons_of_ne_nil (l := (closeBody (d.pid e)).drop k) (by
      simp only [ne_eq, List.drop_eq_nil_iff, closeBody, List.length_cons, List.length_nil]
      omega)
    rw [hst] at htd
    obtain ⟨y, hy⟩ : ∃ y, (d.link.sock e).exec st = some y := by
      have hmem : st ∈ closeBody (d.pid e) := List.mem_of_mem_drop (hst ▸ List.mem_cons_self)
      simp only [closeBody, List.mem_cons, List.not_mem_nil, or_false] at hmem
      rcases hmem with rfl | rfl | rfl | rfl | rfl | rfl
      all_goals exact ⟨_, rfl⟩
    have hnone := hstop e
    simp only [step, htd, if_neg hnb, Link.exec, hy, Option.map_some] at hnone
    cases hnone
  · refine iff_of_false ?_ hest
    have h0 : (c.setTodo e ((c.link.sock e).tcpClose (c.pid e))).Keeps e := by
      refine ⟨Or.inl ?_, h.live ht⟩
      rw [setTodo_self, StreamSocket.tcpClose, if_pos hest]
    exact (hkeep (I := fun c => c.Keeps e) (fun _ _ _ h hs => h.step hs) h0).2

end Closing

namespace SockSys

/-- In every careful run, every slot closed at both ends and whose `release` has returned is free; no error path
releases a socket twice just when a socket with a file got a descriptor too; and when a connected pair is closed
carefully, with every segment delivered, the slots freed are those of the ends that were established when
closed. -/
theorem sockets_reclaimed {s s' : SockSys} {as : List SockAct} (hs : s.Start) (ha : Along step Careful s as)
    (hr : run step s as = some s') :
    s'.Reclaimed ∧ (∀ file fd, errorReleases file fd ≤ 1 ↔ (file = true → fd = true)) ∧
    ∀ (c c₁ c₂ d : Closing) (bs cs : List Closing.Act) (e : Bool), c.Connected →
      Along Closing.step Closing.Careful c bs → run Closing.step c bs = some c₁ →
      c₁.step (.call e) = some c₂ → Along Closing.step Closing.Careful c₂ cs → run Closing.step c₂ cs = some d →
      (∀ e, d.link.chan e = []) → (∀ e, d.step (.stmt e) = none) →
      ((d.link.sock e).ref = 0 ↔ (c₁.link.sock e).tcpState = .established) := by
  refine ⟨(run_invariant (fun _ _ _ h hc ht => h.step hc ht) hs.inv ha hr).reclaimed, by decide, ?_⟩
  intro c c₁ c₂ d bs cs e hc hb hr hcall hb' hr' hchan hstop
  have hi : c₁.Inv := run_invariant (fun _ _ _ h hc ht => h.step hc ht) hc.inv hb hr
  exact Closing.closed_ref_iff hi hcall hb' hr' hchan hstop

def boot : SockSys where
  locals :=
    { tab := fun _ => ⟨0, ⟨0, []⟩, 0, .free, [], none, 0, 0⟩, files := fun _ => [], place := fun _ => .outside
      locked := fun _ => false, wrapped := false, bound := fun _ => [], listened := fun _ => false }
  socks :=
    { raws := fun _ => ⟨0, 0, [], .init 0⟩, dgrams := fun _ => ⟨0, 0, ⟨0, 0⟩, [], .init 0⟩
      streams := fun _ => { StreamSocket.create (fun _ => 0) with ref := 0 } }
  files _ _ := []
  closing _ := []

theorem boot_start : boot.Start where
  locals := ⟨fun _ => rfl, fun _ => rfl, fun _ => rfl, fun _ => rfl, rfl⟩
  ref ty _ := by cases ty <;> rfl
  closing _ := rfl

/-- A local socket is shared by a fork and closed by both processes; of two datagram sockets one is closed. -/
def mixedRun : List SockAct :=
  [.loc (.socket 1 true true), .loc (.fork 1 2), .socket .dgram 1 17 (fun _ => 0) true true,
    .socket .dgram 2 17 (fun _ => 0) true true, .close .dgram 1 0 0, .loc (.close 1 0 0), .loc (.close 2 0 0)]

theorem sockets_reclaimed_mixed :
    (∃ s, run step boot mixedRun = some s ∧ (s.locals.tab 0).ref = 0 ∧ s.socks.ref .dgram 0 = 0 ∧
      s.socks.ref .dgram 1 = 1) ∧
    ∃ c, run Closing.step Closing.twoEnds Closing.oneCloses = some c ∧ (c.link.sock false).ref = 0 := by
  obtain ⟨s, hs⟩ : ∃ s, run step boot mixedRun = some s := ⟨_, rfl⟩
  have ha : Along step Careful boot mixedRun := by
    refine along_cons (fun _ => rfl) rfl (along_cons trivial rfl ?_)
    refine along_cons ⟨fun _ => rfl, fun h => absurd rfl h⟩ rfl (along_cons ⟨fun _ => rfl, fun h => absurd rfl h⟩ rfl ?_)
    refine along_cons (fun _ => ⟨(fun h => by cases h), (fun h => by cases h)⟩) rfl ?_
    refine along_cons (fun h => absurd h (by decide)) rfl (along_cons (fun _ => ⟨rfl, fun j hj => ?_⟩) rfl trivial)
    cases hj
  have hlocal : s.locals.files 0 = [] ∧ (s.locals.tab 0).connectedSocket = none := by
    cases hs
    exact ⟨rfl, rfl⟩
  have hfiles : s.files .dgram 0 = [] ∧ s.socks.ref .dgram 1 = 1 := by
    cases hs
    exact ⟨rfl, rfl⟩
  obtain ⟨hreclaimed, -, hclosing⟩ := sockets_reclaimed boot_start ha hs
  refine ⟨⟨s, hs, hreclaimed.locals 0 hlocal.1 fun j hj => ?_, hreclaimed.inet .dgram 0 hfiles.1 (fun h => by cases h),
    hfiles.2⟩, ?_⟩
  · rw [hlocal.2] at hj
    cases hj
  · obtain ⟨c, hc⟩ : ∃ c, run Closing.step Closing.twoEnds Closing.oneCloses = some c := ⟨_, rfl⟩
    obtain ⟨c₁, hcall, hrest⟩ := run_cons (show run Closing.step Closing.twoEnds (.call false :: Closing.oneCloses.tail) = some c
      from hc)
    refine ⟨c, hc, (hclosing Closing.twoEnds Closing.twoEnds c₁ c [] _ false Closing.twoEnds_connected trivial (run_nil _)
      hcall (Closing.oneCloses_careful.2 c₁ hcall) hrest ?_ ?_).mpr rfl⟩
    · cases hc
      decide
    · cases hc
      intro e
      cases e
      · rfl
      · rfl

/-- A raw socket and a stream socket never connected keep their slots when closed, so does the end of a stream
connection that is closed second, and a local socket without a descriptor is released twice. -/
theorem slots_leaked :
    (∃ s, run step boot [.socket .raw 1 1 (fun _ => 0) true true, .close .raw 1 0 0] = some s ∧
      s.files .raw 0 = [] ∧ s.socks.ref .raw 0 = 1) ∧
    (∃ s, run step boot [.socket .stream 1 6 (fun _ => 0) true true, .close .stream 1 0 0, .stmt 1] = some s ∧
      s.files .stream 0 = [] ∧ s.closing 1 = [] ∧ s.socks.ref .stream 0 = 1) ∧
    (∃ s, run step boot [.loc (.socket 1 true false)] = some s ∧
      s.locals.files 0 = [] ∧ (s.locals.tab 0).ref = 0xffffffff) ∧
    ∃ c, run Closing.step Closing.twoEnds Closing.oneCloses = some c ∧
      c.todo false = some [] ∧ c.todo true = some [] ∧ c.link.chan false = [] ∧ c.link.chan true = [] ∧
        (c.link.sock true).ref = 1 := by
  refine ⟨⟨_, rfl, rfl, rfl⟩, ⟨_, rfl, rfl, rfl, rfl⟩, ⟨_, rfl, rfl, rfl⟩, ⟨_, rfl, rfl, rfl, rfl, rfl, rfl⟩⟩

end SockSys

end BabyOS
