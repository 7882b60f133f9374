import BabyOS.FsDisk
import Mathlib.Tactic.IntervalCases

namespace BabyOS

def htons (n : Half) : Half := ((n &&& 0xff) <<< 8) ||| ((n &&& 0xff00) >>> 8)

def ntohs (n : Half) : Half := ((n &&& 0xff) <<< 8) ||| ((n &&& 0xff00) >>> 8)

def htonl (n : Word) : Word :=
  ((n &&& 0xff) <<< 24) ||| ((n &&& 0xff00) <<< 8) ||| ((n &&& 0xff0000) >>> 8) ||| ((n &&& 0xff000000) >>> 24)

def ntohl (n : Word) : Word :=
  ((n &&& 0xff) <<< 24) ||| ((n &&& 0xff00) <<< 8) ||| ((n &&& 0xff0000) >>> 8) ||| ((n &&& 0xff000000) >>> 24)

@[simp] theorem ntohs_htons (n : Half) : ntohs (htons n) = n := by
  unfold ntohs htons
  apply BitVec.eq_of_getLsbD_eq
  intro i hi
  interval_cases i <;> simp

@[simp] theorem ntohl_htonl (n : Word) : ntohl (htonl n) = n := by
  unfold ntohl htonl
  apply BitVec.eq_of_getLsbD_eq
  intro i hi
  interval_cases i <;> simp

@[simp] theorem htons_ntohs (n : Half) : htons (ntohs n) = n := ntohs_htons n

/-- `semaphore_t`, with the processes that wait for it in the order they came. -/
structure Semaphore where
  count : Nat
  waitList : List Nat
  deriving DecidableEq

namespace Semaphore

def init (count : Nat) : Semaphore := ⟨count, []⟩

/-- `down` by a process: it goes on at once, or sleeps until an `up` has taken it off the list. -/
def down (s : Semaphore) (pid : Nat) : Semaphore :=
  if 0 < s.count then { s with count := s.count - 1 } else { s with waitList := s.waitList ++ [pid] }

def up (s : Semaphore) : Semaphore :=
  match s.waitList with
  | [] => { s with count := s.count + 1 }
  | _ :: pids => { s with waitList := pids }

end Semaphore

/-- `sock_addr_inet_t`, in the byte order of the network. -/
structure SockAddr where
  ip : Word
  port : Half
  deriving DecidableEq

structure TcpFlags where
  fin : Bool := false
  syn : Bool := false
  pst : Bool := false
  psh : Bool := false
  ack : Bool := false
  urg : Bool := false
  ece : Bool := false
  cwr : Bool := false
  deriving DecidableEq

def TcpFlags.init : TcpFlags := {}

structure TcpHdr where
  srcPort : Half
  dstPort : Half
  seqNo : Word
  ackNo : Word
  flags : TcpFlags
  deriving DecidableEq

structure TcpSend where
  dstIp : Word
  srcPort : Half
  dstPort : Half
  seqNo : Word
  ackNo : Word
  flags : TcpFlags
  data : List Byte
  deriving DecidableEq

def TcpSend.hdr (p : TcpSend) : TcpHdr :=
  ⟨htons p.srcPort, htons p.dstPort, htonl p.seqNo, htonl p.ackNo, p.flags⟩

namespace TcpSend

def tcpLen (p : TcpSend) : Nat := (p.data.length + 20) % 2 ^ 16

def total (p : TcpSend) : Nat := max p.tcpLen 26

def fits (p : TcpSend) : Bool := p.total + 34 ≤ 2048

/-- What is received behind the header: a short segment is padded with zeros, and data too long for 16 bits has
not been added at all. -/
def payload (p : TcpSend) : List Byte :=
  (if p.data.length + 20 < 2 ^ 16 then p.data else []) ++ List.replicate (p.total - p.tcpLen) 0

theorem fits_of_nil {p : TcpSend} (h : p.data = []) : p.fits = true := by
  unfold fits total tcpLen
  rw [h]
  rfl

theorem payload_of_length {p : TcpSend} (h : 6 ≤ p.data.length) (h' : p.data.length ≤ 1994) :
    p.payload = p.data ∧ p.fits = true := by
  have hlen : p.tcpLen = p.data.length + 20 := Nat.mod_eq_of_lt (by omega)
  have htotal : p.total = p.data.length + 20 := by
    unfold total
    omega
  constructor
  · unfold payload
    rw [if_pos (by omega), htotal, hlen, Nat.sub_self, List.replicate_zero, List.append_nil]
  · unfold fits
    rw [htotal]
    exact decide_eq_true (by omega)

end TcpSend

end BabyOS
