import BabyOS.NetRun

namespace BabyOS

/-- The size of the buffer that a call takes for itself and never frees. -/
def NetCall.leaks : NetCall → Option Nat
  | .udp _ _ _ data => some ((data.length + 8) % 0x10000 + 12)
  | .tcp p => some (p.total + 12)
  | .dns _ => some 512
  | .echoRequest .. => none
  | .echoReply .. => none

namespace Net

def bufCount (s : Net) : Nat := s.netBuffers.length + s.arp.waiting.length

def extCount (s : Net) : Nat := s.extBuffers.length + (s.extsOf s.arp.waiting).card

/-- A call returns and leaves as many buffers and ext buffers as it has found. -/
def Kept (cfg : NetCfg) (s : Net) (c : NetCall) : Prop :=
  Ends (fun _ => False) (c.exec cfg) (fun _ t => t.bufCount = s.bufCount ∧ t.extCount = s.extCount) s

def Lossless (s : Net) (c : NetCall) : Prop := ∀ len, c.leaks = some len → ¬s.Alloc len

section

variable {cfg : NetCfg} {s t : Net} {held all exts : Multiset Nat} {c : NetCall} {len : Nat}

theorem Own.bufCount (h : Own s held all exts) : s.bufCount + held.card = all.card := by
  rw [← h.bufs, Multiset.card_add, Multiset.card_add, Multiset.coe_card, Multiset.coe_card, Net.bufCount]

theorem Own.extCount (h : Own s held all exts) : s.extCount + (s.extsOf held).card = exts.card := by
  rw [← h.extBufs, extsOf_add, Multiset.card_add, Multiset.card_add, Multiset.coe_card, Net.extCount, Nat.add_assoc]

theorem Inv.nothingHeld (h : s.Inv) : ∃ all exts, Own s 0 all exts := by
  obtain ⟨all, exts, ho⟩ := h
  rw [← add_zero s.socks.queued] at ho
  exact ho.drop

theorem exec_of_leaks (cfg : NetCfg) (h : c.leaks = some len) : ∃ k : Option Nat → NetProg Int,
    c.exec cfg = discard (BabyOS.allocNetBuffer len >>= k) ∧ k none = pure (-1) ∧ ∀ b, Loses (k (some b)) := by
  cases c with
  | udp dstIp srcPort dstPort data =>
    cases h
    exact ⟨_, rfl, rfl, fun b => (conserves_udpBody b dstIp srcPort dstPort data _).loses⟩
  | tcp p =>
    cases h
    exact ⟨_, rfl, rfl, fun b => (conserves_tcpBody b p).loses⟩
  | dns name =>
    cases h
    exact ⟨_, rfl, rfl, fun b => loses_dnsBody b name⟩
  | echoRequest => cases h
  | echoReply => cases h

theorem conserves_of_leaks (h : c.leaks = none) : Conserves (c.exec cfg) := by
  cases c with
  | udp => cases h
  | tcp => cases h
  | dns => cases h
  | echoRequest => exact (conserves_echo _ _ _ _ _ _).discard
  | echoReply => exact (conserves_echo _ _ _ _ _ _).discard

theorem kept_of_conserves (hc : Conserves (c.exec cfg)) (h : Own s 0 all exts) : s.Kept cfg c := by
  refine (hc h).imp ?_
  rintro _ t ⟨ht, -⟩
  have hb := h.bufCount.trans ht.bufCount.symm
  have he := h.extCount.trans ht.extCount.symm
  rw [Multiset.card_zero] at hb
  rw [show s.extsOf 0 = 0 from rfl, show t.extsOf 0 = 0 from rfl] at he
  exact ⟨by omega, by omega⟩

theorem exec_alloc (cfg : NetCfg) (h : Own s 0 all exts) (hl : c.leaks = some len) (ha : s.Alloc len) :
    Ends (fun _ => False) (c.exec cfg) (fun _ t => t.bufCount < s.bufCount) s := by
  obtain ⟨k, hk, -, hsome⟩ := exec_of_leaks cfg hl
  rw [hk, ends_discard]
  refine ends_alloc (fun hn => absurd ha hn) fun b t _ ht => ?_
  refine (hsome b (h.took ht)).imp ?_
  rintro _ u ⟨⟨lost, hu⟩, -⟩
  have hcount := hu.bufCount.trans h.bufCount.symm
  rw [Multiset.card_add, Multiset.card_cons, Multiset.card_zero] at hcount
  omega

theorem kept_iff_lossless (h : Own s 0 all exts) : s.Kept cfg c ↔ s.Lossless c := by
  unfold Lossless
  cases hl : c.leaks with
  | none =>
    refine ⟨fun _ _ hlen => absurd hlen.symm (Option.some_ne_none _), fun _ => ?_⟩
    exact kept_of_conserves (conserves_of_leaks hl) h
  | some len =>
    by_cases ha : s.Alloc len
    · refine ⟨fun hk => ?_, fun hn => absurd ha (hn len rfl)⟩
      obtain ⟨_, t, hm, hlt⟩ := (exec_alloc cfg h hl ha).returns
      have heq := (hk.of_ok hm).1
      omega
    · refine ⟨fun _ _ hlen => by cases hlen; exact ha, fun _ => ?_⟩
      obtain ⟨k, hk, hnone, -⟩ := exec_of_leaks cfg hl
      rw [Kept, hk, ends_discard]
      refine ends_alloc (fun _ => ?_) fun _ _ ha' => absurd ha' ha
      rw [hnone]
      exact ⟨rfl, rfl⟩

/-- In every state reached while no frame is mishandled, a call keeps the number of buffers and ext buffers if
and only if it is an echo or cannot have a buffer of its own. -/
theorem sent_kept_iff {as : List NetAct} (h : s.Booted) (hc : Along (step cfg) (Careful cfg) s as)
    (hs : run (step cfg) s as = some t) (c : NetCall) : t.Kept cfg c ↔ t.Lossless c := by
  obtain ⟨all, exts, ho⟩ := (run_invariant (fun _ _ _ h => h.step) h.inv hc hs).nothingHeld
  exact kept_iff_lossless ho

theorem sent_kept_iff_echo : ∃ t, run (step hostCfg) host [.receive unknownFrame] = some t ∧
    t.Kept hostCfg (.echoRequest 0xc0a80103#32 1 1 false [7]) := by
  have hc : Along (step hostCfg) (Careful hostCfg) host [.receive unknownFrame] :=
    along_cons (unknownFrame_good host) rfl trivial
  obtain ⟨t, ht⟩ : ∃ t, run (step hostCfg) host [.receive unknownFrame] = some t := ⟨_, rfl⟩
  exact ⟨t, ht, (sent_kept_iff host_booted hc ht _).mpr fun _ hl => absurd hl.symm (Option.some_ne_none _)⟩

/-- A datagram waits for the MAC of its receiver; the buffer that it was copied from is lost. -/
theorem sent_buffer_lost : host.bufCount = 4 ∧
    (∃ t, run (step hostCfg) host [.call (.udp 0xc0a80103#32 9 9 [7])] = some t ∧ t.arp.waiting = [1] ∧ t.bufCount = 3) ∧
    ¬host.Kept hostCfg (.udp 0xc0a80103#32 9 9 [7]) := by
  refine ⟨rfl, ⟨_, rfl, rfl, rfl⟩, fun hk => ?_⟩
  have hcount : 3 = 4 := hk.1
  omega

end

end Net

end BabyOS
