import BabyOS.NetRun
import Mathlib.Data.List.TakeWhile

open Function

namespace BabyOS

namespace Net

/-- The address that `bind` goes on with, in the byte order it was given in. -/
def bindAddr (cfg : NetCfg) (addr : SockAddr) : SockAddr := if addr.ip = 0 then ⟨cfg.ipaddr, addr.port⟩ else addr

def boundAddr (cfg : NetCfg) (addr : SockAddr) : SockAddr := ⟨ntohl (bindAddr cfg addr).ip, ntohs addr.port⟩

def Live (s : Net) (i : Fin 128) : Prop := (s.socks.dgrams i).ref ≠ 0

/-- The calls of a run; `bind` and `close` are for sockets that are open. -/
def DgramCall (s : Net) : NetAct → Prop
  | .dgramSocket => True
  | .dgramBind i _ _ => s.Live i
  | .dgramRelease i => s.Live i
  | _ => False

/-- No two open sockets are bound to one address; `create` leaves a socket with the address zero. -/
def Unique (s : Net) : Prop :=
  ∀ i j, i ≠ j → s.Live i → s.Live j → (s.socks.dgrams i).addr = (s.socks.dgrams j).addr → (s.socks.dgrams i).addr = ⟨0, 0⟩

/-- `bind` fails where another socket has the address, and else gets the datagrams for the port. -/
def BindRight (cfg : NetCfg) (s : Net) (i : Fin 128) (family : Half) (addr : SockAddr) : Prop :=
  ((∃ j, j ≠ i ∧ s.Live j ∧ (s.socks.dgrams j).addr = boundAddr cfg addr) → (s.dgramBind cfg i family addr).1 = -1) ∧
  ((s.dgramBind cfg i family addr).1 = 0 →
    (s.dgramBind cfg i family addr).2.socks.dgramTakers (ntohs addr.port) = [i])

def Refused (cfg : NetCfg) (s : Net) (family : Half) (addr : SockAddr) : Prop :=
  ∃ j, (s.socks.dgrams j).ref ≠ 0 ∧ (s.socks.dgrams j).family = family ∧ (s.socks.dgrams j).addr = bindAddr cfg addr

/-- A `bind` is refused, or no other open socket has the port. -/
def BindSafe (cfg : NetCfg) (s : Net) : NetAct → Prop
  | .dgramBind i family addr =>
    Refused cfg s family addr ∨ ∀ j, j ≠ i → s.Live j → (s.socks.dgrams j).addr.port ≠ ntohs addr.port
  | _ => True

def Empty (s : Net) : Prop := ∀ i, s.Live i → (s.socks.dgrams i).buffers = []

section

variable {cfg : NetCfg} {s t : Net} {a : NetAct} {i : Fin 128} {family : Half} {addr : SockAddr}

theorem bind_refused (h : Refused cfg s family addr) : s.dgramBind cfg i family addr = (-1, s) := by
  unfold Refused bindAddr at h
  unfold dgramBind
  rw [if_pos h]

theorem bind_ok_eq (h : ¬Refused cfg s family addr) : s.dgramBind cfg i family addr =
    (0, s.setSocks (s.socks.setDgram i { s.socks.dgrams i with addr := boundAddr cfg addr })) := by
  unfold Refused bindAddr at h
  unfold dgramBind boundAddr bindAddr
  rw [if_neg h]
  split
  · rfl
  · rfl

/-- What a call does to the table: one slot is written, with no buffers. -/
theorem dgram_step (he : s.Empty) (hc : s.DgramCall a) (hs : s.step cfg a = some t) :
    t.socks.dgrams = s.socks.dgrams ∨ ∃ i x, t.socks.dgrams = update s.socks.dgrams i x ∧ x.buffers = [] ∧
      (x.ref = 0 ∨ x.addr = ⟨0, 0⟩ ∨ ∃ family addr, a = .dgramBind i family addr ∧
        ¬Refused cfg s family addr ∧ x.addr = boundAddr cfg addr) := by
  cases a with
  | dgramSocket =>
    obtain rfl : s.dgramSocket = t := Option.some.inj hs
    unfold dgramSocket
    split
    · exact Or.inl rfl
    · next i _ => exact Or.inr ⟨i, ⟨1, (s.socks.dgrams i).family, ⟨0, 0⟩, [], .init 0⟩, rfl, rfl, Or.inr (Or.inl rfl)⟩
  | dgramBind i family addr =>
    obtain rfl : (s.dgramBind cfg i family addr).2 = t := Option.some.inj hs
    by_cases hr : Refused cfg s family addr
    · rw [bind_refused hr]
      exact Or.inl rfl
    · rw [bind_ok_eq hr]
      exact Or.inr ⟨i, { s.socks.dgrams i with addr := boundAddr cfg addr }, rfl, he i hc,
        Or.inr (Or.inr ⟨family, addr, rfl, hr, rfl⟩)⟩
  | dgramRelease i =>
    have hq : NetAct.exec cfg (.dgramRelease i) s = .ok ((), s.setSocks (s.socks.setDgram i
        { s.socks.dgrams i with ref := 0, buffers := [] })) := by
      show BabyOS.dgramRelease i s = _
      unfold BabyOS.dgramRelease
      rw [bind_ok (show (get : NetProg Net) s = .ok (s, s) from rfl), he i hc]
      rfl
    rw [step, hq] at hs
    cases hs
    exact Or.inr ⟨i, { s.socks.dgrams i with ref := 0, buffers := [] }, rfl, rfl, Or.inl rfl⟩
  | _ => exact hc.elim

theorem Empty.step (he : s.Empty) (hc : s.DgramCall a) (hs : s.step cfg a = some t) : t.Empty := by
  intro j hj
  unfold Live at hj
  rcases dgram_step he hc hs with hd | ⟨i, x, hd, hx, -⟩
  · rw [hd] at hj ⊢
    exact he j hj
  · rw [hd, update_apply] at hj ⊢
    split_ifs at hj ⊢
    · exact hx
    · exact he j hj

theorem Unique.step (h : s.Unique) (he : s.Empty) (hc : s.DgramCall a) (hsafe : s.BindSafe cfg a)
    (hs : s.step cfg a = some t) : t.Unique := by
  intro j k hjk hj hk heq
  unfold Live at hj hk
  rcases dgram_step he hc hs with hd | ⟨i, x, hd, -, hx⟩
  · rw [hd] at hj hk heq ⊢
    exact h j k hjk hj hk heq
  -- the slot that was written is closed, or has the address zero, or a port that no other socket has
  have hnew : x.ref ≠ 0 → ∀ l, l ≠ i → s.Live l → (s.socks.dgrams l).addr = x.addr → x.addr = ⟨0, 0⟩ := by
    intro hr l hl hlive hxl
    rcases hx with hx | hx | ⟨family, addr, rfl, hnot, hx⟩
    · exact absurd hx hr
    · exact hx
    · refine absurd ?_ (hsafe.resolve_left hnot l hl hlive)
      rw [hxl, hx, boundAddr]
  rw [hd, update_apply] at hj hk
  rw [hd, update_apply, update_apply] at heq
  rw [hd, update_apply]
  by_cases hji : j = i
  · rw [if_pos hji] at hj heq ⊢
    have hki : k ≠ i := fun hki => hjk (hji.trans hki.symm)
    rw [if_neg hki] at hk heq
    exact hnew hj k hki hk heq.symm
  · rw [if_neg hji] at hj heq ⊢
    by_cases hki : k = i
    · rw [if_pos hki] at hk heq
      rw [heq]
      exact hnew hk j hji hj heq
    · rw [if_neg hki] at hk heq
      exact h j k hjk hj hk heq

theorem mem_takers (he : s.Empty) {port : Half} : s.socks.dgramTakers port =
    (List.finRange 128).filter fun j => (s.socks.dgrams j).ref ≠ 0 ∧ (s.socks.dgrams j).addr.port = port := by
  unfold Sockets.dgramTakers takers
  refine List.takeWhile_eq_self_iff.mpr fun j hj => ?_
  have hlive := (of_decide_eq_true (List.mem_filter.mp hj).2).1
  simp [he j hlive]

theorem bind_right_iff (he : s.Empty) (hi : s.Live i) :
    BindRight cfg s i family addr ↔ s.BindSafe cfg (.dgramBind i family addr) := by
  by_cases hr : Refused cfg s family addr
  · refine iff_of_true ?_ (Or.inl hr)
    rw [BindRight, bind_refused hr]
    exact ⟨fun _ => rfl, fun h => absurd h (show (-1 : Int) ≠ 0 by decide)⟩
  obtain ⟨t, ht⟩ : ∃ t, t = s.setSocks (s.socks.setDgram i { s.socks.dgrams i with addr := boundAddr cfg addr }) := ⟨_, rfl⟩
  have hself : t.socks.dgrams i = { s.socks.dgrams i with addr := boundAddr cfg addr } := by
    rw [ht]
    exact update_self _ _ _
  have hother : ∀ j, j ≠ i → t.socks.dgrams j = s.socks.dgrams j := by
    intro j hj
    rw [ht]
    exact update_of_ne hj _ _
  have het : t.Empty := he.step (a := .dgramBind i family addr) hi
    (congrArg some ((congrArg Prod.snd (bind_ok_eq hr)).trans ht.symm))
  rw [BindRight, bind_ok_eq hr, ← ht, mem_takers het]
  constructor
  · rintro ⟨-, htake⟩
    refine Or.inr fun j hj hlive hport => hj (List.mem_singleton.mp (htake rfl ▸ List.mem_filter.mpr ⟨List.mem_finRange j, ?_⟩))
    rw [hother j hj]
    exact decide_eq_true ⟨hlive, hport⟩
  · intro hsafe
    have hfree := hsafe.resolve_left hr
    refine ⟨?_, fun _ => ?_⟩
    · rintro ⟨j, hj, hlive, heq⟩
      refine absurd ?_ (hfree j hj hlive)
      rw [heq, boundAddr]
    · have hiff : ∀ j, ((t.socks.dgrams j).ref ≠ 0 ∧ (t.socks.dgrams j).addr.port = ntohs addr.port) ↔ j = i := by
        intro j
        by_cases hj : j = i
        · rw [hj, hself]
          exact iff_of_true ⟨hi, rfl⟩ rfl
        · rw [hother j hj]
          exact iff_of_false (fun h => hfree j hj h.1 h.2) hj
      simp only [hiff]
      rw [List.filter_eq, List.count_eq_one_of_mem (List.nodup_finRange 128) (List.mem_finRange i)]
      rfl

end

/-- Addresses stay unique while every `bind` is refused or for a port that no other socket has, and just those do what
they should. -/
theorem dgram_addresses_unique {cfg : NetCfg} {s s' : Net} {as : List NetAct} (hboot : s.Booted)
    (hcalls : Along (step cfg) DgramCall s as) (hrun : run (step cfg) s as = some s') :
    (Along (step cfg) (fun t a => t.DgramCall a ∧ t.BindSafe cfg a) s as → s'.Unique) ∧
    ∀ i family addr, s'.Live i → (BindRight cfg s' i family addr ↔ s'.BindSafe cfg (.dgramBind i family addr)) := by
  have hboot' : s.Empty := fun i hi => absurd (hboot.dgrams i).1 hi
  have hempty : s'.Empty := run_invariant (fun _ _ _ he hc => he.step hc) hboot' hcalls hrun
  refine ⟨fun hsafe => ?_, fun i family addr => bind_right_iff hempty⟩
  have hinv : s'.Empty ∧ s'.Unique := run_invariant (I := fun t => t.Empty ∧ t.Unique)
    (fun _ _ _ h hc hs => ⟨h.1.step hc.1 hs, h.2.step h.1 hc.1 hc.2 hs⟩)
    ⟨hboot', fun i _ _ hi => absurd (hboot.dgrams i).1 hi⟩ hsafe hrun
  exact hinv.2

def webAddr : SockAddr := ⟨0x0100000a#32, 0x5000#16⟩

def nameAddr : SockAddr := ⟨0x0100000a#32, 0x3500#16⟩

/-- Two sockets bound to the ports 80 and 53 of one address. -/
theorem dgram_addresses_unique_two : ∃ s, run (step hostCfg) host [.dgramSocket, .dgramSocket, .dgramBind 0 2 webAddr,
      .dgramBind 1 2 nameAddr] = some s ∧
    (s.socks.dgrams 0).addr = ⟨0x0a000001#32, 80#16⟩ ∧ (s.socks.dgrams 1).addr = ⟨0x0a000001#32, 53#16⟩ ∧ s.Unique ∧
    ∀ i family addr, s.Live i →
      (BindRight hostCfg s i family addr ↔ s.BindSafe hostCfg (.dgramBind i family addr)) := by
  let s₂ := host.dgramSocket.dgramSocket
  let s₃ := (dgramBind hostCfg s₂ 0 2 webAddr).2
  have h1 : step hostCfg host .dgramSocket = some host.dgramSocket := rfl
  have h2 : step hostCfg host.dgramSocket .dgramSocket = some s₂ := rfl
  have h3 : step hostCfg s₂ (.dgramBind 0 2 webAddr) = some s₃ := rfl
  have h4 : step hostCfg s₃ (.dgramBind 1 2 nameAddr) = some (dgramBind hostCfg s₃ 1 2 nameAddr).2 := rfl
  have hrun := run_step h1 (run_step h2 (run_step h3 (run_step h4 (run_nil _))))
  have hlive₂ : s₂.Live 0 := by
    unfold Live
    decide +kernel
  have hlive₃ : s₃.Live 1 := by
    unfold Live
    decide +kernel
  have hport₂ : ∀ j, j ≠ 0 → s₂.Live j → (s₂.socks.dgrams j).addr.port ≠ ntohs webAddr.port := by
    unfold Live
    decide +kernel
  have hport₃ : ∀ j, j ≠ 1 → s₃.Live j → (s₃.socks.dgrams j).addr.port ≠ ntohs nameAddr.port := by
    unfold Live
    decide +kernel
  have hcalls : Along (step hostCfg) (fun t a => t.DgramCall a ∧ t.BindSafe hostCfg a) host [.dgramSocket, .dgramSocket,
      .dgramBind 0 2 webAddr, .dgramBind 1 2 nameAddr] :=
    along_cons ⟨trivial, trivial⟩ h1 (along_cons ⟨trivial, trivial⟩ h2 (along_cons ⟨hlive₂, Or.inr hport₂⟩ h3
      (along_cons ⟨hlive₃, Or.inr hport₃⟩ h4 trivial)))
  have hopen : Along (step hostCfg) DgramCall host [.dgramSocket, .dgramSocket, .dgramBind 0 2 webAddr,
      .dgramBind 1 2 nameAddr] :=
    along_cons trivial h1 (along_cons trivial h2 (along_cons hlive₂ h3 (along_cons hlive₃ h4 trivial)))
  have h := dgram_addresses_unique host_booted hopen hrun
  exact ⟨_, hrun, by decide +kernel, by decide +kernel, h.1 hcalls, h.2⟩

theorem dgram_address_shared : (run (step hostCfg) host [.dgramSocket, .dgramSocket, .dgramBind 0 2 webAddr,
    .dgramBind 1 2 webAddr]).map (fun s => ((s.socks.dgrams 0).ref, (s.socks.dgrams 0).addr, (s.socks.dgrams 1).ref,
      (s.socks.dgrams 1).addr, s.socks.dgramTakers 80)) =
    some (1, ⟨0x0a000001#32, 80#16⟩, 1, ⟨0x0a000001#32, 80#16⟩, [0, 1]) := by
  decide +kernel

end Net

end BabyOS
