import BabyOS.Bytes
import BabyOS.MmPages
import Mathlib.Data.Fin.VecNotation

open Function

namespace BabyOS

abbrev Memory := Word → Byte

def bytesAt (mem : Memory) (a : Word) : Nat → Byte := fun k => mem (a + BitVec.ofNat 32 k)

/-- The memory in which the structure of `n` bytes at an address has been filled. -/
def fillAt (mem : Memory) (a : Word) (n : Nat) (bytes : Nat → Byte) : Memory :=
  fun x => if (x - a).toNat < n then bytes (x - a).toNat else mem x

/-- What a trap leaves on the kernel stack; the segment registers with the padding beside them. -/
structure TrapFrame where
  ebx : Word
  ecx : Word
  edx : Word
  esi : Word
  edi : Word
  ebp : Word
  eax : Word
  gs : Word
  fs : Word
  ds : Word
  es : Word
  trapno : Word
  err : Word
  eip : Word
  cs : Word
  eflags : Word
  esp : Word
  ss : Word
  deriving DecidableEq

namespace TrapFrame

def words (f : TrapFrame) : Fin 18 → Word :=
  ![f.ebx, f.ecx, f.edx, f.esi, f.edi, f.ebp, f.eax, f.gs, f.fs, f.ds, f.es, f.trapno, f.err, f.eip, f.cs,
    f.eflags, f.esp, f.ss]

def ofWords (w : Fin 18 → Word) : TrapFrame :=
  ⟨w 0, w 1, w 2, w 3, w 4, w 5, w 6, w 7, w 8, w 9, w 10, w 11, w 12, w 13, w 14, w 15, w 16, w 17⟩

theorem ofWords_words (f : TrapFrame) : ofWords f.words = f := rfl

end TrapFrame

structure SigInfo where
  sig : Word
  pid : Word
  deriving DecidableEq

def sigSegv : Word := 1#32
def sigDfl : Word := 0xffffffff#32
def sysSigret : Word := 8#32
def maxSyscall : Nat := 25

structure SigProc where
  sigPending : Bool
  sigQueue : List SigInfo
  handlers : Fin 32 → Word

/-- The frame goes on with some memory, the process has exited, or the number of the signal is outside the table.
-/
inductive Handled
  | resumes (mem : Memory) (frame : TrapFrame)
  | exits
  | outside

def SigProc.handler (p : SigProc) (sig : Word) : Option Word :=
  if h : (sig - 1).toNat < 32 then some (p.handlers ⟨(sig - 1).toNat, h⟩) else none

def SigProc.calcSigPending (p : SigProc) : SigProc := { p with sigPending := !p.sigQueue.isEmpty }

def SigProc.nextSignal (p : SigProc) : Option (SigInfo × SigProc) :=
  match p.sigQueue with
  | [] => none
  | si :: rest => some (si, { p with sigQueue := rest }.calcSigPending)

namespace Signal

def sigFrameSize : Nat := 88

def sigFrameAt (frame : TrapFrame) : Word := (frame.esp - BitVec.ofNat 32 sigFrameSize) &&& 0xfffffff8#32

/-- The signal frame of `handle_signal`: the number, the trap frame, the return address, and `movl $SYS_SIGRET,
%eax; int $0x80`. -/
def sigFrameBytes (old : Nat → Byte) (sigFrame : Word) (frame : TrapFrame) (si : SigInfo) : Nat → Byte :=
  let withSig := setWord old 4 si.sig
  let withTrapFrame := setWords withSig 8 frame.words
  let withRetAddr := setWord withTrapFrame 0 (sigFrame + 80#32)
  let withMov := update withRetAddr 80 0xb8#8
  setHalf (setWord withMov 81 sysSigret) 85 0x80cd#16

def handleSignalDefault (mem : Memory) (frame : TrapFrame) (sig : Word) : Handled :=
  if sig = sigSegv then .exits else .resumes mem frame

def handleSignal (p : SigProc) (mem : Memory) (frame : TrapFrame) (si : SigInfo) : Handled :=
  match p.handler si.sig with
  | none => .outside
  | some handler =>
    if handler = sigDfl then handleSignalDefault mem frame si.sig
    else
      let sigFrame := sigFrameAt frame
      .resumes (fillAt mem sigFrame sigFrameSize (sigFrameBytes (bytesAt mem sigFrame) sigFrame frame si))
        { frame with eip := handler, esp := sigFrame }

def doSignal (p : SigProc) (mem : Memory) (frame : TrapFrame) : SigProc × Handled :=
  match p.nextSignal with
  | none => (p, .resumes mem frame)
  | some (si, p) => (p, handleSignal p mem frame si)

/-- `do_sigreturn`: the value it returns and the frame it leaves. -/
def doSigreturn (mem : Memory) (frame : TrapFrame) : Word × TrapFrame :=
  let sigFrame := bytesAt mem (frame.esp - 4#32)
  (0, TrapFrame.ofWords fun k => getWord sigFrame (8 + 4 * k))

/-- The system calls by number: the value one returns, and the memory and frame it leaves. -/
abbrev SyscallTable := Nat → Memory → TrapFrame → Word × Memory × TrapFrame

def withSigret (others : SyscallTable) : SyscallTable :=
  update others sysSigret.toNat fun mem frame => ((doSigreturn mem frame).1, mem, (doSigreturn mem frame).2)

def doSyscall (table : SyscallTable) (mem : Memory) (frame : TrapFrame) : Memory × TrapFrame :=
  if frame.eax.toNat ≥ maxSyscall then (mem, { frame with eax := -1 })
  else
    let (value, mem, frame) := table frame.eax.toNat mem frame
    (mem, { frame with eax := value })

def movEax (mem : Memory) (regs : TrapFrame) : Option TrapFrame :=
  if bytesAt mem regs.eip 0 = 0xb8#8 then
    some { regs with eax := getWord (bytesAt mem regs.eip) 1, eip := regs.eip + 5#32 }
  else none

/-- `int $0x80`, when it is the instruction at `eip`: the frame that the trap leaves. -/
def intSyscall (mem : Memory) (regs : TrapFrame) : Option TrapFrame :=
  if getHalf (bytesAt mem regs.eip) 0 = 0x80cd#16 then some { regs with eip := regs.eip + 2#32, trapno := 0x80#32 }
  else none

/-- The handler has returned, with a balanced stack, to the address it found there; of the signal frame it has
left all but its own argument as it was. -/
structure HandlerReturned (mem : Memory) (regs : TrapFrame) (mem' : Memory) (regs' : TrapFrame) : Prop where
  esp : regs'.esp = regs.esp + 4#32
  eip : regs'.eip = getWord (bytesAt mem' regs.esp) 0
  kept : ∀ k < sigFrameSize, ¬(4 ≤ k ∧ k < 8) → bytesAt mem' regs.esp k = bytesAt mem regs.esp k

/-- One signal with a user handler, from `do_signal` to the end of the system call that the generated code
makes. -/
inductive Delivery (others : SyscallTable) : Memory → TrapFrame → Memory → TrapFrame → Prop
  | intro {p p' : SigProc} {si : SigInfo} {handler : Word} {mem mem₁ mem₂ mem' : Memory}
      {frame entry regs moved trapped frame' : TrapFrame} (hsi : p.nextSignal = some (si, p'))
      (huser : p.handler si.sig = some handler) (hdfl : handler ≠ sigDfl)
      (hdo : doSignal p mem frame = (p', .resumes mem₁ entry)) (hret : HandlerReturned mem₁ entry mem₂ regs)
      (hmov : movEax mem₂ regs = some moved) (hint : intSyscall mem₂ moved = some trapped)
      (hcall : doSyscall (withSigret others) mem₂ trapped = (mem', frame')) : Delivery others mem frame mem' frame'

/-- Signals delivered one after another, each at the return of the system call of the one before. -/
inductive Deliveries (others : SyscallTable) : Memory → TrapFrame → Memory → TrapFrame → Prop
  | one {mem mem' frame frame'} (h : Delivery others mem frame mem' frame') : Deliveries others mem frame mem' frame'
  | more {mem mem₁ mem' frame frame₁ frame'} (hs : Deliveries others mem frame mem₁ frame₁)
      (h : Delivery others mem₁ frame₁ mem' frame') : Deliveries others mem frame mem' frame'

section

variable {p p' : SigProc} {si : SigInfo} {handler a : Word} {mem mem₁ mem₂ mem' : Memory}
  {frame entry regs frame' : TrapFrame} {others : SyscallTable}

theorem bytesAt_add (k j : Nat) : bytesAt mem (a + BitVec.ofNat 32 k) j = bytesAt mem a (k + j) := by
  unfold bytesAt
  rw [BitVec.add_assoc, ← BitVec.ofNat_add]

variable {old : Nat → Byte}

theorem sigFrame_words (k : Fin 18) : getWord (sigFrameBytes old a frame si) (8 + 4 * k) = frame.words k := by
  unfold sigFrameBytes
  rw [getWord_setHalf_ne (by omega), getWord_setWord_ne (by omega),
    getWord_update_ne (by omega), getWord_setWord_ne (by omega),
    getWord_setWords k]

theorem sigFrame_retAddr : getWord (sigFrameBytes old a frame si) 0 = a + 80#32 := by
  unfold sigFrameBytes
  rw [getWord_setHalf_ne (by omega), getWord_setWord_ne (by omega),
    getWord_update_ne (by omega), getWord_setWord_self]

theorem sigFrame_mov : sigFrameBytes old a frame si 80 = 0xb8#8 := by
  unfold sigFrameBytes
  rw [setHalf_of_not_mem (by omega), setWord_of_not_mem (by omega), update_self]

theorem sigFrame_imm : getWord (sigFrameBytes old a frame si) 81 = sysSigret := by
  unfold sigFrameBytes
  rw [getWord_setHalf_ne (by omega), getWord_setWord_self]

theorem sigFrame_int : getHalf (sigFrameBytes old a frame si) 85 = 0x80cd#16 :=
  getHalf_setHalf_self

theorem doSignal_user (hsi : p.nextSignal = some (si, p')) (huser : p.handler si.sig = some handler)
    (hdfl : handler ≠ sigDfl) :
    doSignal p mem frame = (p', .resumes (fillAt mem (sigFrameAt frame) sigFrameSize
      (sigFrameBytes (bytesAt mem (sigFrameAt frame)) (sigFrameAt frame) frame si))
      { frame with eip := handler, esp := sigFrameAt frame }) := by
  have hsame : p'.handler si.sig = p.handler si.sig := by
    unfold SigProc.nextSignal at hsi
    split at hsi
    next => cases hsi
    next =>
      cases hsi
      rfl
  simp only [doSignal, hsi, handleSignal, hsame, huser, if_neg hdfl]

theorem HandlerReturned.bytes {filled : Nat → Byte} (h : HandlerReturned (fillAt mem entry.esp sigFrameSize filled) entry mem₂ regs)
    {k : Nat} (hk : k < sigFrameSize) (harg : ¬(4 ≤ k ∧ k < 8)) : bytesAt mem₂ entry.esp k = filled k := by
  have hsub : (entry.esp + BitVec.ofNat 32 k - entry.esp).toNat = k := by
    rw [BitVec.add_comm, BitVec.add_sub_cancel, BitVec.toNat_ofNat, Nat.mod_eq_of_lt (hk.trans (by decide))]
  rw [h.kept k hk harg]
  unfold bytesAt fillAt
  rw [hsub, if_pos hk]

section

variable (ha : entry.esp = a)
  (h : HandlerReturned (fillAt mem a sigFrameSize (sigFrameBytes old a frame si)) entry mem₂ regs)
include ha h

theorem HandlerReturned.traps :
    ∃ moved trapped, movEax mem₂ regs = some moved ∧ intSyscall mem₂ moved = some trapped ∧
      trapped.eax = sysSigret ∧ trapped.esp = a + 4#32 := by
  subst ha
  have heip : regs.eip = entry.esp + BitVec.ofNat 32 80 := by
    rw [h.eip, ← sigFrame_retAddr]
    exact getWord_congr fun i h1 h2 => h.bytes (by simp [sigFrameSize]; omega) (by omega)
  have hcode : ∀ k < 8, bytesAt mem₂ regs.eip k = sigFrameBytes old entry.esp frame si (80 + k) := by
    intro k hk
    rw [heip, bytesAt_add]
    exact h.bytes (by simp [sigFrameSize]; omega) (by omega)
  have himm : getWord (bytesAt mem₂ regs.eip) 1 = sysSigret := by
    unfold getWord
    rw [hcode 1 (by omega), hcode 2 (by omega), hcode 3 (by omega), hcode 4 (by omega)]
    exact sigFrame_imm
  have hint : getHalf (bytesAt mem₂ (regs.eip + BitVec.ofNat 32 5)) 0 = 0x80cd#16 := by
    unfold getHalf
    rw [bytesAt_add, bytesAt_add, hcode 5 (by omega), hcode 6 (by omega)]
    exact sigFrame_int
  refine ⟨_, _, if_pos ((hcode 0 (by omega)).trans sigFrame_mov), if_pos hint, himm, h.esp⟩

theorem doSyscall_sigret {trapped : TrapFrame} (heax : trapped.eax = sysSigret) (hesp : trapped.esp = a + 4#32) :
    doSyscall (withSigret others) mem₂ trapped = (mem₂, { frame with eax := 0 }) := by
  subst ha
  have hwords : (fun k : Fin 18 => getWord (bytesAt mem₂ entry.esp) (8 + 4 * k)) = frame.words := by
    funext k
    rw [← sigFrame_words k]
    exact getWord_congr fun i h1 h2 => h.bytes (by simp [sigFrameSize]; omega) (by omega)
  have hback : doSigreturn mem₂ trapped = (0, frame) := by
    unfold doSigreturn
    rw [hesp, BitVec.add_sub_cancel]
    simp only [hwords, TrapFrame.ofWords_words]
  have hnum : ¬sysSigret.toNat ≥ maxSyscall := by decide
  unfold doSyscall withSigret
  rw [heax, if_neg hnum, update_self, hback]

end

theorem Delivery.frame_eq (h : Delivery others mem frame mem' frame') : frame' = { frame with eax := 0 } := by
  obtain ⟨hsi, huser, hdfl, hdo, hret, hmov, hint, hcall⟩ := h
  rw [doSignal_user hsi huser hdfl] at hdo
  obtain ⟨hmem, hentry⟩ := Handled.resumes.inj (Prod.mk.inj hdo).2
  rw [← hmem] at hret
  obtain ⟨moved', trapped', hmov', hint', heax, hesp⟩ := hret.traps (by rw [← hentry])
  obtain rfl := Option.some.inj (hmov.symm.trans hmov')
  obtain rfl := Option.some.inj (hint.symm.trans hint')
  rw [doSyscall_sigret (by rw [← hentry]) hret heax hesp] at hcall
  exact (congrArg Prod.snd hcall).symm

theorem Deliveries.frame_eq (h : Deliveries others mem frame mem' frame') : frame' = { frame with eax := 0 } := by
  induction h with
  | one h => exact h.frame_eq
  | more hs h ih => rw [h.frame_eq, ih]

theorem exists_delivery (hsi : p.nextSignal = some (si, p')) (huser : p.handler si.sig = some handler)
    (hdfl : handler ≠ sigDfl) : ∃ mem' frame', Delivery others mem frame mem' frame' := by
  have hdo : doSignal p mem frame = _ := doSignal_user hsi huser hdfl
  generalize hmem : fillAt mem (sigFrameAt frame) sigFrameSize _ = mem₁ at hdo
  obtain ⟨entry, hentry⟩ : ∃ e : TrapFrame, e = { frame with eip := handler, esp := sigFrameAt frame } := ⟨_, rfl⟩
  rw [← hentry] at hdo
  have hret : HandlerReturned mem₁ entry mem₁
      { entry with esp := entry.esp + 4#32, eip := getWord (bytesAt mem₁ entry.esp) 0 } :=
    ⟨rfl, rfl, fun _ _ _ => rfl⟩
  have hesp : entry.esp = sigFrameAt frame := by rw [hentry]
  have hret' := hret
  rw [← hmem] at hret'
  obtain ⟨moved, trapped, hmov, hint, -, -⟩ := hret'.traps hesp
  rw [hmem] at hmov hint
  exact ⟨_, _, .intro hsi huser hdfl hdo hret hmov hint rfl⟩

/-- Signals leave the interrupted frame as it was exactly where its `eax` is zero. -/
theorem signals_restore_frame (h : Deliveries others mem frame mem' frame') : frame' = frame ↔ frame.eax = 0 := by
  rw [h.frame_eq]
  constructor
  · intro heq
    rw [← heq]
  · intro heax
    rw [← heax]

end

def userFrame (eax : Word) : TrapFrame :=
  { ebx := 0, ecx := 0, edx := 0, esi := 0, edi := 0, ebp := 0xbfffffe8#32, eax := eax, gs := 0x23, fs := 0x23,
    ds := 0x23, es := 0x23, trapno := 0x20, err := 0, eip := 0x1000#32, cs := 0x1b, eflags := 0x202#32,
    esp := 0xbfffffd3#32, ss := 0x23 }

theorem exists_delivery_userFrame (eax : Word) (others : SyscallTable) :
    ∃ mem' frame', Delivery others (fun _ => 0) (userFrame eax) mem' frame' := by
  have hnext : (⟨true, [⟨2, 1⟩], fun _ => 0x2000#32⟩ : SigProc).nextSignal =
      some (⟨2, 1⟩, ⟨false, [], fun _ => 0x2000#32⟩) := rfl
  exact exists_delivery hnext rfl (by decide)

theorem signals_restore_zero : ∃ mem' frame', Deliveries (fun _ mem frame => (0, mem, frame)) (fun _ => 0)
    (userFrame 0) mem' frame' ∧ frame' = userFrame 0 := by
  obtain ⟨mem', frame', h⟩ := exists_delivery_userFrame 0 fun _ mem frame => (0, mem, frame)
  exact ⟨mem', frame', .one h, (signals_restore_frame (.one h)).mpr rfl⟩

/-- A signal that arrives while `eax` is five brings back a frame with zero there. -/
theorem signal_clears_eax : ∃ mem' frame', Deliveries (fun _ mem frame => (0, mem, frame)) (fun _ => 0)
    (userFrame 5) mem' frame' ∧ frame' ≠ userFrame 5 := by
  obtain ⟨mem', frame', h⟩ := exists_delivery_userFrame 5 fun _ mem frame => (0, mem, frame)
  refine ⟨mem', frame', .one h, ?_⟩
  rw [h.frame_eq]
  decide

end Signal

end BabyOS
