import BabyOS.ProcTree

open Function

namespace BabyOS

/-- A wait queue: `m_wait_child` of a process, or one of the others. -/
inductive WaitQueue (Proc Q : Type)
  | child (p : Proc)
  | other (q : Q)
  deriving DecidableEq

/-- Where a process is in the kernel, in the order of the source, one step from each; what it still has to loop
over stands with the place. -/
inductive ProcPlace (Proc Q : Type)
  | user
  | forkList (q : Proc)
  | forkChild (q : Proc)
  | waitAdd (pid : Word)
  | waitSleep (pid : Word)
  | scan (pid : Word) (rest : List Proc) (flag : Bool)
  | waitSchedule (pid : Word)
  | reap (x : Proc)
  | unlist (x : Proc)
  | free (x : Proc)
  | waitRunning
  | waitRemove
  | adopt (reaper : Proc) (rest : List Proc)
  | notify
  | wakeUp (q : Proc)
  | wakeUpQueue (q w : Proc)
  | exitSchedule
  | exited
  | sleepAdd (q : Q)
  | sleepState (q : Q)
  | sleepSchedule (q : Q)
  | sleepRemove (q : Q)
  | timerAdd
  | timerState
  | timerSchedule
  | timerRemove

/-- The processes of a machine. `procs` is `m_procs` of each wait queue and `waker` the process that a `wake_up`
under its lock is waking; `timers` is the processes with a timer of `sleep`, and `expired` those that
`process_timeout` is waking. -/
structure ProcSys (Proc Q : Type) (cpus : Nat) where
  sched : Sched Proc cpus
  tree : ProcTree Proc
  nextPid : Word
  place : Proc → ProcPlace Proc Q
  procs : WaitQueue Proc Q → List Proc
  waker : WaitQueue Proc Q → Option Proc
  timers : List Proc
  expired : List Proc

/-- The calls of the process on a processor, its next step in the kernel, a `schedule` towards user mode or in
the idle loop, the end of a switch, and the interrupts that wake processes. -/
inductive ProcAct (Proc Q : Type) (cpus : Nat)
  | fork (c : Fin cpus) (q : Proc)
  | waitChildren (c : Fin cpus) (pid : Word)
  | exit (c : Fin cpus)
  | sleepOn (c : Fin cpus) (q : Q)
  | sleep (c : Fin cpus)
  | go (c : Fin cpus)
  | schedule (c : Fin cpus)
  | scheduleTail (p : Proc)
  | wakeUp (q : Q)
  | wakeUpQueue (q : Q)
  | timeout (p : Proc)
  | timeoutQueue (p : Proc)

namespace ProcSys

variable {Proc Q : Type} [DecidableEq Proc] [DecidableEq Q] {cpus : Nat}

def setPlace (s : ProcSys Proc Q cpus) (p : Proc) (x : ProcPlace Proc Q) : ProcSys Proc Q cpus :=
  { s with place := update s.place p x }

def setSched (s : ProcSys Proc Q cpus) (sched : Sched Proc cpus) : ProcSys Proc Q cpus :=
  { s with sched := sched }

def setTree (s : ProcSys Proc Q cpus) (tree : ProcTree Proc) : ProcSys Proc Q cpus :=
  { s with tree := tree }

def setProcs (s : ProcSys Proc Q cpus) (q : WaitQueue Proc Q) (ps : List Proc) : ProcSys Proc Q cpus :=
  { s with procs := update s.procs q ps }

def setWaker (s : ProcSys Proc Q cpus) (q : WaitQueue Proc Q) (w : Option Proc) : ProcSys Proc Q cpus :=
  { s with waker := update s.waker q w }

/-- `wait_queue_t::add` and the place after it; `none` while the lock is held. -/
def add (s : ProcSys Proc Q cpus) (p : Proc) (q : WaitQueue Proc Q) (x : ProcPlace Proc Q) :
    Option (ProcSys Proc Q cpus) :=
  if s.waker q = none then some ((s.setProcs q (s.procs q ++ [p])).setPlace p x) else none

def remove (s : ProcSys Proc Q cpus) (p : Proc) (q : WaitQueue Proc Q) : Option (ProcSys Proc Q cpus) :=
  if s.waker q = none then some ((s.setProcs q ((s.procs q).erase p)).setPlace p .user) else none

/-- A step of the scheduler on the processor `c` that takes its process to another place. -/
def through (s : ProcSys Proc Q cpus) (c : Fin cpus) (a : SchedAct Proc cpus) (x : ProcPlace Proc Q) :
    Option (ProcSys Proc Q cpus) :=
  (s.sched.step a).map fun sched => (s.setSched sched).setPlace (s.sched.current c) x

/-- The next step of `p` on the processor `c`. In user mode there is none, at a held lock the process spins, and
so does `release_process` while the process has a processor. -/
def go (s : ProcSys Proc Q cpus) (c : Fin cpus) (p : Proc) : ProcPlace Proc Q → Option (ProcSys Proc Q cpus)
  | .user => none
  | .forkList q => some ((s.setTree (s.tree.addProcessToList q)).setPlace p (.forkChild q))
  | .forkChild q => some ((s.setTree (s.tree.addChild p q)).setPlace p .user)
  | .waitAdd pid => s.add p (.child p) (.waitSleep pid)
  | .waitSleep pid => s.through c (.setState c .sleep) (.scan pid (s.tree.children p) false)
  | .scan pid [] flag => some (s.setPlace p (if flag then .waitSchedule pid else .waitRunning))
  | .scan pid (x :: rest) flag =>
    if asked pid (s.sched.pid x) then
      if s.sched.state x = .zombie then some (s.setPlace p (.reap x))
      else some (s.setPlace p (.scan pid rest true))
    else some (s.setPlace p (.scan pid rest flag))
  | .waitSchedule pid => s.through c (.schedule c) (.waitSleep pid)
  | .reap x => if s.sched.hasCpu x = false then some (s.setPlace p (.unlist x)) else none
  | .unlist x => some ((s.setTree (s.tree.unlist x)).setPlace p (.free x))
  | .free x => some ((s.setTree (s.tree.free x)).setPlace p .waitRunning)
  | .waitRunning => s.through c (.setState c .running) .waitRemove
  | .waitRemove => s.remove p (.child p)
  | .adopt reaper (x :: rest) => some ((s.setTree (s.tree.adopt reaper x)).setPlace p (.adopt reaper rest))
  | .adopt _ [] => s.through c (.setState c .zombie) .notify
  | .notify => (s.tree.parent p).map fun q => s.setPlace p (.wakeUp q)
  | .wakeUp q =>
    if s.waker (.child q) = none then
      match s.procs (.child q) with
      | [] => some (s.setPlace p .exitSchedule)
      | w :: _ => (s.through c (.wakeUpState w) (.wakeUpQueue q w)).map (·.setWaker (.child q) (some w))
    else none
  | .wakeUpQueue q w => (s.through c (.wakeUpQueue w) .exitSchedule).map (·.setWaker (.child q) none)
  | .exitSchedule => s.through c (.schedule c) .exited
  | .exited => some (s.setPlace p .user)
  | .sleepAdd q => s.add p (.other q) (.sleepState q)
  | .sleepState q => s.through c (.setState c .sleep) (.sleepSchedule q)
  | .sleepSchedule q => s.through c (.schedule c) (.sleepRemove q)
  | .sleepRemove q => s.remove p (.other q)
  | .timerAdd => some { s.setPlace p .timerState with timers := s.timers ++ [p] }
  | .timerState => s.through c (.setState c .sleep) .timerSchedule
  | .timerSchedule => s.through c (.schedule c) .timerRemove
  | .timerRemove => some { s.setPlace p .user with timers := s.timers.erase p }

/-- The first part of `fork`, up to the run queue: the child `q` cannot run before. -/
def fork (s : ProcSys Proc Q cpus) (p q : Proc) : Option (ProcSys Proc Q cpus) :=
  let r := s.tree.getNextPid s.sched.pid (s.tree.procList.length + 1) s.nextPid
  (run Sched.step s.sched [.forkState q r.1, .forkQueue q]).map fun sched =>
    { s with
      sched := sched
      tree := s.tree.place p q
      nextPid := r.2
      place := update (update s.place q .user) p (.forkList q)
      procs := update s.procs (.child q) []
      waker := update s.waker (.child q) none }

def enter (s : ProcSys Proc Q cpus) (c : Fin cpus) (x : ProcPlace Proc Q) : Option (ProcSys Proc Q cpus) :=
  match s.place (s.sched.current c) with
  | .user => some (s.setPlace (s.sched.current c) x)
  | _ => none

/-- One step. The memory of a child is none that holds a process, and an idle process does not exit. -/
def step (boot : Fin cpus) (s : ProcSys Proc Q cpus) : ProcAct Proc Q cpus → Option (ProcSys Proc Q cpus)
  | .fork c q =>
    match s.place (s.sched.current c) with
    | .user => if s.tree.live q = false then s.fork (s.sched.current c) q else none
    | _ => none
  | .waitChildren c pid => s.enter c (.waitAdd pid)
  | .exit c =>
    if ∀ d, s.sched.idle d ≠ s.sched.current c then
      (s.tree.getChildReaper (s.sched.idle boot)).bind fun r =>
        (s.setTree r.1).enter c (.adopt r.2 (s.tree.children (s.sched.current c)))
    else none
  | .sleepOn c q => s.enter c (.sleepAdd q)
  | .sleep c => s.enter c .timerAdd
  | .go c => s.go c (s.sched.current c) (s.place (s.sched.current c))
  | .schedule c =>
    match s.place (s.sched.current c) with
    | .user => s.through c (.schedule c) .user
    | _ => none
  | .scheduleTail p => (s.sched.step (.scheduleTail p)).map s.setSched
  | .wakeUp q =>
    if s.waker (.other q) = none then
      match s.procs (.other q) with
      | [] => none
      | w :: _ => (s.sched.step (.wakeUpState w)).map fun sched => (s.setSched sched).setWaker (.other q) (some w)
    else none
  | .wakeUpQueue q =>
    (s.waker (.other q)).bind fun w =>
      (s.sched.step (.wakeUpQueue w)).map fun sched => (s.setSched sched).setWaker (.other q) none
  | .timeout p =>
    if p ∈ s.timers then
      (s.sched.step (.wakeUpState p)).map fun sched => { s.setSched sched with expired := p :: s.expired }
    else none
  | .timeoutQueue p =>
    if p ∈ s.expired then
      (s.sched.step (.wakeUpQueue p)).map fun sched =>
        { s.setSched sched with expired := s.expired.erase p }
    else none

end ProcSys

end BabyOS
