import Znu.Kernel.Process

/-! # The scheduler, `wait`, `exit` and `fork`

The functions of `sched.c` and `signal.c`. A result `none` of a function that
returns a context stands for `panic`.
-/

namespace Znu.Kernel

open Machine List

/-- `process_is_runnable`, of a process of the table. -/
def Process.isRunnable (p : Process) : Bool := p.state = .ready || p.state = .running

/-- The body of the loop of `wake_sleeping_processes`. -/
def Process.wakeAt (now : Nat) (p : Process) : Process :=
  if p.state = .sleeping ∧ p.sleepDeadline ≠ 0 ∧ p.sleepDeadline ≤ now then
    { p with sleepDeadline := 0, state := .ready }
  else p

namespace System

variable (s : System)

/-- The slots in the order of a loop from 0 to `MAX_PROCESSES`. -/
def slots : List Slot := List.finRange 64

def processTableFindFreeSlot : Option Slot := slots.find? fun i => (s.processes i).isNone

def findProcessByPid (pid : Word) : Option Slot :=
  slots.find? fun i => (s.processes i).any (·.pid == pid)

/-- Apply `f` to every process of the table. -/
def modifyAll (f : Process → Process) : System :=
  { s with processes := fun i => (s.processes i).map f }

def wakeSleepingProcesses : System := s.modifyAll (Process.wakeAt s.timerTicks)

/-- `-1` if no process is runnable. -/
def findHighestPriority : Int :=
  slots.foldl (fun highest i =>
    match s.processes i with
    | some p => if p.isRunnable ∧ highest < p.priority.toInt then p.priority.toInt else highest
    | none => highest) (-1)

/-- The slots in the order in which `pick_next_process` looks at them. -/
def pickOrder : List Slot :=
  let cursor := if s.rrCursor < 64 then s.rrCursor else 0
  (List.range 64).map fun n => ⟨(cursor + n) % 64, Nat.mod_lt _ (by decide)⟩

def pickNextProcess : Option Slot :=
  if s.findHighestPriority < 0 then none else
    s.pickOrder.find? fun i =>
      (s.processes i).any fun p => p.isRunnable && p.priority.toInt == s.findHighestPriority

def updateKernelStack (p : Process) : System :=
  { s with rsp0 := p.kstackTop, cpuContextStack := p.kstackTop }

/-- `process_save_context` of the current process, and its demotion to ready. -/
def saveCurrent (regs : Frame) : System :=
  s.modifyCurrent fun p => { p with context := regs }

def demoteCurrent : System :=
  s.modifyCurrent fun p => if p.state = .running then { p with state := .ready } else p

/-- The switch to a process of the table at the end of `scheduler`. -/
def switchTo (i : Slot) (next : Process) : System :=
  let s := s.modifySlot i fun p => { p with state := .running }
  { s with currentProcess := some (.slot i), rrCursor := (i.val + 1) % 64 }.updateKernelStack next

def switchToIdle : System :=
  { s with currentProcess := some .idle }.updateKernelStack s.idleProcess

/-- The part of `scheduler` after the states have been updated. -/
def schedule (regs : Option Frame) : Option (System × Frame) :=
  match s.pickNextProcess with
  | none =>
    match s.currentProcess, regs with
    | none, some regs => some (s, regs)
    | some (.slot i), regs =>
      if (s.processes i).any Process.isRunnable then
        regs.map fun regs => (s.modifySlot i fun p => { p with state := .running }, regs)
      else some (s.switchToIdle, s.idleProcess.context)
    | _, _ => some (s.switchToIdle, s.idleProcess.context)
  | some i =>
    match s.processes i with
    | none => some (s, regs.getD s.idleProcess.context)
    | some next =>
      if s.currentProcess = some (.slot i) then
        regs.map fun regs =>
          ({ s.modifySlot i fun p => { p with state := .running } with
            rrCursor := (i.val + 1) % 64 }, regs)
      else some (s.switchTo i next, next.context)

/-- Returns the context to resume. -/
def scheduler (regs : Option Frame) : Option (System × Frame) :=
  match regs with
  | none => s.wakeSleepingProcesses.schedule none
  | some regs => ((s.saveCurrent regs).wakeSleepingProcesses.demoteCurrent).schedule (some regs)

/-! ## Waiting -/

/-- What `do_wait` tells the system call. -/
inductive Waited where
  | result (v : CInt)
  | shouldBlock
  deriving Repr, DecidableEq

/-- The children of `parent` that `wait` with the argument `pid` is about. -/
def waitsFor (parent : Process) (pid : CInt) (child : Process) : Bool :=
  child.parentPid == parent.pid && (pid == -1 || child.pid == pid.signExtend 64)

/-- `process_remove` and `process_destroy` -/
def removeSlot (i : Slot) : System := { s with processes := Function.update s.processes i none }

def endWait (p : Process) : Process := { p with waitReason := .none, waitPid := -1 }

/-- The first exited child that `wait` is about. -/
def exitedChild (parent : Process) (pid : CInt) : Option Slot :=
  slots.find? fun i => (s.processes i).any fun c => waitsFor parent pid c && c.state == .zombie

def doWait (pid : CInt) (status : Word) : System × Waited :=
  match s.running with
  | none => (s, .result (-1))
  | some parent =>
    let matching := fun (i : Slot) => (s.processes i).any (waitsFor parent pid)
    match s.exitedChild parent pid with
    | some i =>
      let exitCode := ((s.processes i).map Process.exitCode).getD 0
      let childPid := ((s.processes i).map Process.pid).getD 0
      let s := if status = 0 then s else
        { s with statusStores := (status, exitCode) :: s.statusStores }
      ((s.removeSlot i).modifyCurrent endWait, .result (childPid.setWidth 32))
    | none =>
      if slots.any matching then
        (s.modifyCurrent fun p =>
          { p with waitReason := .child, waitPid := pid, state := .waiting }, .shouldBlock)
      else (s, .result (-1))

/-! ## Exit -/

/-- The loop of `adopt_children`, for one child. -/
def adoptInto (exiting init : Word) (p : Process) : Process :=
  if p.parentPid = exiting then { p with parentPid := init } else p

/-- The children of an exiting process become children of the first process. -/
def adoptChildren (exiting : Slot) : System :=
  match s.processes exiting, s.initProcess, s.initProcess.bind s.processes with
  | some p, some i, some init =>
    if exiting = i then s else
      let orphan := slots.any fun j =>
        (s.processes j).any fun c => c.parentPid == p.pid && c.state == .zombie
      let s := s.modifyAll (adoptInto p.pid init.pid)
      if orphan ∧ init.state = .waiting then
        s.modifySlot i fun q => { q with state := .ready }
      else s
  | _, _, _ => s

/-- The wake-up of a parent that waits for a child. -/
def wakeParent (p : Process) : Process :=
  if p.state = .waiting ∧ p.waitReason = .child then
    { endWait p with state := .ready }
  else p

/-- `do_exit` up to the call of `scheduler`. -/
def endProcess (i : Slot) (code : CInt) : System :=
  let s := s.modifySlot i fun p => { p with exitCode := code, state := .zombie }
  let s := s.adoptChildren i
  let s := match (s.processes i).bind fun p => s.findProcessByPid p.parentPid with
    | some j => s.modifySlot j wakeParent
    | none => s
  { s with currentProcess := none }

/-! ## Fork -/

/-- The child `clone_process` makes, on a fresh kernel stack. -/
def cloneOf (src : Process) (regs : Frame) (pid kstack : Word) : Process where
  pid := pid
  parentPid := src.pid
  exitCode := 0
  kstackTop := kstack
  context := { regs with rax := 0 }
  state := .ready
  priority := src.priority
  waitReason := .none
  waitPid := 0
  sleepDeadline := 0
  pendingSignals := 0
  blockedSignals := src.blockedSignals
  signalHandlers := src.signalHandlers
  savedUserContext := zeroFrame
  insideSignalHandler := false
  pendingCall := none
  blockedWait := none

def addProcess (i : Slot) (p : Process) : System :=
  { s with processes := Function.update s.processes i (some p) }

/-- `clone_process` of the current process; `kstack` is the top of the new kernel
    stack, or `none` if memory ran out. Returns the child's pid. -/
def cloneProcess (src : Process) (regs : Frame) (kstack : Option Word) : System × Option Word :=
  if src.state = .zombie then (s, none) else
  match s.processTableFindFreeSlot with
  | none => (s, none)
  | some i =>
    let pid := s.nextPid
    let s := { s with nextPid := s.nextPid + 1 }
    match kstack with
    | none => (s, none)
    | some kstack => (s.addProcess i (cloneOf src regs pid kstack), some pid)

end System

/-! ## Signals -/

def sigInt : Nat := 2
def sigKill : Nat := 9
def sigTerm : Nat := 15

/-- `kernel_signal_raise` -/
def Process.raise (signum : Nat) (p : Process) : Process :=
  if signum = 0 ∨ 64 ≤ signum then p else
    { p with
      pendingSignals := p.pendingSignals ||| BitVec.twoPow 64 signum
      state := if p.state = .waiting ∨ p.state = .sleeping then .ready else p.state }

/-- What `signal_check_and_deliver` does to a process about to return to user mode
    with the registers `regs`. -/
inductive Delivery where
  /-- go on with these registers -/
  | resume (p : Process) (regs : Frame)
  /-- the default action of a fatal signal -/
  | fatal (p : Process) (signum : Nat)

def Process.deliver (p : Process) (regs : Frame) : Delivery :=
  if p.insideSignalHandler then .resume p regs else
  let actionable := p.pendingSignals &&& ~~~p.blockedSignals
  match (List.finRange 64).find? fun (i : Fin 64) => 0 < i.val && actionable.getLsbD i.val with
  | none => .resume p regs
  | some i =>
    let p := { p with pendingSignals := p.pendingSignals &&& ~~~BitVec.twoPow 64 i.val }
    if p.signalHandlers i = 0 then
      if i.val = sigInt ∨ i.val = sigKill ∨ i.val = sigTerm then .fatal p i.val else .resume p regs
    else
      .resume { p with insideSignalHandler := true, savedUserContext := regs }
        { regs with rip := p.signalHandlers i, rdi := BitVec.ofNat 64 i.val, rax := 0 }

end Znu.Kernel
