import Znu.Machine.Resume

/-! # Processes and the process table

`process_t` and the table of `sched.c`. A pointer to a process is its slot in the
table, or the idle process, which is never in the table. Fields that play no part
in scheduling, waiting or signals are left out.
-/

namespace Znu.Kernel

open Machine

/-- `task_state_t` -/
inductive TaskState where
  | running | ready | sleeping | waiting | zombie
  deriving Repr, DecidableEq

/-- `task_prio_t` -/
inductive Priority where
  | idle | low | normal | high
  deriving Repr, DecidableEq

/-- `(int)proc->priority` -/
def Priority.toInt : Priority → Int
  | .idle => 0
  | .low => 1
  | .normal => 2
  | .high => 3

/-- `process_wait_reason_t` -/
inductive WaitReason where
  | none | child | tty
  deriving Repr, DecidableEq

/-- A C `int`. -/
abbrev CInt := BitVec 32

/-- A frame of zeros, as `memset` leaves it. -/
def zeroFrame : Frame :=
  ⟨0, 0, 0, 0, 0, 0, 0, 0, 0, 0, 0, 0, 0, 0, 0, 0, 0, 0, 0, 0, 0, 0, 0, 0⟩

structure Process where
  pid : Word
  parentPid : Word
  exitCode : CInt
  kstackTop : Word
  /-- the registers to resume with; stale while the process runs -/
  context : Frame
  state : TaskState
  priority : Priority
  waitReason : WaitReason
  waitPid : CInt
  sleepDeadline : Nat
  pendingSignals : Word
  blockedSignals : Word
  signalHandlers : Fin 64 → Word
  savedUserContext : Frame
  insideSignalHandler : Bool
  /-- the frame on the kernel stack of a system call that waits inside the kernel -/
  pendingCall : Option Frame
  /-- the status pointer of a `wait` that has blocked and not returned -/
  blockedWait : Option Word

/-- Index of the process table, which has `MAX_PROCESSES` entries. -/
abbrev Slot := Fin 64

/-- What `current_process` can point to. -/
inductive Task where
  | idle
  | slot (i : Slot)
  deriving Repr, DecidableEq

/-- Where the processor executes. -/
inductive Mode where
  | user | kernel
  deriving Repr, DecidableEq

def Mode.cs : Mode → Word
  | .user => userCs
  | .kernel => kernelCs

structure System where
  processes : Slot → Option Process
  idleProcess : Process
  initProcess : Option Slot
  currentProcess : Option Task
  rrCursor : Nat
  nextPid : Word
  timerTicks : Nat
  /-- `tss_per_cpu[0].rsp0` -/
  rsp0 : Word
  /-- `cpu_contexts[0].kernel_stack` -/
  cpuContextStack : Word
  /-- `main_cpu_context.kernel_stack`, the word `syscall_entry` loads -/
  mainStack : Word
  /-- the active GS base is `main_cpu_context`, and `swapgs` would hide it -/
  mainActive : Bool
  mode : Mode
  /-- the registers the running code was resumed with -/
  regs : Frame
  /-- what `do_wait` stored through status pointers, the last one first -/
  statusStores : List (Word × CInt)

namespace System

variable (s : System)

def task : Task → Option Process
  | .idle => some s.idleProcess
  | .slot i => s.processes i

/-- The process `current_process` points to. -/
def running : Option Process := s.currentProcess.bind s.task

def modifySlot (i : Slot) (f : Process → Process) : System :=
  { s with processes := Function.update s.processes i ((s.processes i).map f) }

def modify : Task → (Process → Process) → System
  | .idle, f => { s with idleProcess := f s.idleProcess }
  | .slot i, f => s.modifySlot i f

def modifyCurrent (f : Process → Process) : System :=
  match s.currentProcess with
  | none => s
  | some t => s.modify t f

lemma modifyCurrent_statusStores (f : Process → Process) :
    (s.modifyCurrent f).statusStores = s.statusStores := by
  unfold modifyCurrent
  split
  · rfl
  next t _ => cases t <;> rfl

end System

end Znu.Kernel
