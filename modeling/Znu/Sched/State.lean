import Znu.Kernel.System

/-! # Processes behind pointers

The table of `sched.c` as it is in memory: entries are pointers to `process_t`, and so are
`current_process`, `init_process`, `idle_process` and the reader a terminal remembers. Kernel
threads are processes too. A process that has been freed leaves its address to be used
again, while old pointers to it remain.
-/

namespace Znu.Sched

open Machine Kernel System Function

/-- The address of a `process_t`. -/
abbrev Ptr := Nat

/-- Index of `ttys`, which has `MAX_TTYS` entries. -/
abbrev TtyId := Fin 2

/-- The 512 bytes that `fxsave` writes and `fxrstor` reads. -/
abbrev FxArea := BitVec 4096

/-- The fields of `process_t` that only the scheduler, the loader and the terminals use. -/
structure Thread extends Process where
  pml4 : Nat
  isKthread : Bool
  waitChannel : Option TtyId
  sseState : FxArea
  tlsBase : Word

namespace Thread

def lift (f : Process → Process) (t : Thread) : Thread := { t with toProcess := f t.toProcess }

/-- `wait_reason`, `wait_channel` and `wait_pid` of a process that does not wait. -/
def endWait (t : Thread) : Thread := { t.lift System.endWait with waitChannel := none }

end Thread

structure Tty where
  cookedBuf : Nat → UInt8
  cookedHead : Nat
  cookedTail : Nat
  lineBuf : Nat → UInt8
  lineLen : Nat
  cIflag : BitVec 32
  cLflag : BitVec 32
  waitingReader : Option Ptr

structure State where
  threads : Ptr → Thread
  /-- the addresses at which there is a `process_t` -/
  allocated : Finset Ptr
  processes : Slot → Option Ptr
  processCount : Int
  /-- `-1` is `none` -/
  currentProcessIndex : Option Slot
  currentProcess : Option Ptr
  initProcess : Option Ptr
  idleProcess : Ptr
  rrCursor : Int
  nextPid : Word
  timerTicks : Nat
  /-- `tss_per_cpu[0].rsp0` -/
  rsp0 : Word
  /-- `cpu_contexts[0].kernel_stack` -/
  cpuContextStack : Word
  /-- `kernel_pml4` -/
  kernelPml4 : Nat
  cr3 : Nat
  /-- the SSE and x87 registers -/
  fpu : FxArea
  /-- the model-specific register `MSR_FS_BASE` -/
  fsBase : Word
  ttys : TtyId → Tty

namespace State

variable (s : State)

/-- Write to the process at an address. -/
def modify (p : Ptr) (f : Thread → Thread) : State :=
  { s with threads := Function.update s.threads p (f (s.threads p)) }

def inTable (p : Ptr) : Bool := slots.any fun i => s.processes i == some p

/-- A loop over the table that writes to each process in it. -/
def modifyAll (f : Thread → Thread) : State :=
  { s with threads := fun p => if s.inTable p then f (s.threads p) else s.threads p }

def modifyTty (t : TtyId) (f : Tty → Tty) : State :=
  { s with ttys := Function.update s.ttys t (f (s.ttys t)) }

/-! ## The table -/

def processTableFindFreeSlot : Option Slot := slots.find? fun i => (s.processes i).isNone

def processTableFind (p : Ptr) : Option Slot := slots.find? fun i => s.processes i == some p

def findProcessByPid (pid : Word) : Option Ptr :=
  slots.findSome? fun i => (s.processes i).filter fun p => (s.threads p).pid == pid

/-- The result is 0 or -1. -/
def addProcess (p : Ptr) : State × Int :=
  match s.processTableFind p with
  | some _ => (s, 0)
  | none =>
    match s.processTableFindFreeSlot with
    | none => (s, -1)
    | some i =>
      ({ s with
          processes := Function.update s.processes i (some p)
          processCount := s.processCount + 1 }, 0)

def processRemove (p : Ptr) : State :=
  match s.processTableFind p with
  | none => s
  | some i =>
    { s with
      processes := Function.update s.processes i none
      processCount := if 0 < s.processCount then s.processCount - 1 else s.processCount
      currentProcessIndex :=
        if s.currentProcessIndex = some i then none else s.currentProcessIndex }

/-- `process_destroy`: the memory is free again. -/
def processDestroy (p : Ptr) : State :=
  if p = s.idleProcess then s else { s with allocated := s.allocated.erase p }

/-- Memory for a new process, with its contents. -/
def allocate (p : Ptr) (t : Thread) : State :=
  { s with allocated := insert p s.allocated, threads := Function.update s.threads p t }

/-! ## The scheduler -/

def processIsRunnable (p : Ptr) : Bool := p != s.idleProcess && (s.threads p).isRunnable

def wakeSleepingProcesses : State := s.modifyAll (Thread.lift (Process.wakeAt s.timerTicks))

/-- `-1` if no process is runnable. -/
def findHighestPriority : Int :=
  slots.foldl (fun highest i =>
    match s.processes i with
    | some p =>
      if s.processIsRunnable p ∧ highest < (s.threads p).priority.toInt then
        (s.threads p).priority.toInt
      else highest
    | none => highest) (-1)

/-- The slots in the order in which `pick_next_process` looks at them. -/
def pickOrder : List Slot :=
  let cursor := if 0 ≤ s.rrCursor ∧ s.rrCursor < 64 then s.rrCursor.toNat else 0
  (List.range 64).map fun n => ⟨(cursor + n) % 64, Nat.mod_lt _ (by decide)⟩

def pickNextProcess : Option Slot :=
  if s.findHighestPriority < 0 then none else
    s.pickOrder.find? fun i => (s.processes i).any fun p =>
      s.processIsRunnable p && (s.threads p).priority.toInt == s.findHighestPriority

def updateKernelStack (p : Ptr) : State :=
  { s with rsp0 := (s.threads p).kstackTop, cpuContextStack := (s.threads p).kstackTop }

def vmmSwitch (pml4 : Nat) : State := { s with cr3 := pml4 }

/-- `process_save_context` of the current process. -/
def saveCurrent (regs : Frame) : State :=
  match s.currentProcess with
  | none => s
  | some p => s.modify p fun t => { t with context := regs }

def demoteCurrent : State :=
  match s.currentProcess with
  | none => s
  | some p => s.modify p fun t => if t.state = .running then { t with state := .ready } else t

def setRunning (p : Ptr) : State := s.modify p fun t => { t with state := .running }

/-- `fxsave` to the process that loses the processor. -/
def saveFpu : State :=
  match s.currentProcess with
  | none => s
  | some old =>
    if old = s.idleProcess then s else s.modify old fun t => { t with sseState := s.fpu }

/-- The address space is left alone if both processes have the same. -/
def switchSpace (next : Ptr) : State :=
  match s.currentProcess with
  | none => s.vmmSwitch (s.threads next).pml4
  | some old =>
    if (s.threads old).pml4 = (s.threads next).pml4 then s else s.vmmSwitch (s.threads next).pml4

/-- The switch to a process of the table at the end of `scheduler`. -/
def switchTo (i : Slot) (next : Ptr) : State :=
  let s := s.saveFpu.switchSpace next
  let s := { s with currentProcess := some next, currentProcessIndex := some i }
  let s := { s.setRunning next with rrCursor := (i.val + 1) % 64 }
  let s := s.updateKernelStack next
  { s with fpu := (s.threads next).sseState }

def switchToIdle : State :=
  { s with currentProcess := some s.idleProcess, currentProcessIndex := none }.updateKernelStack
    s.idleProcess

/-- The part of `scheduler` after the states have been updated. `none` is a result `NULL`. -/
def schedule (regs : Option Frame) : Option (State × Frame) :=
  match s.pickNextProcess with
  | none =>
    match s.currentProcess, regs with
    | none, some regs => some (s, regs)
    | some old, regs =>
      if s.processIsRunnable old then regs.map fun regs => (s.setRunning old, regs)
      else some (s.switchToIdle, (s.threads s.idleProcess).context)
    | none, none => some (s.switchToIdle, (s.threads s.idleProcess).context)
  | some i =>
    match s.processes i with
    | none => some (s, regs.getD (s.threads s.idleProcess).context)
    | some next =>
      if s.currentProcess = some next then
        regs.map fun regs =>
          ({ s.setRunning next with
              currentProcessIndex := some i
              rrCursor := (i.val + 1) % 64 }, regs)
      else some (s.switchTo i next, (s.threads next).context)

/-- The states of all processes when the next one is chosen. -/
def prepared (regs : Option Frame) : State :=
  match regs with
  | none => s.wakeSleepingProcesses
  | some regs => (s.saveCurrent regs).wakeSleepingProcesses.demoteCurrent

def scheduler (regs : Option Frame) : Option (State × Frame) := (s.prepared regs).schedule regs

end State

end Znu.Sched
