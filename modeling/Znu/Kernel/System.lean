import Znu.Kernel.Sched
import Znu.Lib.Run

/-! # The system as a transition system

An event is an interrupt, a system call, or something that happens to a process
behind its back. Each runs from the instruction that enters the kernel to the one
that leaves it, so between events the processor executes user code, the idle loop,
or a system call that waits inside the kernel with interrupts on.
-/

namespace Znu.Kernel

open Machine Lib Process

/-- The numbers of the system calls that do more than return a value. -/
def sysFork : Word := 57
def sysExecve : Word := 59
def sysExit : Word := 60
def sysWait : Word := 61
def sysSpawn : Word := 159
def sysSigreturn : Word := 15
def sysExitGroup : Word := 231

namespace System

variable (s : System)

/-! ## Entering and leaving the kernel -/

def swapgs : System := { s with mainActive := !s.mainActive }

/-- `isr_stub` swaps the GS base if the interrupted code was in ring 3. -/
def enterInterrupt : System :=
  match s.mode with
  | .user => s.swapgs
  | .kernel => s

/-- `mov [gs:0], …` with the current process's `kstack_top`. -/
def storeMainStack : System :=
  match s.running with
  | some p => if s.mainActive then { s with mainStack := p.kstackTop } else s
  | none => s

/-- A process that runs again has left the `wait` it was blocked in. -/
def leaveWait : System := s.modifyCurrent fun p => { p with blockedWait := none }

def ringOf (f : Frame) : Mode := if f.cs &&& 3 = 0 then .kernel else .user

/-- The end of `isr_stub`. -/
def exitInterrupt (f : Frame) : System :=
  let s := match ringOf f with
    | .user => s.swapgs.leaveWait
    | .kernel => s
  { s with mode := ringOf f, regs := f }

/-- The registers `.return_to_user` restores: the return address, the flags and
    the stack pointer are still in the registers it used for them. -/
def sysretRegs (f : Frame) : Frame := { f with rcx := f.rip, r11 := f.rflags, rdi := f.rsp }

/-- `.return_to_user` -/
def returnToUser (f : Frame) : System :=
  { s.swapgs.leaveWait with mode := .user, regs := sysretRegs f }

/-- `.switch_to_new_context` -/
def switchToNewContext (f : Frame) : System := s.storeMainStack.returnToUser f

def forceContextRestore (f : Frame) : System :=
  let s := s.storeMainStack.swapgs
  { (match ringOf f with | .user => s.leaveWait | .kernel => s) with mode := ringOf f, regs := f }

/-- `jump_to_usermode` -/
def jumpToUsermode (entry stack : Word) : System :=
  { s.swapgs with
    mode := .user
    regs := { zeroFrame with rip := entry, rsp := stack, cs := userCs, ss := 0x1B } }

/-! ## Events -/

/-- `do_exit`, of the current process. -/
def doExit (code : CInt) : Option System :=
  match s.currentProcess with
  | some (.slot i) =>
    ((s.endProcess i code).scheduler none).map fun (s, f) => s.forceContextRestore f
  | _ => none

/-- `signal_check_and_deliver` and the exit from the interrupt. -/
def deliverAndExit (f : Frame) : Option System :=
  match s.running with
  | none => some (s.exitInterrupt f)
  | some p =>
    match p.deliver f with
    | .resume p f => some ((s.modifyCurrent fun _ => p).exitInterrupt f)
    | .fatal p signum => (s.modifyCurrent fun _ => p).doExit (BitVec.ofNat 32 signum)

/-- The context the scheduler hands back to an interrupt: the timer, or with `tick`
    off the software interrupt of `sys_yield`. -/
def rescheduled (tick : Bool) (regs : Frame) : Option (System × Frame) :=
  let s := s.enterInterrupt
  let s := if tick then { s with timerTicks := s.timerTicks + 1 } else s
  s.scheduler (some regs)

def interrupt (tick : Bool) (regs : Frame) : Option System :=
  if regs.cs ≠ s.mode.cs then none else
    (s.rescheduled tick regs).bind fun (s, f) =>
      if f.cs &&& 3 = 3 then s.deliverAndExit f else some (s.exitInterrupt f)

/-- A system call that only returns a value. -/
def ordinary (regs : Frame) (result : Word) : System :=
  s.swapgs.returnToUser { regs with rax := result }

/-- The `wait` system call with its arguments in RDI and RSI. -/
def wait (regs : Frame) : Option System :=
  match s.swapgs.doWait (regs.rdi.setWidth 32) regs.rsi with
  | (s, .result v) => some (s.returnToUser { regs with rax := v.signExtend 64 })
  | (s, .shouldBlock) =>
    ((s.modifyCurrent fun p => { p with blockedWait := some regs.rsi }).scheduler (some regs)).map
      fun (s, f) => s.switchToNewContext f

def fork (regs : Frame) (kstack : Option Word) : Option System :=
  s.running.map fun p =>
    match s.swapgs.cloneProcess p regs kstack with
    | (s, some pid) => s.returnToUser { regs with rax := pid }
    | (s, none) => s.returnToUser { regs with rax := -1 }

/-- The process `create_process_from_elf` makes. -/
def createProcess (parentPid pid kstack entry stack : Word) : Process where
  pid := pid
  parentPid := parentPid
  exitCode := 0
  kstackTop := kstack
  context := { zeroFrame with
    es := 0x1B, ds := 0x1B, rip := entry, rsp := stack, cs := userCs, ss := 0x1B, rflags := 0x202 }
  state := .ready
  priority := .normal
  waitReason := .none
  waitPid := 0
  sleepDeadline := 0
  pendingSignals := 0
  blockedSignals := 0
  signalHandlers := fun _ => 0
  savedUserContext := zeroFrame
  insideSignalHandler := false
  pendingCall := none
  blockedWait := none

/-- A successful `spawn`. If the table is full the process is lost. -/
def spawn (regs : Frame) (kstack entry stack : Word) : Option System :=
  s.running.map fun parent =>
    let pid := s.nextPid
    let s := { s.swapgs with nextPid := s.nextPid + 1 }
    let s := match s.processTableFindFreeSlot with
      | some i => s.addProcess i (createProcess parent.pid pid kstack entry stack)
      | none => s
    s.returnToUser { regs with rax := (pid.setWidth 32).signExtend 64 }

/-- A successful `execve`, from `replace_process_with_elf` on. -/
def execve (entry stack : Word) : Option System :=
  s.running.map fun p => (s.swapgs.updateKernelStack p).jumpToUsermode entry stack

/-- `sys_sigreturn` -/
def sigreturn (regs : Frame) : Option System :=
  s.running.map fun p =>
    if p.insideSignalHandler then
      (s.swapgs.modifyCurrent fun p => { p with insideSignalHandler := false }).returnToUser
        p.savedUserContext
    else s.swapgs.returnToUser { regs with rax := -1 }

/-- A read from an empty terminal: the call stops inside the kernel. -/
def ttyBlock (regs : Frame) : System :=
  let s := s.swapgs.modifyCurrent fun p =>
    { p with waitReason := .tty, waitPid := -1, state := .waiting, pendingCall := some regs }
  { s with mode := .kernel }

/-- The loop of such a call finds the terminal empty again. -/
def ttyAgain : Option System :=
  (s.running.bind Process.pendingCall).map fun _ =>
    s.modifyCurrent fun p => { p with waitReason := .tty, waitPid := -1, state := .waiting }

/-- Such a call returns. -/
def ttyReturn (result : Word) : Option System :=
  (s.running.bind Process.pendingCall).map fun regs =>
    (s.modifyCurrent fun p => { p with pendingCall := none }).returnToUser { regs with rax := result }

/-- `tty_wake_reader` -/
def wakeReader (p : Process) : Process :=
  if p.state = .waiting ∧ p.waitReason = .tty then
    { endWait p with state := .ready }
  else p

/-! ## Boot -/

/-- The idle process `init_scheduler` makes. -/
def idleTask (kstack loop : Word) : Process :=
  { createProcess 0 0 kstack 0 0 with
    state := .running
    priority := .idle
    context := { zeroFrame with
      es := 0x10, ds := 0x10, rip := loop, rsp := kstack, cs := kernelCs, ss := 0x10
      rflags := 0x202 } }

/-- The end of `kmain`: the first process enters user mode. -/
def boot (ticks : Nat) (idleStack loop kstack entry stack : Word) : System :=
  jumpToUsermode {
    processes := Function.update (fun _ => none) 0
      (some { createProcess 0 1 kstack entry stack with state := .running })
    idleProcess := idleTask idleStack loop
    initProcess := some 0
    currentProcess := some (.slot 0)
    rrCursor := 0
    nextPid := 2
    timerTicks := ticks
    rsp0 := kstack
    cpuContextStack := 0
    mainStack := kstack
    mainActive := true
    mode := .kernel
    regs := zeroFrame
    statusStores := [] } entry stack

end System

inductive Event where
  | interrupt (tick : Bool) (regs : Frame)
  | ordinary (regs : Frame) (result : Word)
  | wait (regs : Frame)
  | exit (regs : Frame)
  | fork (regs : Frame) (kstack : Option Word)
  | spawn (regs : Frame) (kstack entry stack : Word)
  | execve (regs : Frame) (entry stack : Word)
  | sigreturn (regs : Frame)
  | ttyBlock (regs : Frame)
  | ttyAgain
  | ttyReturn (result : Word)
  | signal (t : Task) (signum : Nat)
  | wakeReader (i : Slot)

/-- Addresses `kmalloc` can return as the top of a new kernel stack. -/
structure System.FreshStack (s : System) (kstack : Word) : Prop where
  idle : s.idleProcess.kstackTop ≠ kstack
  slot : ∀ i, ∀ p ∈ s.processes i, p.kstackTop ≠ kstack

instance (s : System) (kstack : Word) : Decidable (s.FreshStack kstack) :=
  decidable_of_iff (s.idleProcess.kstackTop ≠ kstack ∧
      ∀ i ∈ System.slots, ∀ p ∈ s.processes i, p.kstackTop ≠ kstack)
    ⟨fun ⟨idle, slot⟩ => ⟨idle, fun i => slot i (List.mem_finRange i)⟩,
      fun ⟨idle, slot⟩ => ⟨idle, fun i _ => slot i⟩⟩

/-- A system call with this number, made from user mode. -/
structure System.Calls (s : System) (regs : Frame) (number : Word) : Prop where
  user : s.mode = .user
  number : regs.rax = number
  cs : regs.cs = userCs

instance (s : System) (regs : Frame) (number : Word) : Decidable (s.Calls regs number) :=
  decidable_of_iff (s.mode = .user ∧ regs.rax = number ∧ regs.cs = userCs)
    ⟨fun ⟨user, number, cs⟩ => ⟨user, number, cs⟩, fun ⟨user, number, cs⟩ => ⟨user, number, cs⟩⟩

inductive Step : System → Event → System → Prop where
  | interrupt : s.interrupt tick regs = some s' → Step s (.interrupt tick regs) s'
  | ordinary : s.Calls regs regs.rax → regs.rax ∉ [sysExit, sysExitGroup, sysWait, sysSigreturn] →
      Step s (.ordinary regs result) (s.ordinary regs result)
  | wait : s.Calls regs sysWait → s.wait regs = some s' → Step s (.wait regs) s'
  | exit : s.Calls regs regs.rax → regs.rax ∈ [sysExit, sysExitGroup] →
      s.swapgs.doExit (regs.rdi.setWidth 32) = some s' → Step s (.exit regs) s'
  | fork : s.Calls regs sysFork → (∀ k ∈ kstack, s.FreshStack k) → s.fork regs kstack = some s' →
      Step s (.fork regs kstack) s'
  | spawn : s.Calls regs sysSpawn → s.FreshStack kstack → s.spawn regs kstack entry stack = some s' →
      Step s (.spawn regs kstack entry stack) s'
  | execve : s.Calls regs sysExecve → s.execve entry stack = some s' →
      Step s (.execve regs entry stack) s'
  | sigreturn : s.Calls regs sysSigreturn → s.sigreturn regs = some s' → Step s (.sigreturn regs) s'
  | ttyBlock : s.Calls regs 0 → Step s (.ttyBlock regs) (s.ttyBlock regs)
  | ttyAgain : s.mode = .kernel → s.ttyAgain = some s' → Step s .ttyAgain s'
  | ttyReturn : s.mode = .kernel → s.ttyReturn result = some s' → Step s (.ttyReturn result) s'
  | signal : Step s (.signal t signum) (s.modify t (Process.raise signum))
  | wakeReader : Step s (.wakeReader i) (s.modifySlot i System.wakeReader)

def System.next (s : System) : Event → Option System
  | .interrupt tick regs => s.interrupt tick regs
  | .ordinary regs result =>
    if s.Calls regs regs.rax ∧ regs.rax ∉ [sysExit, sysExitGroup, sysWait, sysSigreturn] then
      some (s.ordinary regs result)
    else none
  | .wait regs => if s.Calls regs sysWait then s.wait regs else none
  | .exit regs =>
    if s.Calls regs regs.rax ∧ regs.rax ∈ [sysExit, sysExitGroup] then
      s.swapgs.doExit (regs.rdi.setWidth 32)
    else none
  | .fork regs kstack =>
    if s.Calls regs sysFork ∧ kstack.all (s.FreshStack ·) then s.fork regs kstack else none
  | .spawn regs kstack entry stack =>
    if s.Calls regs sysSpawn ∧ s.FreshStack kstack then s.spawn regs kstack entry stack else none
  | .execve regs entry stack => if s.Calls regs sysExecve then s.execve entry stack else none
  | .sigreturn regs => if s.Calls regs sysSigreturn then s.sigreturn regs else none
  | .ttyBlock regs => if s.Calls regs 0 then some (s.ttyBlock regs) else none
  | .ttyAgain => if s.mode = .kernel then s.ttyAgain else none
  | .ttyReturn result => if s.mode = .kernel then s.ttyReturn result else none
  | .signal t signum => some (s.modify t (Process.raise signum))
  | .wakeReader i => some (s.modifySlot i wakeReader)

lemma Step.of_next {s s' : System} {e : Event} (computed : s.next e = some s') : Step s e s' := by
  cases e <;> simp only [System.next, Option.ite_none_right_eq_some, Option.some.injEq] at computed
  case interrupt => exact .interrupt computed
  case ordinary =>
    obtain ⟨⟨calls, number⟩, rfl⟩ := computed
    exact .ordinary calls number
  case wait => exact .wait computed.1 computed.2
  case exit => exact .exit computed.1.1 computed.1.2 computed.2
  case fork =>
    obtain ⟨⟨calls, fresh⟩, forked⟩ := computed
    refine .fork calls (fun k isK => ?_) forked
    cases isK
    exact of_decide_eq_true fresh
  case spawn => exact .spawn computed.1.1 computed.1.2 computed.2
  case execve => exact .execve computed.1 computed.2
  case sigreturn => exact .sigreturn computed.1 computed.2
  case ttyBlock =>
    obtain ⟨calls, rfl⟩ := computed
    exact .ttyBlock calls
  case ttyAgain => exact .ttyAgain computed.1 computed.2
  case ttyReturn => exact .ttyReturn computed.1 computed.2
  case signal =>
    subst computed
    exact .signal
  case wakeReader =>
    subst computed
    exact .wakeReader

end Znu.Kernel
