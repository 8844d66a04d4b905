import Znu.Sched.State

/-! # The operations on processes

The functions of `sched.c`, `kthread.c`, `signal.c` and `tty.c` that change the table or the
state of a process, with the parts of the loader and of the system calls that do, and the
system they form. What an operation gets from elsewhere (memory, an image, a character) is
an argument.
-/

namespace Znu.Sched

open Machine Kernel Lib Option Thread Function Run

namespace State

variable (s : State)

/-- The pid of the current process, 0 without one. -/
def currentPid : Word := (s.currentProcess.map fun p => (s.threads p).pid).getD 0

/-! ## Creation -/

/-- `fninit` -/
def fninit (x : FxArea) : FxArea := ((x >>> 192) <<< 192) ||| 0x37f

/-- What `init_fpu` stores: the registers after `fninit`, with the default `MXCSR`. -/
def initFpu (x : FxArea) : FxArea :=
  (fninit x &&& ~~~((0xffffffff : FxArea) <<< 192)) ||| ((0x1f80 : FxArea) <<< 192)

/-- What `create_process_from_elf` and `execve` get from the image and from memory. -/
structure Image where
  entry : Word
  stack : Word
  kstack : Word
  pml4 : Nat
  tlsBase : Word

/-- `create_process_from_elf` of a valid image. Without `loaded` the segments could not be
    loaded, and the process is freed again. -/
def createProcessFromElf (p : Ptr) (image : Image) (loaded : Bool) : State :=
  let pid := s.nextPid
  let s := { s with
    nextPid := s.nextPid + 1
    initProcess := if pid = 1 then some p else s.initProcess }
  if loaded then
    { s.allocate p {
        System.createProcess s.currentPid pid image.kstack image.entry image.stack with
        pml4 := image.pml4
        isKthread := false
        waitChannel := none
        sseState := initFpu s.fpu
        tlsBase := image.tlsBase } with fpu := fninit s.fpu }
  else s

/-- `jump_to_usermode` loads `FS` with the selector of the user data segment, whose base is 0. -/
def userFsBase : Word := 0

/-- The end of `kmain`, for the process it has just created. -/
def startInit (p : Ptr) : State :=
  let s := (s.addProcess p).1
  let s := { s.setRunning p with currentProcess := some p, initProcess := some p }
  { s.vmmSwitch (s.threads p).pml4 with rsp0 := (s.threads p).kstackTop, fsBase := userFsBase }

/-- The process `kthread_create` makes. -/
def kthread (pid kstack trampoline : Word) (kernelPml4 : Nat) : Thread where
  toProcess := { System.createProcess 0 pid kstack 0 0 with
    context := { zeroFrame with
      es := 0x10, ds := 0x10, rip := trampoline, rsp := kstack, cs := kernelCs, ss := 0x10
      rflags := 0x202 } }
  pml4 := kernelPml4
  isKthread := true
  waitChannel := none
  sseState := 0
  tlsBase := 0

/-- If the table is full the thread is never run. -/
def kthreadCreate (p : Ptr) (kstack trampoline : Word) : State :=
  let t := kthread s.nextPid kstack trampoline s.kernelPml4
  (({ s with nextPid := s.nextPid + 1 }.allocate p t).addProcess p).1

/-- What `clone_process` gets from memory. -/
structure Copy where
  pml4 : Nat
  kstack : Word

/-- `clone_process`, which puts the new process at `p`; without a copy it runs out of memory
    and gives back what it took. -/
def cloneProcess (src p : Ptr) (regs : Frame) (copy : Option Copy) : State :=
  if (s.threads src).state = .zombie ∨ s.processTableFindFreeSlot = none then s else
  let pid := s.nextPid
  let s := { s with nextPid := s.nextPid + 1 }
  match copy with
  | none => s
  | some copy =>
    ((s.allocate p {
      System.cloneOf (s.threads src).toProcess regs pid copy.kstack with
      pml4 := copy.pml4
      isKthread := false
      waitChannel := none
      sseState := (s.threads src).sseState
      tlsBase := (s.threads src).tlsBase }).addProcess p).1

/-! ## Waiting and exit -/

/-- What `do_wait` returns, and what it stores through `status`. -/
structure Waited where
  result : CInt
  shouldBlock : Bool
  stored : Option CInt

/-- The children that a `wait` of the process at `parent` is about. -/
def waitsFor (parent : Ptr) (pid : CInt) (child : Ptr) : Bool :=
  System.waitsFor (s.threads parent).toProcess pid (s.threads child).toProcess

/-- The first exited child. -/
def exitedChild (parent : Ptr) (pid : CInt) : Option Ptr :=
  System.slots.findSome? fun i => (s.processes i).filter fun c =>
    s.waitsFor parent pid c && (s.threads c).state == .zombie

def beginWait (pid : CInt) (t : Thread) : Thread :=
  { t with waitReason := .child, waitChannel := none, waitPid := pid, state := .waiting }

def doWait (pid : CInt) (status : Word) : State × Waited :=
  match s.currentProcess with
  | none => (s, ⟨-1, false, none⟩)
  | some parent =>
    match s.exitedChild parent pid with
    | some child =>
      (((s.processRemove child).processDestroy child).modify parent Thread.endWait,
        ⟨(s.threads child).pid.setWidth 32, false,
          if status = 0 then none else some (s.threads child).exitCode⟩)
    | none =>
      if System.slots.any fun i => (s.processes i).any (s.waitsFor parent pid) then
        (s.modify parent (beginWait pid), ⟨0, true, none⟩)
      else (s, ⟨-1, false, none⟩)

def adoptChildren (exiting : Ptr) : State :=
  match s.initProcess with
  | none => s
  | some init =>
    if exiting = init then s else
    let orphan := System.slots.any fun i => (s.processes i).any fun c =>
      (s.threads c).parentPid == (s.threads exiting).pid && (s.threads c).state == .zombie
    let s := s.modifyAll
      (Thread.lift (System.adoptInto (s.threads exiting).pid (s.threads init).pid))
    if orphan ∧ (s.threads init).state = .waiting then
      s.modify init fun t => { t with state := .ready }
    else s

/-- A parent that waits for a child goes on. -/
def wakeParent (t : Thread) : Thread :=
  if t.state = .waiting ∧ t.waitReason = .child then { t.endWait with state := .ready } else t

/-- `do_exit` up to the call of `scheduler`. -/
def endProcess (exiting : Ptr) (code : CInt) : State :=
  let s := s.modify exiting fun t => { t with exitCode := code, state := .zombie }
  let s := s.adoptChildren exiting
  let s := match s.findProcessByPid (s.threads exiting).parentPid with
    | some parent => s.modify parent wakeParent
    | none => s
  { s with currentProcess := none, currentProcessIndex := none }

/-- `none` is `panic`. -/
def doExit (code : CInt) : Option State :=
  match s.currentProcess with
  | none => none
  | some exiting =>
    if exiting = s.idleProcess then none
    else ((s.endProcess exiting code).scheduler none).map Prod.fst

/-! ## Kernel threads -/

def kthreadSleepMs (ms : Nat) : State :=
  match s.currentProcess with
  | none => s
  | some p =>
    if (s.threads p).isKthread then
      s.modify p fun t =>
        { t with sleepDeadline := (s.timerTicks + ms) % 2 ^ 64, state := .sleeping }
    else s

def kthreadWake (p : Ptr) : State :=
  s.modify p fun t =>
    if t.state = .sleeping then { t with sleepDeadline := 0, state := .ready } else t

/-- The loop looks at the first `process_count` entries only. -/
def kthreadParent (pid : Word) : Option Ptr :=
  (System.slots.filter fun i => decide ((i.val : Int) < s.processCount)).findSome? fun i =>
    (s.processes i).filter fun p => (s.threads p).pid == pid

/-- `kthread_exit` up to the yield. -/
def kthreadExit (code : CInt) : State :=
  match s.currentProcess with
  | none => s
  | some p =>
    let s := s.modify p fun t => { t with state := .zombie, exitCode := code }
    match s.kthreadParent (s.threads p).parentPid with
    | none => s
    | some parent =>
      s.modify parent fun t => if t.state = .waiting then { t with state := .ready } else t

/-! ## Terminals -/

def ttyBufSize : Nat := 4096

def ttyWakeReader (t : TtyId) : State :=
  match (s.ttys t).waitingReader with
  | none => s
  | some p =>
    (s.modifyTty t fun y => { y with waitingReader := none }).modify p fun q =>
      if q.state = .waiting ∧ q.waitReason = .tty ∧ q.waitChannel = some t then
        { q.endWait with state := .ready }
      else q

def ttyBufEmpty (t : TtyId) : Prop := (s.ttys t).cookedHead = (s.ttys t).cookedTail

instance (t : TtyId) : Decidable (s.ttyBufEmpty t) := inferInstanceAs (Decidable (_ = _))

def beginRead (t : TtyId) (q : Thread) : Thread :=
  { q with waitReason := .tty, waitChannel := some t, waitPid := -1, state := .waiting }

/-- The body of the inner loop of `tty_read` up to `hlt`, while the buffer is empty. -/
def ttyBlock (t : TtyId) : State :=
  match s.currentProcess with
  | none => s
  | some p =>
    (s.modifyTty t fun y => { y with waitingReader := some p }).modify p (beginRead t)

/-- `tty_buf_get`, in the loop of `tty_read`. -/
def ttyGet (t : TtyId) : State :=
  s.modifyTty t fun y => { y with cookedTail := (y.cookedTail + 1) % ttyBufSize }

end State

open State

namespace Tty

/-- Add a character to the cooked buffer, unless it is full. -/
def put (y : Tty) (c : UInt8) : Tty :=
  let next := (y.cookedHead + 1) % ttyBufSize
  if next = y.cookedTail then y
  else { y with cookedBuf := Function.update y.cookedBuf y.cookedHead c, cookedHead := next }

/-- The loop that moves a line to the cooked buffer: it stops when the buffer is full. -/
def putLine (y : Tty) : Nat → Nat → Tty
  | 0, _ => y
  | n + 1, i =>
    if (y.cookedHead + 1) % ttyBufSize = y.cookedTail then y
    else (y.put (y.lineBuf i)).putLine n (i + 1)

def iCrnl : BitVec 32 := 0o400
def lIcanon : BitVec 32 := 0o2

/-- `c_lflag & ICANON` -/
def canonical (y : Tty) : Bool := y.cLflag &&& lIcanon != 0

/-- The character after `ICRNL`. -/
def translate (y : Tty) (c : UInt8) : UInt8 := if y.cIflag &&& iCrnl ≠ 0 ∧ c = 13 then 10 else c

end Tty

namespace State

variable (s : State)

/-- `tty_input_char`, without the echo. -/
def ttyInputChar (t : TtyId) (c : UInt8) : State :=
  let y := s.ttys t
  let c := y.translate c
  if !y.canonical then (s.modifyTty t fun y => y.put c).ttyWakeReader t
  else if c = 127 then s.modifyTty t fun y => { y with lineLen := y.lineLen - 1 }
  else if ttyBufSize - 1 ≤ y.lineLen then s.modifyTty t fun y => { y with lineLen := 0 }
  else
    let s := s.modifyTty t fun y =>
      { y with lineBuf := Function.update y.lineBuf y.lineLen c, lineLen := y.lineLen + 1 }
    if c = 10 then
      (s.modifyTty t fun y => { y.putLine y.lineLen 0 with lineLen := 0 }).ttyWakeReader t
    else s

/-! ## Execution -/

/-- What `process_populate_from_elf` writes to the process. -/
def populate (image : Image) (x : FxArea) (t : Thread) : Thread :=
  { t with
    pml4 := image.pml4
    tlsBase := image.tlsBase
    sseState := initFpu x
    context := (System.createProcess 0 0 0 image.entry image.stack).context }

/-- What `replace_process_with_elf` writes to the base of `FS` is lost if `sys_execve` jumps to the
    image. -/
def Image.fsBase (image : Image) : Word :=
  if image.entry.toNat < 0x1000 then image.tlsBase else userFsBase

/-- `sys_execve` in the current process, when the image could be loaded. -/
def exec (image : Image) : State :=
  match s.currentProcess with
  | none => s
  | some p =>
    let s := { s.modify p (populate image s.fpu) with fpu := fninit s.fpu }
    let s := (s.vmmSwitch image.pml4).updateKernelStack p
    { s with fsBase := image.fsBase }

/-- `is_user_addr(addr, 1)` -/
def isUserAddr (addr : Word) : Bool := addr.toNat < 0x800000000000

/-- `arch_prctl(ARCH_SET_FS, addr)` and `set_thread_area(addr)` -/
def setFs (addr : Word) : State := if isUserAddr addr then { s with fsBase := addr } else s

end State

/-! ## The system -/

inductive Op where
  | addProcess (p : Ptr)
  | createProcessFromElf (p : Ptr) (image : State.Image) (loaded : Bool)
  | startInit (p : Ptr)
  | kthreadCreate (p : Ptr) (kstack trampoline : Word)
  | cloneProcess (src p : Ptr) (regs : Frame) (copy : Option State.Copy)
  | scheduler (tick : Bool) (regs : Frame)
  | doWait (pid : CInt) (status : Word)
  | doExit (code : CInt)
  | kthreadSleepMs (ms : Nat)
  | kthreadWake (p : Ptr)
  | kthreadExit (code : CInt)
  | raise (p : Ptr) (signum : Nat)
  | ttyBlock (t : TtyId)
  | ttyGet (t : TtyId)
  | ttyInputChar (t : TtyId) (c : UInt8)
  | ttySet (t : TtyId) (cIflag cLflag : BitVec 32)
  | exec (image : State.Image)
  | setFs (addr : Word)
  /-- the current process computes with the SSE and x87 registers -/
  | compute (x : FxArea)
  /-- freed memory gets other contents -/
  | scribble (p : Ptr) (t : Thread)

namespace State

variable (s : State)

/-- The current process can make a call: it is not the idle process, and it has not just
    ended itself. -/
def Active : Prop :=
  ∃ p ∈ s.currentProcess, p ≠ s.idleProcess ∧ (s.threads p).state ≠ .zombie

instance : Decidable s.Active :=
  decidable_of_iff (s.currentProcess.any fun p =>
      decide (p ≠ s.idleProcess ∧ (s.threads p).state ≠ .zombie)) (by
    simp [Active, Option.any_eq_true])

/-- A new pid and memory for a process at `p`. -/
def Fresh (p : Ptr) : Prop := p ∉ s.allocated ∧ s.nextPid.toNat + 1 < 2 ^ 64

instance (p : Ptr) : Decidable (s.Fresh p) := inferInstanceAs (Decidable (_ ∧ _))

/-- `timer_ticks++` of the timer interrupt. -/
def ticked (tick : Bool) : State := if tick then { s with timerTicks := s.timerTicks + 1 } else s

/-- One operation; `none` if it cannot happen, or ends in `panic`. Pids do not wrap. -/
def next : Op → Option State
  | .addProcess p => if p ∈ s.allocated then some (s.addProcess p).1 else none
  | .createProcessFromElf p image loaded =>
    if s.Fresh p then some (s.createProcessFromElf p image loaded) else none
  | .startInit p =>
    if s.currentProcess = none ∧ p ∈ s.allocated ∧ p ≠ s.idleProcess ∧
        (s.threads p).state = .ready then
      some (s.startInit p)
    else none
  | .kthreadCreate p kstack trampoline =>
    if s.Fresh p then some (s.kthreadCreate p kstack trampoline) else none
  | .cloneProcess src p regs copy =>
    if s.Fresh p ∧ src ∈ s.allocated then some (s.cloneProcess src p regs copy) else none
  | .scheduler tick regs => ((s.ticked tick).scheduler (some regs)).map Prod.fst
  | .doWait pid status => if s.Active then some (s.doWait pid status).1 else none
  | .doExit code => if s.Active then s.doExit code else none
  | .kthreadSleepMs ms => if s.Active then some (s.kthreadSleepMs ms) else none
  | .kthreadWake p => some (s.kthreadWake p)
  | .kthreadExit code => if s.Active then some (s.kthreadExit code) else none
  | .raise p signum => some (s.modify p (Thread.lift (Process.raise signum)))
  | .ttyBlock t => if s.Active ∧ s.ttyBufEmpty t then some (s.ttyBlock t) else none
  | .ttyGet t => if s.Active ∧ ¬ s.ttyBufEmpty t then some (s.ttyGet t) else none
  | .ttyInputChar t c => some (s.ttyInputChar t c)
  | .ttySet t cIflag cLflag =>
    some (s.modifyTty t fun y => { y with cIflag := cIflag, cLflag := cLflag })
  | .exec image => if s.Active then some (s.exec image) else none
  | .setFs addr => if s.Active then some (s.setFs addr) else none
  | .compute x => if s.Active then some { s with fpu := x } else none
  | .scribble p t => if p ∈ s.allocated then none else some (s.modify p fun _ => t)

/-- `init_scheduler`, with the idle process at `idle`. -/
def initScheduler (idle : Ptr) (kstack loop : Word) : State :=
  { s with
    threads := Function.update s.threads idle
      { System.idleTask kstack loop with
        pml4 := s.kernelPml4
        isKthread := true
        waitChannel := none
        sseState := fninit s.fpu
        tlsBase := 0 }
    allocated := insert idle s.allocated
    processes := fun _ => none
    processCount := 0
    currentProcessIndex := none
    currentProcess := none
    initProcess := none
    idleProcess := idle
    rrCursor := 0
    fpu := fninit s.fpu }

/-- The processor runs on the kernel's page table and no process exists yet. -/
structure Booted : Prop where
  empty : s.allocated = ∅
  first : s.nextPid = 1
  space : s.cr3 = s.kernelPml4

end State

/-- Memory of zeros, the kernel on its own page table, terminals as `tty_init` leaves them. -/
def State.blank : State where
  threads _ := kthread 0 0 0 0
  allocated := ∅
  processes _ := none
  processCount := 0
  currentProcessIndex := none
  currentProcess := none
  initProcess := none
  idleProcess := 0
  rrCursor := 0
  nextPid := 1
  timerTicks := 0
  rsp0 := 0
  cpuContextStack := 0
  kernelPml4 := 0x1000
  cr3 := 0x1000
  fpu := 0
  fsBase := 0
  ttys _ := ⟨fun _ => 0, 0, 0, fun _ => 0, 0, Tty.iCrnl, 0o13, none⟩

lemma State.blank_booted : blank.Booted := ⟨rfl, rfl, rfl⟩

abbrev Step (s : State) (e : Op) (s' : State) : Prop := s.next e = some s'

/-- A process that can make a call. -/
structure State.Acts (s : State) (q : Ptr) : Prop where
  current : s.currentProcess = some q
  notIdle : q ≠ s.idleProcess
  live : (s.threads q).state ≠ .zombie

/-- What a step is: its guards, and the state it leads to. -/
inductive State.Stepped (s : State) : Op → State → Prop where
  | addProcess (inside : p ∈ s.allocated) : Stepped s (.addProcess p) (s.addProcess p).1
  | createProcessFromElf (fresh : s.Fresh p) : Stepped s (.createProcessFromElf p image loaded)
      (s.createProcessFromElf p image loaded)
  | startInit (isNone : s.currentProcess = none) (inside : p ∈ s.allocated)
      (notIdle : p ≠ s.idleProcess) (ready : (s.threads p).state = .ready) :
      Stepped s (.startInit p) (s.startInit p)
  | kthreadCreate (fresh : s.Fresh p) : Stepped s (.kthreadCreate p kstack trampoline)
      (s.kthreadCreate p kstack trampoline)
  | cloneProcess (fresh : s.Fresh p) (there : src ∈ s.allocated) :
      Stepped s (.cloneProcess src p regs copy) (s.cloneProcess src p regs copy)
  | scheduler (done : (s.ticked tick).scheduler (some regs) = some (s', frame)) :
      Stepped s (.scheduler tick regs) s'
  | doWait (acts : s.Acts q) : Stepped s (.doWait pid status) (s.doWait pid status).1
  | doExit (acts : s.Acts q) (done : (s.endProcess q code).scheduler none = some (s', frame)) :
      Stepped s (.doExit code) s'
  | kthreadSleepMs (acts : s.Acts q) : Stepped s (.kthreadSleepMs ms) (s.kthreadSleepMs ms)
  | kthreadWake : Stepped s (.kthreadWake p) (s.kthreadWake p)
  | kthreadExit (acts : s.Acts q) : Stepped s (.kthreadExit code) (s.kthreadExit code)
  | raise : Stepped s (.raise p signum) (s.modify p (Thread.lift (Process.raise signum)))
  | ttyBlock (acts : s.Acts q) (empty : s.ttyBufEmpty t) : Stepped s (.ttyBlock t) (s.ttyBlock t)
  | ttyGet (filled : ¬ s.ttyBufEmpty t) : Stepped s (.ttyGet t) (s.ttyGet t)
  | ttyInputChar : Stepped s (.ttyInputChar t c) (s.ttyInputChar t c)
  | ttySet : Stepped s (.ttySet t cIflag cLflag)
      (s.modifyTty t fun y => { y with cIflag := cIflag, cLflag := cLflag })
  | exec (acts : s.Acts q) : Stepped s (.exec image) (s.exec image)
  | setFs : Stepped s (.setFs addr) (s.setFs addr)
  | compute : Stepped s (.compute x) { s with fpu := x }
  | scribble (free : p ∉ s.allocated) : Stepped s (.scribble p t) (s.modify p fun _ => t)

lemma State.active_iff {s : State} : s.Active ↔ ∃ q, s.Acts q :=
  ⟨fun ⟨q, current, idle, live⟩ => ⟨q, current, idle, live⟩,
    fun ⟨q, current, idle, live⟩ => ⟨q, current, idle, live⟩⟩

lemma Step.stepped {s s' : State} {e : Op} (step : Step s e s') : s.Stepped e s' := by
  cases e with
  | doExit code =>
    simp only [Step, next, ite_none_right_eq_some, active_iff] at step
    obtain ⟨⟨q, acts⟩, step⟩ := step
    rw [doExit, acts.current] at step
    simp only [if_neg acts.notIdle, map_eq_some_iff, Prod.exists] at step
    obtain ⟨_, frame, done, rfl⟩ := step
    exact .doExit acts done
  | _ =>
    simp only [Step, next, ite_none_right_eq_some, ite_none_left_eq_some, some.injEq,
      active_iff, map_eq_some_iff, Prod.exists] at step
    grind [Stepped]

lemma run_of_check (s : State) (es : List Op) (check : State → Bool)
    (passes : (es.foldlM next s).any check = true) :
    ∃ s', Run Step s es s' ∧ check s' = true :=
  of_check next (fun _ _ _ => id) s es check passes

lemma run_recorded {H : Type} (record : State → Op → H → H) (s : State) (h : H) (es : List Op)
    (check : State × H → Bool)
    (passes : (es.foldlM (fun x e => (next x.1 e).map fun s => (s, record x.1 e x.2))
      (s, h)).any check = true) :
    ∃ x, Run (Recorded Step record) (s, h) es x ∧ check x = true := by
  refine of_check _ (fun x e y computed => ?_) (s, h) es check passes
  obtain ⟨s', step, rfl⟩ := map_eq_some_iff.mp computed
  exact ⟨step, rfl⟩

/-- A run with its history, all of whose steps meet a condition. -/
lemma run_recorded_when {H : Type} (record : State → Op → H → H) (C : State × H → Op → Prop)
    [∀ x e, Decidable (C x e)] (s : State) (h : H) (es : List Op) (check : State × H → Bool)
    (passes : (es.foldlM (fun x e => if C x e then (next x.1 e).map fun s => (s, record x.1 e x.2)
      else none) (s, h)).any check = true) :
    ∃ x, Run (When (Recorded Step record) C) (s, h) es x ∧ check x = true := by
  refine of_check_when _ (fun x e y computed => ?_) C (s, h) es check passes
  obtain ⟨s', step, rfl⟩ := map_eq_some_iff.mp computed
  exact ⟨step, rfl⟩

lemma run_when (C : State → Op → Prop) [∀ s e, Decidable (C s e)] (s : State) (es : List Op)
    (check : State → Bool)
    (passes : (es.foldlM (fun s e => if C s e then s.next e else none) s).any check = true) :
    ∃ s', Run (When Step C) s es s' ∧ check s' = true :=
  of_check_when _ (fun _ _ _ => id) C s es check passes

end Znu.Sched
