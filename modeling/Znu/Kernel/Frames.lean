import Znu.Kernel.System

/-! # What the kernel's functions leave alone

The functions of `sched.c` change states, parents and contexts. What they do not
look at, such as where the kernel stack of a process is, they keep for every process.
-/

namespace Znu.Kernel

open Machine Option Function

variable {α : Type} {core : Process → α}

/-- A part of a process that scheduling, waiting, exiting and signals do not change. -/
def Process.Stable (core : Process → α) : Prop :=
  ∀ p q : Process, p.kstackTop = q.kstackTop → p.blockedWait = q.blockedWait → core p = core q

lemma Process.stable_kstackTop : Stable kstackTop := fun _ _ stack _ => stack

lemma Process.stable_blockedWait : Stable blockedWait := fun _ _ _ wait => wait

namespace System

variable (s : System)

def view (core : Process → α) (t : Task) : Option α := (s.task t).map core

/-- The running process has not exited. -/
def Live : Prop :=
  ∀ i, s.currentProcess = some (.slot i) → ∃ p, s.processes i = some p ∧ p.state ≠ .zombie

end System

/-- A change of a process that keeps `core` and does not end the process. -/
structure Process.Mild (core : Process → α) (f : Process → Process) : Prop where
  core : ∀ p, core (f p) = core p
  alive : ∀ p, p.state ≠ .zombie → (f p).state ≠ .zombie

/-- Only processes changed, and those mildly. -/
structure Keeps (core : Process → α) (s s' : System) : Prop where
  view : s'.view core = s.view core
  live : s.Live → s'.Live
  current : s'.currentProcess = s.currentProcess
  rsp0 : s'.rsp0 = s.rsp0
  mainStack : s'.mainStack = s.mainStack
  mainActive : s'.mainActive = s.mainActive
  mode : s'.mode = s.mode

namespace System

variable (s : System) {f : Process → Process}

lemma view_modifySlot (i : Slot) (keeps : ∀ p, core (f p) = core p) :
    (s.modifySlot i f).view core = s.view core := by
  funext t
  cases t with
  | idle => rfl
  | slot j =>
    by_cases same : j = i
    · subst same
      simp only [view, task, modifySlot, update_self, map_map]
      exact congrArg (Option.map · (s.processes j)) (funext keeps)
    · simp only [view, task, modifySlot, update_of_ne same]

lemma Live.modifySlot {s : System} (live : s.Live) (i : Slot)
    (alive : ∀ p, p.state ≠ .zombie → (f p).state ≠ .zombie) : (s.modifySlot i f).Live := by
  intro j current
  obtain ⟨p, there, alive'⟩ := live j current
  by_cases same : j = i
  · subst same
    exact ⟨f p, by simp only [System.modifySlot, update_self, there, map_some], alive p alive'⟩
  · exact ⟨p, by simp only [System.modifySlot, update_of_ne same, there], alive'⟩

end System

namespace Keeps

lemma refl (s : System) : Keeps core s s := ⟨rfl, id, rfl, rfl, rfl, rfl, rfl⟩

lemma trans {s s' s'' : System} (first : Keeps core s s') (second : Keeps core s' s'') :
    Keeps core s s'' where
  view := second.view.trans first.view
  live := second.live ∘ first.live
  current := second.current.trans first.current
  rsp0 := second.rsp0.trans first.rsp0
  mainStack := second.mainStack.trans first.mainStack
  mainActive := second.mainActive.trans first.mainActive
  mode := second.mode.trans first.mode

section

variable (s : System) {f : Process → Process} (mild : Process.Mild core f)

include mild

lemma modifySlot (i : Slot) : Keeps core s (s.modifySlot i f) :=
  ⟨s.view_modifySlot i mild.core, (·.modifySlot i mild.alive), rfl, rfl, rfl, rfl, rfl⟩

lemma modify (t : Task) : Keeps core s (s.modify t f) := by
  cases t with
  | idle =>
    refine ⟨funext fun t => ?_, id, rfl, rfl, rfl, rfl, rfl⟩
    cases t with
    | idle => exact congrArg some (mild.core s.idleProcess)
    | slot j => rfl
  | slot i => exact modifySlot s mild i

lemma modifyCurrent : Keeps core s (s.modifyCurrent f) := by
  unfold System.modifyCurrent
  cases s.currentProcess with
  | none => exact refl s
  | some t => exact modify s mild t

lemma modifyAll : Keeps core s (s.modifyAll f) := by
  refine ⟨funext fun t => ?_, fun live i current => ?_, rfl, rfl, rfl, rfl, rfl⟩
  · cases t with
    | idle => rfl
    | slot j =>
      simp only [System.view, System.task, System.modifyAll, map_map]
      exact congrArg (Option.map · (s.processes j)) (funext mild.core)
  · obtain ⟨p, there, alive⟩ := live i current
    exact ⟨f p, by simp only [System.modifyAll, there, map_some], mild.alive p alive⟩

end

end Keeps

/-! ## The scheduler -/

/-- What `scheduler` hands back: the interrupted context, or the saved context of
    another process, whose kernel stack is then in the TSS. -/
structure Scheduled (core : Process → α) (s : System) (regs : Option Frame) (s' : System)
    (f : Frame) : Prop where
  view : s'.view core = s.view core
  live : s.Live → s'.Live
  mainStack : s'.mainStack = s.mainStack
  mainActive : s'.mainActive = s.mainActive
  mode : s'.mode = s.mode
  outcome : (s'.currentProcess = s.currentProcess ∧ regs = some f ∧ s'.rsp0 = s.rsp0) ∨
    ∃ t p, s'.currentProcess = some t ∧ s'.task t = some p ∧ p.context = f ∧ s'.rsp0 = p.kstackTop

namespace Scheduled

lemma after {s s₁ s' : System} {regs : Option Frame} {f : Frame} (first : Keeps core s s₁)
    (scheduled : Scheduled core s₁ regs s' f) : Scheduled core s regs s' f where
  view := scheduled.view.trans first.view
  live := scheduled.live ∘ first.live
  mainStack := scheduled.mainStack.trans first.mainStack
  mainActive := scheduled.mainActive.trans first.mainActive
  mode := scheduled.mode.trans first.mode
  outcome := by
    rw [← first.current, ← first.rsp0]
    exact scheduled.outcome

lemma of_keeps {s s' : System} {f : Frame} (keeps : Keeps core s s') : Scheduled core s (some f) s' f :=
  ⟨keeps.view, keeps.live, keeps.mainStack, keeps.mainActive, keeps.mode,
    .inl ⟨keeps.current, rfl, keeps.rsp0⟩⟩

end Scheduled

namespace System

variable {i : Slot} {p parent src : Process} {s s' : System}

lemma pickNextProcess_some (picked : s.pickNextProcess = some i) :
    ∃ p, s.processes i = some p ∧ p.isRunnable = true := by
  unfold pickNextProcess at picked
  split at picked
  · cases picked
  have found := List.find?_some picked
  obtain ⟨p, there, runnable⟩ := (any_eq_true _ _).mp found
  exact ⟨p, there, (Bool.and_eq_true_iff.mp runnable).1⟩

section

variable (stable : Process.Stable core) {regs : Option Frame} {f : Frame}

include stable

lemma setState_mild (state : TaskState) (alive : state ≠ .zombie) :
    Process.Mild core fun p => { p with state := state } :=
  ⟨fun _ => stable _ _ rfl rfl, fun _ _ => alive⟩

lemma wakeAt_mild (now : Nat) : Process.Mild core (Process.wakeAt now) where
  core p := by
    unfold Process.wakeAt
    split
    · exact stable _ _ rfl rfl
    · rfl
  alive p alive := by
    unfold Process.wakeAt
    split
    · exact nofun
    · exact alive

lemma demote_mild :
    Process.Mild core fun p => if p.state = .running then { p with state := .ready } else p where
  core p := by
    split
    · exact stable _ _ rfl rfl
    · rfl
  alive p alive := by
    split
    · exact nofun
    · exact alive

lemma switchTo_scheduled {next : Process} (there : s.processes i = some next) :
    Scheduled core s regs (s.switchTo i next) next.context := by
  have now : (s.switchTo i next).processes i = some { next with state := .running } := by
    simp only [switchTo, updateKernelStack, modifySlot, update_self, there, map_some]
  refine ⟨(Keeps.modifySlot s (setState_mild stable .running nofun) i).view, fun _ j current => ?_, rfl, rfl,
    rfl, .inr ⟨.slot i, _, rfl, now, rfl, rfl⟩⟩
  cases current
  exact ⟨_, now, nofun⟩

omit stable in
lemma switchToIdle_scheduled (s : System) (regs : Option Frame) :
    Scheduled core s regs s.switchToIdle s.idleProcess.context :=
  ⟨rfl, fun _ _ => nofun, rfl, rfl, rfl, .inr ⟨.idle, s.idleProcess, rfl, rfl, rfl, rfl⟩⟩

lemma schedule_spec (ran : s.schedule regs = some (s', f)) : Scheduled core s regs s' f := by
  unfold schedule at ran
  cases picked : s.pickNextProcess with
  | none =>
    simp only [picked] at ran
    split at ran
    · cases ran
      exact .of_keeps (.refl s)
    next i _ =>
      split at ran
      · obtain ⟨regs', rfl, same⟩ := map_eq_some_iff.mp ran
        cases same
        exact .of_keeps (.modifySlot s (setState_mild stable .running nofun) i)
      · cases ran
        exact s.switchToIdle_scheduled _
    · cases ran
      exact s.switchToIdle_scheduled _
  | some i =>
    obtain ⟨next, there, -⟩ := pickNextProcess_some picked
    simp only [picked, there] at ran
    split at ran
    · obtain ⟨regs', rfl, same⟩ := map_eq_some_iff.mp ran
      cases same
      have keeps := Keeps.modifySlot s (setState_mild stable .running nofun) i
      exact .of_keeps ⟨keeps.view, keeps.live, rfl, rfl, rfl, rfl, rfl⟩
    · cases ran
      exact switchTo_scheduled stable there

lemma scheduler_spec (ran : s.scheduler regs = some (s', f)) : Scheduled core s regs s' f := by
  cases regs with
  | none => exact (schedule_spec stable ran).after (.modifyAll s (wakeAt_mild stable s.timerTicks))
  | some regs =>
    have saved : Keeps core s (s.saveCurrent regs) :=
      .modifyCurrent s ⟨fun _ => stable _ _ rfl rfl, fun _ => id⟩
    have woken : Keeps core (s.saveCurrent regs) (s.saveCurrent regs).wakeSleepingProcesses :=
      .modifyAll _ (wakeAt_mild stable _)
    have demoted := Keeps.modifyCurrent (s.saveCurrent regs).wakeSleepingProcesses (demote_mild stable)
    exact (schedule_spec stable ran).after ((saved.trans woken).trans demoted)

/-! ## Exit and wait -/

lemma adoptChildren_keeps (i : Slot) : Keeps core s (s.adoptChildren i) := by
  unfold adoptChildren
  split
  next p j init _ _ _ =>
    split
    · exact .refl s
    have adopted : Keeps core s (s.modifyAll (adoptInto p.pid init.pid)) := by
      refine .modifyAll s ⟨fun q => ?_, fun q alive => ?_⟩ <;> unfold adoptInto <;> split
      · exact stable _ _ rfl rfl
      · rfl
      · exact alive
      · exact alive
    dsimp only
    split
    · exact adopted.trans (.modifySlot _ (setState_mild stable .ready nofun) j)
    · exact adopted
  · exact .refl s

lemma wakeParent_mild : Process.Mild core wakeParent where
  core p := by
    unfold wakeParent
    split
    · exact stable _ _ rfl rfl
    · rfl
  alive p alive := by
    unfold wakeParent
    split
    · exact nofun
    · exact alive

lemma wakeReader_mild : Process.Mild core wakeReader where
  core p := by
    unfold wakeReader
    split
    · exact stable _ _ rfl rfl
    · rfl
  alive p alive := by
    unfold wakeReader
    split
    · exact nofun
    · exact alive

/-- `do_exit` up to the call of `scheduler` keeps every process in place. -/
lemma endProcess_view (i : Slot) (code : CInt) :
    (s.endProcess i code).view core = s.view core ∧
      (s.endProcess i code).mainStack = s.mainStack ∧
      (s.endProcess i code).mainActive = s.mainActive := by
  obtain ⟨s₁, isS₁⟩ : ∃ s₁, s₁ = s.modifySlot i fun p => { p with exitCode := code, state := .zombie } :=
    ⟨_, rfl⟩
  have ended : s₁.view core = s.view core := by
    rw [isS₁]
    exact s.view_modifySlot i fun _ => stable _ _ rfl rfl
  have adopted := adoptChildren_keeps stable (s := s₁) i
  have same : s₁.mainStack = s.mainStack ∧ s₁.mainActive = s.mainActive := by
    rw [isS₁]
    exact ⟨rfl, rfl⟩
  unfold endProcess
  rw [← isS₁]
  dsimp only
  split
  next j _ =>
    have woken := adopted.trans (.modifySlot _ (wakeParent_mild stable) j)
    exact ⟨woken.view.trans ended, woken.mainStack.trans same.1, woken.mainActive.trans same.2⟩
  · exact ⟨adopted.view.trans ended, adopted.mainStack.trans same.1, adopted.mainActive.trans same.2⟩

omit stable in
lemma endProcess_live (i : Slot) (code : CInt) : (s.endProcess i code).Live := fun _ => nofun

end

lemma running_eq_some :
    s.running = some p ↔ ∃ t, s.currentProcess = some t ∧ s.task t = some p := bind_eq_some_iff

/-- Only what a function does to the running process matters. -/
lemma modifyCurrent_congr {f g : Process → Process}
    (running : s.running = some p) (same : f p = g p) : s.modifyCurrent f = s.modifyCurrent g := by
  obtain ⟨t, current, there⟩ := running_eq_some.mp running
  simp only [modifyCurrent, current]
  cases t with
  | idle =>
    cases some.inj there
    simp only [modify, same]
  | slot i =>
    have there : s.processes i = some p := there
    simp only [modify, modifySlot, there, map_some, same]

/-- The three ways `do_wait` can end. -/
lemma doWait_cases {pid : CInt} {status : Word} {w : Waited}
    (running : s.running = some parent) (waited : s.doWait pid status = (s', w)) :
    (∃ i c, s.exitedChild parent pid = some i ∧ s.processes i = some c ∧
        waitsFor parent pid c = true ∧ c.state = .zombie ∧ w = .result (c.pid.setWidth 32) ∧
        s' = (removeSlot { s with statusStores := if status = 0 then s.statusStores else
          (status, c.exitCode) :: s.statusStores } i).modifyCurrent endWait) ∨
      (w = .shouldBlock ∧ s.exitedChild parent pid = none ∧
        (∃ i c, s.processes i = some c ∧ waitsFor parent pid c = true) ∧
        s' = s.modifyCurrent fun p =>
          { p with waitReason := .child, waitPid := pid, state := .waiting }) ∨
      w = .result (-1) ∧ s' = s := by
  simp only [doWait, running] at waited
  split at waited
  next i found =>
    have holds := List.find?_some found
    obtain ⟨c, there, holds⟩ := (any_eq_true _ _).mp holds
    obtain ⟨matching, zombie⟩ := Bool.and_eq_true_iff.mp holds
    cases waited
    refine .inl ⟨i, c, found, there, matching, eq_of_beq zombie, ?_, ?_⟩
    · rw [there]
      rfl
    · rw [there]
      split <;> rfl
  rename_i none
  split at waited
  next some =>
    cases waited
    obtain ⟨i, -, holds⟩ := List.any_eq_true.mp some
    obtain ⟨c, there, matching⟩ := (any_eq_true _ _).mp holds
    exact .inr (.inl ⟨rfl, none, ⟨i, c, there, matching⟩, rfl⟩)
  · cases waited
    exact .inr (.inr ⟨rfl, rfl⟩)

lemma processTableFindFreeSlot_some (found : s.processTableFindFreeSlot = some i) : s.processes i = none := by
  have free := List.find?_some found
  exact isNone_iff_eq_none.mp free

/-- `clone_process` fails, or adds the child in a free slot. -/
lemma cloneProcess_cases {regs : Frame} {kstack pid : Option Word}
    (cloned : s.cloneProcess src regs kstack = (s', pid)) :
    (pid = none ∧ (s' = s ∨ s' = { s with nextPid := s.nextPid + 1 })) ∨
      ∃ i k, kstack = some k ∧ s.processes i = none ∧ pid = some s.nextPid ∧
        s' = addProcess { s with nextPid := s.nextPid + 1 } i (cloneOf src regs s.nextPid k) := by
  unfold cloneProcess at cloned
  split at cloned
  · cases cloned
    exact .inl ⟨rfl, .inl rfl⟩
  split at cloned
  · cases cloned
    exact .inl ⟨rfl, .inl rfl⟩
  rename_i i found
  split at cloned
  · cases cloned
    exact .inl ⟨rfl, .inr rfl⟩
  next k =>
    cases cloned
    exact .inr ⟨i, k, rfl, processTableFindFreeSlot_some found, rfl, rfl⟩

end System

namespace Process

/-- What delivering a signal changes in a process. -/
def withSignals (pending : Word) (inside : Bool) (saved : Frame) (p : Process) : Process :=
  { p with pendingSignals := pending, insideSignalHandler := inside, savedUserContext := saved }

lemma deliver_cases (p : Process) (f : Frame) :
    (∃ f' pending inside saved, p.deliver f = .resume (p.withSignals pending inside saved) f' ∧
      f'.cs = f.cs) ∨ ∃ pending signum, p.deliver f =
        .fatal (p.withSignals pending p.insideSignalHandler p.savedUserContext) signum := by
  unfold deliver
  split
  · exact .inl ⟨f, p.pendingSignals, p.insideSignalHandler, p.savedUserContext, rfl, rfl⟩
  dsimp only
  split
  · exact .inl ⟨f, p.pendingSignals, p.insideSignalHandler, p.savedUserContext, rfl, rfl⟩
  split
  · split
    · exact .inr ⟨_, _, rfl⟩
    · exact .inl ⟨f, _, p.insideSignalHandler, p.savedUserContext, rfl, rfl⟩
  · exact .inl ⟨_, _, true, f, rfl, rfl⟩

lemma raise_mild (stable : Stable core) (signum : Nat) : Mild core (raise signum) where
  core p := by
    unfold raise
    split
    · rfl
    · exact stable _ _ rfl rfl
  alive p alive := by
    unfold raise
    split
    · exact alive
    dsimp only
    split
    · exact nofun
    · exact alive

end Process

end Znu.Kernel
