import Znu.Kernel.Frames

/-! # Which kernel stack a system call runs on

`syscall_entry` takes its stack from `main_cpu_context`, an interrupt from the TSS.
The scheduler only writes the TSS; `main_cpu_context` is written by the two exits
`.switch_to_new_context` and `force_context_restore`.
-/

namespace Znu.Kernel

open Machine Lib Function Option Kernel.System Process

namespace System

variable (s : System)

def stackOf : Task → Option Word := s.view kstackTop

def currentStack : Option Word := s.currentProcess.bind s.stackOf

def StacksDistinct : Prop := ∀ t t' k, s.stackOf t = some k → s.stackOf t' = some k → t = t'

/-- Entering the kernel from here, by a system call or by an interrupt, uses the
    kernel stack of the running process, and no other process has that stack. -/
structure StackReady : Prop where
  hidden : s.mainActive = false
  own : ∃ p, s.running = some p ∧ s.mainStack = p.kstackTop ∧ s.rsp0 = p.kstackTop
  others : ∀ t p, s.currentProcess ≠ some t → s.task t = some p → p.kstackTop ≠ s.mainStack

/-! ## The invariant -/

structure StackInv : Prop where
  live : s.Live
  distinct : s.StacksDistinct
  active : s.mainActive = decide (s.mode = .kernel)
  tss : s.currentStack = some s.rsp0
  main : s.mode = .user → s.currentStack = some s.mainStack

/-- What holds while the kernel runs. -/
structure InKernel : Prop where
  live : s.Live
  distinct : s.StacksDistinct
  active : s.mainActive = true
  tss : s.currentStack = some s.rsp0

variable {s}

lemma StackInv.ready (inv : s.StackInv) (user : s.mode = .user) : s.StackReady := by
  have main := inv.main user
  obtain ⟨t, current, stack⟩ := bind_eq_some_iff.mp main
  obtain ⟨p, there, isStack⟩ := map_eq_some_iff.mp stack
  have tss : s.rsp0 = s.mainStack := some.inj (inv.tss.symm.trans main)
  refine ⟨?_, ⟨p, ?_, isStack.symm, tss.trans isStack.symm⟩, fun t' q other there' same => ?_⟩
  · rw [inv.active, user]
    rfl
  · exact running_eq_some.mpr ⟨t, current, there⟩
  · have stack' : s.stackOf t' = some s.mainStack := by
      simp only [stackOf, view, there', map_some, same]
    rw [inv.distinct t' t _ stack' stack] at other
    exact other current

variable {s' : System} {f regs : Frame}

lemma currentStack_congr (view : s'.view kstackTop = s.view kstackTop)
    (current : s'.currentProcess = s.currentProcess) : s'.currentStack = s.currentStack := by
  unfold currentStack stackOf
  rw [view, current]

lemma StacksDistinct.congr (distinct : s.StacksDistinct)
    (view : s'.view kstackTop = s.view kstackTop) : s'.StacksDistinct := by
  unfold StacksDistinct stackOf
  rw [view]
  exact distinct

lemma InKernel.keeps (inKernel : s.InKernel) (keeps : Keeps kstackTop s s') : s'.InKernel where
  live := keeps.live inKernel.live
  distinct := inKernel.distinct.congr keeps.view
  active := keeps.mainActive.trans inKernel.active
  tss := by
    rw [currentStack_congr keeps.view keeps.current, keeps.rsp0]
    exact inKernel.tss

lemma onOwnStack_keeps (own : s.currentStack = some s.mainStack)
    (keeps : Keeps kstackTop s s') : s'.currentStack = some s'.mainStack := by
  rw [currentStack_congr keeps.view keeps.current, keeps.mainStack]
  exact own

/-! ## Entering and leaving the kernel -/

lemma StackInv.enterInterrupt (inv : s.StackInv) : s.enterInterrupt.InKernel := by
  unfold System.enterInterrupt
  cases mode : s.mode with refine ⟨inv.live, inv.distinct, ?_, inv.tss⟩
  | user =>
    simp only [swapgs, inv.active, mode, reduceCtorEq, decide_false, Bool.not_false]
  | kernel =>
    simp only [inv.active, mode, decide_true]

lemma StackInv.enterSyscall (inv : s.StackInv) (user : s.mode = .user) :
    s.swapgs.InKernel ∧ s.swapgs.currentStack = some s.swapgs.mainStack := by
  refine ⟨⟨inv.live, inv.distinct, ?_, inv.tss⟩, inv.main user⟩
  simp only [swapgs, inv.active, user, reduceCtorEq, decide_false, Bool.not_false]

section

variable (inKernel : s.InKernel)

include inKernel

lemma InKernel.toUser (own : s.currentStack = some s.mainStack) (f : Frame) :
    StackInv { s.swapgs.leaveWait with mode := .user, regs := f } := by
  have keeps : Keeps kstackTop s.swapgs s.swapgs.leaveWait :=
    .modifyCurrent _ ⟨fun _ => rfl, fun _ => id⟩
  have tss : s.swapgs.leaveWait.currentStack = some s.swapgs.leaveWait.rsp0 := by
    rw [currentStack_congr keeps.view keeps.current, keeps.rsp0]
    exact inKernel.tss
  have main := onOwnStack_keeps (s := s.swapgs) own keeps
  refine ⟨keeps.live inKernel.live, inKernel.distinct.congr keeps.view, ?_, tss, fun _ => main⟩
  refine keeps.mainActive.trans ?_
  rw [swapgs, inKernel.active]
  rfl

lemma InKernel.exitInterrupt (f : Frame)
    (own : ringOf f = .user → s.currentStack = some s.mainStack) :
    (s.exitInterrupt f).StackInv := by
  unfold System.exitInterrupt
  cases ring : ringOf f with
  | user => exact inKernel.toUser (own ring) f
  | kernel => exact ⟨inKernel.live, inKernel.distinct, inKernel.active, inKernel.tss, nofun⟩

lemma InKernel.storeMainStack :
    s.storeMainStack.InKernel ∧ s.storeMainStack.currentStack = some s.storeMainStack.mainStack := by
  obtain ⟨t, current, stack⟩ := bind_eq_some_iff.mp inKernel.tss
  obtain ⟨p, there, isStack⟩ := map_eq_some_iff.mp stack
  have running : s.running = some p := running_eq_some.mpr ⟨t, current, there⟩
  simp only [System.storeMainStack, running, inKernel.active, if_true]
  refine ⟨⟨inKernel.live, inKernel.distinct, rfl, inKernel.tss⟩, ?_⟩
  rw [isStack]
  exact inKernel.tss

lemma InKernel.switchToNewContext (f : Frame) : (s.switchToNewContext f).StackInv :=
  inKernel.storeMainStack.1.toUser inKernel.storeMainStack.2 (sysretRegs f)

lemma InKernel.forceContextRestore (user : ringOf f = .user) : (s.forceContextRestore f).StackInv := by
  unfold System.forceContextRestore
  rw [user]
  exact inKernel.storeMainStack.1.toUser inKernel.storeMainStack.2 f

end

/-! ## Switching between processes -/

variable {i : Slot}

variable {entry stack : Word} {p c : Process}

lemma InKernel.of_scheduled {regs : Option Frame} (live : s.Live) (distinct : s.StacksDistinct)
    (active : s.mainActive = true) (tss : regs ≠ none → s.currentStack = some s.rsp0)
    (scheduled : Scheduled kstackTop s regs s' f) : s'.InKernel where
  live := scheduled.live live
  distinct := distinct.congr scheduled.view
  active := scheduled.mainActive.trans active
  tss := by
    rcases scheduled.outcome with ⟨current, isRegs, rsp0⟩ | ⟨t, p, current, there, -, rsp0⟩
    · rw [currentStack_congr scheduled.view current, rsp0]
      exact tss (by rw [isRegs]; nofun)
    · simp only [currentStack, stackOf, view, current, bind_some, there, map_some, rsp0]

lemma InKernel.scheduler {regs : Option Frame} (inKernel : s.InKernel)
    (ran : s.scheduler regs = some (s', f)) : s'.InKernel :=
  .of_scheduled inKernel.live inKernel.distinct inKernel.active (fun _ => inKernel.tss)
    (scheduler_spec stable_kstackTop ran)

/-- The context resumed after `do_exit` is a user context. -/
def smoothExit (s : System) (code : CInt) : Bool :=
  match s.currentProcess with
  | some (.slot i) => ((s.endProcess i code).scheduler none).all fun r => ringOf r.2 = .user
  | _ => true

lemma InKernel.doExit {code : CInt} (inKernel : s.InKernel) (smooth : s.smoothExit code)
    (exited : s.doExit code = some s') : s'.StackInv := by
  unfold System.doExit at exited
  split at exited
  next i current =>
    obtain ⟨⟨s₁, f⟩, ran, rfl⟩ := map_eq_some_iff.mp exited
    obtain ⟨view, -, active⟩ := endProcess_view stable_kstackTop (s := s) i code
    have inKernel : s₁.InKernel :=
      .of_scheduled (endProcess_live i code) (inKernel.distinct.congr view)
        (active.trans inKernel.active) (fun absurd => absurd.elim rfl)
        (scheduler_spec stable_kstackTop ran)
    simp only [smoothExit, current, ran, all_some, decide_eq_true_eq] at smooth
    exact inKernel.forceContextRestore smooth
  · cases exited

/-! ## The process table -/

lemma InKernel.removeSlot (inKernel : s.InKernel)
    (there : s.processes i = some c) (zombie : c.state = .zombie) :
    (s.removeSlot i).InKernel ∧ (s.removeSlot i).currentStack = s.currentStack := by
  have other (j) (current : s.currentProcess = some (.slot j)) : j ≠ i := by
    rintro rfl
    obtain ⟨p, there', alive⟩ := inKernel.live j current
    cases there.symm.trans there'
    exact alive zombie
  have same (t) (present : (s.removeSlot i).stackOf t ≠ none) : (s.removeSlot i).stackOf t = s.stackOf t := by
    cases t with
    | idle => rfl
    | slot j =>
      by_cases isI : j = i
      · subst isI
        simp only [stackOf, view, task, System.removeSlot, update_self, map_none,
          ne_eq, not_true_eq_false] at present
      · simp only [stackOf, view, task, System.removeSlot, update_of_ne isI]
  have currentStack : (s.removeSlot i).currentStack = s.currentStack := by
    have current' : (s.removeSlot i).currentProcess = s.currentProcess := rfl
    simp only [currentStack, current']
    cases current : s.currentProcess with
    | none => rfl
    | some t =>
      cases t with
      | idle => rfl
      | slot j =>
        simp only [bind_some, stackOf, view, task, System.removeSlot, update_of_ne (other j current)]
  refine ⟨⟨fun j current => ?_, fun t t' k stack stack' => ?_, inKernel.active, ?_⟩, currentStack⟩
  · obtain ⟨p, there, alive⟩ := inKernel.live j current
    refine ⟨p, ?_, alive⟩
    simp only [System.removeSlot, update_of_ne (other j current), there]
  · rw [same t (by rw [stack]; exact some_ne_none k)] at stack
    rw [same t' (by rw [stack']; exact some_ne_none k)] at stack'
    exact inKernel.distinct t t' k stack stack'
  · rw [currentStack]
    exact inKernel.tss

lemma InKernel.addProcess (inKernel : s.InKernel)
    (free : s.processes i = none) (fresh : s.FreshStack p.kstackTop) :
    (s.addProcess i p).InKernel ∧ (s.addProcess i p).currentStack = s.currentStack := by
  have other (j) (current : s.currentProcess = some (.slot j)) : j ≠ i := by
    rintro rfl
    obtain ⟨p, there, -⟩ := inKernel.live j current
    cases free.symm.trans there
  have same (t) (isNot : t ≠ .slot i) : (s.addProcess i p).stackOf t = s.stackOf t := by
    cases t with
    | idle => rfl
    | slot j =>
      have isNot : j ≠ i := fun isI => isNot (congrArg _ isI)
      simp only [stackOf, view, task, System.addProcess, update_of_ne isNot]
  have added : (s.addProcess i p).stackOf (.slot i) = some p.kstackTop := by
    simp only [stackOf, view, task, System.addProcess, update_self, map_some]
  have old (t k) (stack : s.stackOf t = some k) : k ≠ p.kstackTop := by
    obtain ⟨q, there, rfl⟩ := map_eq_some_iff.mp stack
    cases t with
    | idle =>
      cases there
      exact fresh.idle
    | slot j => exact fresh.slot j q there
  have currentStack : (s.addProcess i p).currentStack = s.currentStack := by
    have current' : (s.addProcess i p).currentProcess = s.currentProcess := rfl
    simp only [System.currentStack, current']
    cases current : s.currentProcess with
    | none => rfl
    | some t =>
      refine same t ?_
      rintro rfl
      exact other i current rfl
  refine ⟨⟨fun j current => ?_, fun t t' k stack stack' => ?_, inKernel.active, ?_⟩, currentStack⟩
  · obtain ⟨q, there, alive⟩ := inKernel.live j current
    refine ⟨q, ?_, alive⟩
    simp only [System.addProcess, update_of_ne (other j current), there]
  · by_cases isI : t = .slot i <;> by_cases isI' : t' = .slot i
    · rw [isI, isI']
    · rw [isI, added] at stack
      rw [same t' isI'] at stack'
      exact absurd (some.inj stack).symm (old t' k stack')
    · rw [isI', added] at stack'
      rw [same t isI] at stack
      exact absurd (some.inj stack').symm (old t k stack)
    · rw [same t isI] at stack
      rw [same t' isI'] at stack'
      exact inKernel.distinct t t' k stack stack'
  · rw [currentStack]
    exact inKernel.tss

/-! ## Runs -/

/-- The process about to be resumed with `f`, and the signal that kills it. -/
def killed (s : System) (f : Frame) : Option (Process × Nat) :=
  if f.cs &&& 3 = 3 then
    s.running.bind fun p =>
      match p.deliver f with
      | .fatal p signum => some (p, signum)
      | .resume _ _ => none
  else none

/-- The interrupt goes back to user mode with the stack of the running process in
    `main_cpu_context`; if a signal kills the process, its exit is smooth. -/
def smoothResume (s : System) (f : Frame) : Bool :=
  match s.killed f with
  | some (p, signum) => (s.modifyCurrent fun _ => p).smoothExit (BitVec.ofNat 32 signum)
  | none => ringOf f = .kernel || s.currentStack = some s.mainStack

/-- The steps that keep the stacks right: an interrupt resumes no user context of a
    process other than the last one stored in `main_cpu_context`, a call that waited
    in the kernel returns only to such a process, and an exit resumes a user context. -/
def smooth (s : System) : Event → Bool
  | .interrupt tick regs => (s.rescheduled tick regs).all fun r => r.1.smoothResume r.2
  | .exit regs => s.swapgs.smoothExit (regs.rdi.setWidth 32)
  | .ttyReturn _ => s.currentStack = some s.mainStack
  | _ => true

lemma smoothResume_own (smooth : s.smoothResume f) (alive : s.killed f = none)
    (ring : ringOf f = .user) : s.currentStack = some s.mainStack := by
  simpa only [smoothResume, alive, ring, reduceCtorEq, decide_false, Bool.false_or,
    decide_eq_true_eq] using smooth

/-- The process that an interrupt switches to goes on in the kernel, or has the stack of
    `main_cpu_context`. -/
lemma smoothResume_schedule {i : Slot} {next : Process} (picked : s.pickNextProcess = some i)
    (listed : s.processes i = some next) (other : s.currentProcess ≠ some (.slot i))
    (alive : (s.switchTo i next).killed next.context = none) :
    ((s.schedule (some regs)).all fun r => r.1.smoothResume r.2) ↔
      ringOf next.context = .kernel ∨ next.kstackTop = s.mainStack := by
  have stack : (s.switchTo i next).currentStack = some next.kstackTop := by
    simp [currentStack, switchTo, updateKernelStack, stackOf, view, task, modifySlot, listed]
  have main : (s.switchTo i next).mainStack = s.mainStack := rfl
  simp [schedule, picked, listed, other, smoothResume, alive, stack, main]

lemma withSignals_keeps (running : s.running = some p) (pending : Word)
    (inside : Bool) (saved : Frame) :
    Keeps kstackTop s (s.modifyCurrent fun _ => p.withSignals pending inside saved) := by
  rw [modifyCurrent_congr (f := fun _ => p.withSignals pending inside saved)
    (g := withSignals pending inside saved) running rfl]
  exact .modifyCurrent s ⟨fun _ => rfl, fun _ => id⟩

lemma InKernel.deliverAndExit (inKernel : s.InKernel) (smooth : s.smoothResume f)
    (user : f.cs &&& 3 = 3) (exited : s.deliverAndExit f = some s') : s'.StackInv := by
  unfold System.deliverAndExit at exited
  split at exited
  next none =>
    cases exited
    have alive : s.killed f = .none := by simp only [killed, user, if_true, none, bind_none]
    exact inKernel.exitInterrupt f (smoothResume_own smooth alive)
  rename_i p running
  obtain ⟨f', pending, inside, saved, delivered, sameCs⟩ | ⟨pending, signum, delivered⟩ :=
    p.deliver_cases f
  · rw [delivered] at exited
    cases exited
    have alive : s.killed f = none := by
      simp only [killed, user, if_true, running, bind_some, delivered]
    have keeps := withSignals_keeps running pending inside saved
    refine (inKernel.keeps keeps).exitInterrupt f' fun ring => ?_
    refine onOwnStack_keeps (smoothResume_own smooth alive ?_) keeps
    rw [ringOf, ← sameCs]
    exact ring
  · rw [delivered] at exited
    simp only [smoothResume, killed, user, if_true, running, bind_some, delivered] at smooth
    exact (inKernel.keeps (withSignals_keeps running ..)).doExit smooth exited

section

variable (inv : s.StackInv)

include inv

lemma StackInv.interrupt {tick : Bool} (smooth : s.smooth (.interrupt tick regs))
    (ran : s.interrupt tick regs = some s') : s'.StackInv := by
  unfold System.interrupt at ran
  split at ran
  · cases ran
  obtain ⟨⟨s₁, f⟩, scheduled, exited⟩ := bind_eq_some_iff.mp ran
  simp only [System.smooth, scheduled, all_some] at smooth
  have inKernel : s₁.InKernel := by
    unfold rescheduled at scheduled
    split at scheduled
    · have entered := inv.enterInterrupt
      have ticked : InKernel { s.enterInterrupt with
          timerTicks := s.enterInterrupt.timerTicks + 1 } :=
        ⟨entered.live, entered.distinct, entered.active, entered.tss⟩
      exact ticked.scheduler scheduled
    · exact inv.enterInterrupt.scheduler scheduled
  dsimp only at exited
  split at exited
  next user => exact inKernel.deliverAndExit smooth user exited
  rename_i notUser
  cases exited
  have alive : s₁.killed f = none := by simp only [killed, notUser, if_false]
  exact inKernel.exitInterrupt f (smoothResume_own smooth alive)

section

variable (user : s.mode = .user)

include user

lemma StackInv.wait (waited : s.wait regs = some s') : s'.StackInv := by
  obtain ⟨inKernel, own⟩ := inv.enterSyscall user
  obtain ⟨t, current, stack⟩ := bind_eq_some_iff.mp own
  obtain ⟨parent, there, -⟩ := map_eq_some_iff.mp stack
  have running : s.swapgs.running = some parent := running_eq_some.mpr ⟨t, current, there⟩
  unfold System.wait at waited
  split at waited
  next s₁ v ran =>
    cases waited
    rcases doWait_cases running ran with ⟨i, c, -, there, -, zombie, -, rfl⟩ | ⟨absurd, -⟩ | ⟨-, rfl⟩
    · have entered : InKernel { s.swapgs with statusStores := if regs.rsi = 0 then s.swapgs.statusStores
          else (regs.rsi, c.exitCode) :: s.swapgs.statusStores } :=
        ⟨inKernel.live, inKernel.distinct, inKernel.active, inKernel.tss⟩
      obtain ⟨removed, same⟩ := entered.removeSlot there zombie
      have keeps {s : System} : Keeps kstackTop s (s.modifyCurrent endWait) :=
        .modifyCurrent s ⟨fun _ => rfl, fun _ => id⟩
      exact (removed.keeps keeps).toUser (onOwnStack_keeps (same.trans own) keeps) _
    · cases absurd
    · exact inKernel.toUser own _
  rename_i s₁ ran
  obtain ⟨⟨s₂, f⟩, scheduled, rfl⟩ := map_eq_some_iff.mp waited
  rcases doWait_cases running ran with ⟨_, _, _, _, _, _, absurd, _⟩ | ⟨-, -, -, rfl⟩ | ⟨absurd, _⟩
  · cases absurd
  · have waiting := inKernel.keeps (.modifyCurrent s.swapgs
      (f := fun p => { p with
        waitReason := .child, waitPid := regs.rdi.setWidth 32, state := .waiting })
      ⟨fun _ => rfl, fun _ _ => nofun⟩)
    have blocked := waiting.keeps (.modifyCurrent _
      (f := fun p => { p with blockedWait := some regs.rsi }) ⟨fun _ => rfl, fun _ => id⟩)
    exact (blocked.scheduler scheduled).switchToNewContext f
  · cases absurd

lemma StackInv.fork {kstack : Option Word}
    (fresh : ∀ k ∈ kstack, s.FreshStack k) (forked : s.fork regs kstack = some s') :
    s'.StackInv := by
  obtain ⟨inKernel, own⟩ := inv.enterSyscall user
  have numbered : InKernel { s.swapgs with nextPid := s.swapgs.nextPid + 1 } :=
    ⟨inKernel.live, inKernel.distinct, inKernel.active, inKernel.tss⟩
  obtain ⟨p, -, rfl⟩ := map_eq_some_iff.mp forked
  cases cloned : s.swapgs.cloneProcess p regs kstack with
  | mk s₁ pid =>
    rcases cloneProcess_cases cloned with ⟨rfl, rfl | rfl⟩ | ⟨i, k, rfl, free, rfl, rfl⟩
    · exact inKernel.toUser own _
    · exact numbered.toUser own _
    · obtain ⟨added, same⟩ := numbered.addProcess (p := cloneOf p regs s.swapgs.nextPid k) free
        ⟨(fresh k rfl).idle, (fresh k rfl).slot⟩
      exact added.toUser (same.trans own) _

lemma StackInv.spawn {kstack : Word}
    (fresh : s.FreshStack kstack) (spawned : s.spawn regs kstack entry stack = some s') :
    s'.StackInv := by
  obtain ⟨inKernel, own⟩ := inv.enterSyscall user
  have numbered : InKernel { s.swapgs with nextPid := s.nextPid + 1 } :=
    ⟨inKernel.live, inKernel.distinct, inKernel.active, inKernel.tss⟩
  obtain ⟨parent, -, rfl⟩ := map_eq_some_iff.mp spawned
  dsimp only
  split
  next i found =>
    obtain ⟨added, same⟩ := numbered.addProcess
      (p := createProcess parent.pid s.nextPid kstack entry stack)
      (processTableFindFreeSlot_some found) ⟨fresh.idle, fresh.slot⟩
    exact added.toUser (same.trans own) _
  · exact numbered.toUser own _

lemma StackInv.execve (replaced : s.execve entry stack = some s') : s'.StackInv := by
  obtain ⟨inKernel, own⟩ := inv.enterSyscall user
  obtain ⟨p, running, rfl⟩ := map_eq_some_iff.mp replaced
  obtain ⟨t, current, there⟩ := running_eq_some.mp running
  have stack : s.currentStack = some p.kstackTop := by
    simp only [currentStack, stackOf, view, current, bind_some, there, map_some]
  refine ⟨inv.live, inv.distinct, ?_, stack, fun _ => own⟩
  have active : s.swapgs.mainActive = true := inKernel.active
  simp only [jumpToUsermode, updateKernelStack, swapgs] at active ⊢
  rw [active]
  rfl

lemma StackInv.ttyBlock (regs : Frame) : (s.ttyBlock regs).StackInv := by
  have inKernel := (inv.enterSyscall user).1.keeps (.modifyCurrent s.swapgs
    (f := fun p => { p with
      waitReason := .tty, waitPid := -1, state := .waiting, pendingCall := some regs })
    ⟨fun _ => rfl, fun _ _ => nofun⟩)
  exact ⟨inKernel.live, inKernel.distinct, inKernel.active, inKernel.tss, nofun⟩

end

end

lemma StackInv.keeps (inv : s.StackInv) (keeps : Keeps kstackTop s s') : s'.StackInv where
  live := keeps.live inv.live
  distinct := inv.distinct.congr keeps.view
  active := by
    rw [keeps.mainActive, keeps.mode]
    exact inv.active
  tss := by
    rw [currentStack_congr keeps.view keeps.current, keeps.rsp0]
    exact inv.tss
  main user := onOwnStack_keeps (inv.main (keeps.mode.symm.trans user)) keeps

lemma StackInv.step {e : Event} (inv : s.StackInv) (smooth : s.smooth e) (step : Step s e s') :
    s'.StackInv := by
  cases step with
  | interrupt ran => exact inv.interrupt smooth ran
  | ordinary calls _ =>
    obtain ⟨inKernel, own⟩ := inv.enterSyscall calls.user
    exact inKernel.toUser own _
  | wait calls waited => exact inv.wait calls.user waited
  | exit calls _ exited => exact (inv.enterSyscall calls.user).1.doExit smooth exited
  | fork calls fresh forked => exact inv.fork calls.user fresh forked
  | spawn calls fresh spawned => exact inv.spawn calls.user fresh spawned
  | execve calls replaced => exact inv.execve calls.user replaced
  | sigreturn calls returned =>
    obtain ⟨inKernel, own⟩ := inv.enterSyscall calls.user
    obtain ⟨p, -, rfl⟩ := map_eq_some_iff.mp returned
    split
    · have keeps : Keeps kstackTop s.swapgs
          (s.swapgs.modifyCurrent fun p => { p with insideSignalHandler := false }) :=
        .modifyCurrent _ ⟨fun _ => rfl, fun _ => id⟩
      exact (inKernel.keeps keeps).toUser (onOwnStack_keeps own keeps) _
    · exact inKernel.toUser own _
  | ttyBlock calls => exact inv.ttyBlock calls.user _
  | ttyAgain _ waits =>
    obtain ⟨-, -, rfl⟩ := map_eq_some_iff.mp waits
    exact inv.keeps (.modifyCurrent s ⟨fun _ => rfl, fun _ _ => nofun⟩)
  | ttyReturn kernel returned =>
    obtain ⟨-, -, rfl⟩ := map_eq_some_iff.mp returned
    have active : s.mainActive = true := by
      rw [inv.active, kernel]
      rfl
    have keeps : Keeps kstackTop s (s.modifyCurrent fun p => { p with pendingCall := none }) :=
      .modifyCurrent _ ⟨fun _ => rfl, fun _ => id⟩
    exact (InKernel.keeps ⟨inv.live, inv.distinct, active, inv.tss⟩ keeps).toUser
      (onOwnStack_keeps (of_decide_eq_true smooth) keeps) _
  | signal => exact inv.keeps (.modify s (raise_mild stable_kstackTop _) _)
  | wakeReader => exact inv.keeps (.modifySlot s (wakeReader_mild stable_kstackTop) _)

section

variable (ticks : Nat) {idleStack kstack k : Word} (loop entry stack : Word)

lemma boot_stackOf_slot
    (there : (boot ticks idleStack loop kstack entry stack).stackOf (.slot i) = some k) :
    i = 0 ∧ k = kstack := by
  by_cases first : i = 0
  · subst first
    exact ⟨rfl, (some.inj there).symm⟩
  · simp only [stackOf, view, task, boot, jumpToUsermode, swapgs, update_of_ne first,
      map_none, reduceCtorEq] at there

lemma boot_stackInv (distinct : kstack ≠ idleStack) :
    (boot ticks idleStack loop kstack entry stack).StackInv where
  live i current := by
    cases current
    exact ⟨_, rfl, nofun⟩
  distinct t t' k there there' := by
    cases t with
    | idle =>
      cases t' with
      | idle => rfl
      | slot j =>
        have isStack := (boot_stackOf_slot ticks loop entry stack there').2
        exact absurd (isStack.symm.trans (some.inj there).symm) distinct
    | slot i =>
      obtain ⟨rfl, rfl⟩ := boot_stackOf_slot ticks loop entry stack there
      cases t' with
      | idle => exact absurd (some.inj there').symm distinct
      | slot j => rw [(boot_stackOf_slot ticks loop entry stack there').1]
  active := rfl
  tss := rfl
  main _ := rfl

end

/-- In every run of smooth steps, whenever a process executes in user mode, the next
    entry to the kernel is on its own kernel stack. -/
theorem kernel_stack_of_running {ticks : Nat} {idleStack loop kstack entry stack : Word}
    {events : List Event} {s : System} (distinct : kstack ≠ idleStack)
    (run : Run (fun s e s' => s.smooth e ∧ Step s e s') (boot ticks idleStack loop kstack entry stack)
      events s) (user : s.mode = .user) : s.StackReady := by
  have inv : s.StackInv :=
    run.invariant (fun _ _ _ inv step => inv.step step.1 step.2)
      (boot_stackInv ticks loop entry stack distinct)
  exact inv.ready user

/-- The first process before it has made a system call. -/
def started : System :=
  boot 0 0xFFFF800000108000 0xFFFFFFFF80001000 0xFFFF800000118000 0x401000 0x7FFFFFFFE000

/-- Registers of a system call in user mode. -/
def callFrame (rax rdi rsi : Word) : Frame :=
  { zeroFrame with rax := rax, rdi := rdi, rsi := rsi, cs := userCs }

/-- The first process forks a child and waits for it. -/
def forkAndWait : List Event :=
  [.fork (callFrame 57 0 0) (some 0xFFFF800000128000), .wait (callFrame 61 (-1) 0)]

theorem waiting_parent_gives_stack_to_child :
    ∃ s, Run (fun s e s' => s.smooth e ∧ Step s e s') started forkAndWait s ∧
      s.currentProcess = some (.slot 1) ∧ s.StackReady := by
  obtain ⟨s, computed, current, user⟩ : ∃ s, forkAndWait.foldlM
      (fun s e => if s.smooth e then s.next e else none) started = some s ∧
        s.currentProcess = some (.slot 1) ∧ s.mode = .user := by
    refine ⟨_, (some_get ?_).symm, ?_, ?_⟩ <;> decide +kernel
  have run : Run (fun s e s' => s.smooth e ∧ Step s e s') started forkAndWait s := by
    refine .of_foldlM (fun s e s' taken => ?_) computed
    obtain ⟨smooth, next⟩ := ite_none_right_eq_some.mp taken
    exact ⟨smooth, .of_next next⟩
  exact ⟨s, run, current, kernel_stack_of_running (by decide) run user⟩

/-- The first process forks a child, and the second tick of the timer switches to it. -/
def forkAndTick : List Event :=
  [.fork (callFrame 57 0 0) (some 0xFFFF800000128000), .interrupt true (callFrame 2 0 0),
    .interrupt true (callFrame 2 0 0)]

/-- The child then makes its system calls on the kernel stack of its parent. -/
theorem timer_switch_keeps_old_stack :
    ∃ s, Run Step started forkAndTick s ∧ s.mode = .user ∧
      s.running.map kstackTop = some 0xFFFF800000128000 ∧
      s.rsp0 = 0xFFFF800000128000 ∧ s.mainStack = 0xFFFF800000118000 := by
  obtain ⟨s, computed, isS⟩ : ∃ s, forkAndTick.foldlM next started = some s ∧ s.mode = .user ∧
      s.running.map kstackTop = some 0xFFFF800000128000 ∧
      s.rsp0 = 0xFFFF800000128000 ∧ s.mainStack = 0xFFFF800000118000 := by
    refine ⟨_, (some_get ?_).symm, ?_⟩ <;> decide +kernel
  exact ⟨s, .of_foldlM (fun _ _ _ => .of_next) computed, isS⟩

end System

end Znu.Kernel
