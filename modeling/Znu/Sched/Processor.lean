import Znu.Sched.Fairness
import Znu.Sched.States

/-! # The processor

Which process gets the processor, and what happens to its registers.
-/

namespace Znu.Sched

open Machine Kernel Lib Option State Function Bool

variable {s s' : State} {p q : Ptr} {i : Slot} {e : Op} {f : Thread → Thread}

namespace State

/-! ## The scheduler -/

/-- No process can run, so that the idle process gets the processor. -/
structure Idles (s : State) (regs : Option Frame) : Prop where
  listed : ∀ i p, s.processes i = some p → s.due p = false
  current : ∀ p, s.currentProcess = some p → s.processIsRunnable p = false
  called : s.currentProcess = none → regs = none

instance (s : State) (regs : Option Frame) : Decidable (s.Idles regs) :=
  decidable_of_iff ((∀ i, (s.processes i).all fun p => !s.due p) ∧
      (s.currentProcess.all fun p => !s.processIsRunnable p) ∧
      (s.currentProcess.isNone → regs.isNone)) (by
    simp only [Option.all_eq_true, Bool.not_eq_true', Option.isNone_iff_eq_none]
    exact ⟨fun ⟨listed, current, called⟩ => ⟨listed, current, called⟩,
      fun idles => ⟨idles.listed, idles.current, idles.called⟩⟩)

variable {regs : Option Frame} {frame : Frame}

lemma choice_not_idles (chosen : s.choice = some i) : ¬ s.Idles regs := by
  intro idles
  obtain ⟨p, listed, due, -⟩ := choice_top chosen
  cases due.symm.trans (idles.listed i p listed)

lemma due_of_runnable (runnable : s.processIsRunnable p = true) : s.due p = true := by
  simp only [processIsRunnable, and_eq_true] at runnable
  simp [due, runnable]

lemma prepared_unlisted (regs : Option Frame) (unlisted : ∀ i, s.processes i ≠ some p) :
    (s.prepared regs).processIsRunnable p = s.processIsRunnable p := by
  have asleep : ∀ s₁ : State, s₁.processes = s.processes →
      s₁.wakeSleepingProcesses.threads p = s₁.threads p := by
    intro s₁ same
    refine (modifyAll_threads p).resolve_right ?_
    rintro ⟨⟨i, listed⟩, -⟩
    exact unlisted i (same ▸ listed)
  rw [processIsRunnable, processIsRunnable, (Mildly.prepared s regs).idle]
  cases regs with
  | none => rw [prepared, asleep s rfl]
  | some regs =>
    rw [prepared, (demoteCurrent_thread _ p).1, asleep _ (saveCurrent_frame s regs).1]
    rcases saveCurrent_thread s regs p with unchanged | saved
    · rw [unchanged]
    · rw [saved]
      rfl

/-- While nothing in the table can run, nothing becomes runnable. -/
lemma prepared_stopped (regs : Option Frame)
    (stopped : ∀ i p, s.processes i = some p → s.due p = false) (p : Ptr) :
    (s.prepared regs).processIsRunnable p = s.processIsRunnable p := by
  by_cases listed : ∃ i, s.processes i = some p
  · obtain ⟨i, atI⟩ := listed
    rw [(prepared_runnable regs atI).1, stopped i p atI]
    refine (eq_false_of_not_eq_true fun runnable => ?_).symm
    cases (due_of_runnable runnable).symm.trans (stopped i p atI)
  · exact prepared_unlisted regs (not_exists.mp listed)

lemma stopped_of_choice (none : s.choice = none) (i : Slot) (p : Ptr)
    (listed : s.processes i = some p) : s.due p = false := by
  refine eq_false_of_not_eq_true fun due => ?_
  obtain ⟨j, chosen⟩ := choice_isSome listed due
  cases none.symm.trans chosen

def Held (s : State) : Prop := ∀ p, s.currentProcess = some p → p ∈ s.allocated

lemma initScheduler_held (s : State) (idle : Ptr) (kstack loop : Word) :
    (s.initScheduler idle kstack loop).Held := fun p isCurrent => by cases isCurrent

/-- No process has got another address space or another saved register file. -/
def Areas (s s' : State) : Prop := ∀ p ∈ s.allocated,
  (s'.threads p).pml4 = (s.threads p).pml4 ∧ (s'.threads p).sseState = (s.threads p).sseState

/-- The process `next` has got the processor. -/
structure Switched (s s' : State) (next : Ptr) : Prop where
  current : s'.currentProcess = some next
  cr3 : s'.cr3 = (s.threads next).pml4 ∨ ∃ old, s.currentProcess = some old ∧
    (s.threads old).pml4 = (s.threads next).pml4 ∧ s'.cr3 = s.cr3
  fpu : s'.fpu = (s.threads next).sseState
  spaces : ∀ p ∈ s.allocated, (s'.threads p).pml4 = (s.threads p).pml4
  saved : ∀ p, s.currentProcess = some p → p ≠ s.idleProcess → (s'.threads p).sseState = s.fpu
  others : ∀ p ∈ s.allocated, s.currentProcess ≠ some p →
    (s'.threads p).sseState = (s.threads p).sseState

/-- What a call of `scheduler` does with the processor. -/
inductive Turn (s : State) (regs : Option Frame) (s' : State) : Prop where
  | goesOn : ¬ s.Idles regs → s'.currentProcess = s.currentProcess → s'.cr3 = s.cr3 →
      s'.fpu = s.fpu → Areas s s' →
      (∀ i next, s.choice = some i → s.processes i = some next → s.currentProcess = some next) →
      Turn s regs s'
  | idles : s.Idles regs → s'.currentProcess = some s.idleProcess → s'.cr3 = s.cr3 →
      s'.fpu = s.fpu → Areas s s' → Turn s regs s'
  | switches (i next) : s.choice = some i → s.processes i = some next →
      s.currentProcess ≠ some next → Switched s s' next → Turn s regs s'

lemma switchSpace_cr3 (s : State) (next : Ptr) : (s.switchSpace next).cr3 = (s.threads next).pml4 ∨
    ∃ old, s.currentProcess = some old ∧ (s.threads old).pml4 = (s.threads next).pml4 ∧
      (s.switchSpace next).cr3 = s.cr3 := by
  rw [switchSpace]
  split
  · exact .inl rfl
  rename_i old isOld
  split
  next same => exact .inr ⟨old, isOld, same, rfl⟩
  · exact .inl rfl

lemma saveFpu_space (s : State) (p : Ptr) : (s.saveFpu.threads p).pml4 = (s.threads p).pml4 := by
  rcases saveFpu_thread s p with same | ⟨-, -, saved⟩
  · rw [same]
  · rw [saved]

lemma switchTo_switched {next : Ptr} (other : s.currentProcess ≠ some next) (i : Slot) :
    Switched s (s.switchTo i next) next := by
  have kept := saveFpu_kept s
  have fields : ∀ p, ((s.switchTo i next).threads p).pml4 = (s.saveFpu.threads p).pml4 ∧
      ((s.switchTo i next).threads p).sseState = (s.saveFpu.threads p).sseState := by
    intro p
    rw [switchTo_threads, setRunning]
    by_cases here : p = next
    · rw [here, modify_self]
      exact ⟨rfl, rfl⟩
    · rw [modify_of_ne here]
      exact ⟨rfl, rfl⟩
  have others : ∀ p, s.currentProcess ≠ some p →
      ((s.switchTo i next).threads p).sseState = (s.threads p).sseState := by
    intro p notCurrent
    rw [(fields p).2, (saveFpu_thread s p).resolve_right fun saved => notCurrent saved.1]
  refine ⟨rfl, ?_, others next other, fun p _ => (fields p).1.trans (saveFpu_space s p),
    fun p isCurrent notIdle => ?_, fun p _ => others p⟩
  · have loaded := switchSpace_cr3 s.saveFpu next
    simp only [kept.current, kept.cr3, saveFpu_space] at loaded
    exact loaded
  · rw [(fields p).2, saveFpu]
    simp only [isCurrent, if_neg notIdle, modify_self]

lemma Outcome.areas_setRunning (s : State) (p q : Ptr) :
    ((s.setRunning p).threads q).pml4 = (s.threads q).pml4 ∧
      ((s.setRunning p).threads q).sseState = (s.threads q).sseState := by
  by_cases here : q = p
  · rw [here, setRunning, modify_self]
    exact ⟨rfl, rfl⟩
  · rw [setRunning, modify_of_ne here]
    exact ⟨rfl, rfl⟩

section

variable (done : s.scheduler regs = some (s', frame))

include done

lemma scheduler_turn (inv : s.Inv) (held : s.Held) : Turn s regs s' := by
  have mildly := Mildly.prepared s regs
  have before : Areas s (s.prepared regs) := fun p inside =>
    ⟨(mildly.threads p inside).pml4, (mildly.threads p inside).sseState⟩
  have running : ∀ p, Areas s ((s.prepared regs).setRunning p) := fun p q inside =>
    ⟨(Outcome.areas_setRunning _ p q).1.trans (before q inside).1,
      (Outcome.areas_setRunning _ p q).2.trans (before q inside).2⟩
  cases schedule_outcome done with rw [prepared_pick] at picked
  | nothing frame picked isNone isRegs =>
    refine .goesOn (fun idles => ?_) mildly.current mildly.cr3 mildly.fpu before fun i next chosen => ?_
    · cases isRegs.symm.trans (idles.called (mildly.current.symm.trans isNone))
    · cases picked.symm.trans chosen
  | stay old frame picked isOld runnable =>
    refine .goesOn (fun idles => ?_) mildly.current mildly.cr3 mildly.fpu (running old)
      fun i next chosen => ?_
    · rw [prepared_stopped regs idles.listed] at runnable
      cases runnable.symm.trans (idles.current old (mildly.current.symm.trans isOld))
    · cases picked.symm.trans chosen
  | idle picked stopped called =>
    have listed := stopped_of_choice picked
    refine .idles ⟨listed, fun p isCurrent => ?_, fun isNone => called (mildly.current.trans isNone)⟩
      (congrArg some mildly.idle) mildly.cr3 mildly.fpu before
    rw [← prepared_stopped regs listed p]
    exact stopped p (mildly.current.trans isCurrent)
  | same i next frame picked listed _ isCurrent =>
    refine .goesOn (choice_not_idles picked) mildly.current mildly.cr3 mildly.fpu (running next)
      fun j other chosen atJ => ?_
    cases picked.symm.trans chosen
    cases (mildly.processes ▸ listed).symm.trans atJ
    exact mildly.current.symm.trans isCurrent
  | switch i next picked listed runnable other =>
    rw [mildly.processes] at listed
    have inside := inv.listed i next listed
    have switched := switchTo_switched other i
    rw [mildly.current] at other
    refine .switches i next picked listed other ⟨rfl, ?_, switched.fpu.trans (before next inside).2,
      fun p inside => (switched.spaces p (mildly.allocated ▸ inside)).trans (before p inside).1,
      fun p isCurrent notIdle => ?_, fun p inside notCurrent => ?_⟩
    · rcases switched.cr3 with loaded | ⟨old, isOld, same, kept⟩
      · exact .inl (loaded.trans (before next inside).1)
      rw [mildly.current] at isOld
      rw [(before old (held old isOld)).1, (before next inside).1] at same
      exact .inr ⟨old, isOld, same, kept.trans mildly.cr3⟩
    · rw [switched.saved p (mildly.current.trans isCurrent) (mildly.idle.symm ▸ notIdle), mildly.fpu]
    · rw [switched.others p (mildly.allocated ▸ inside) (mildly.current ▸ notCurrent)]
      exact (before p inside).2

/-- The scheduler never writes the base of `FS`. -/
lemma scheduler_fsBase : s'.fsBase = s.fsBase := by
  have mildly := Mildly.prepared s regs
  cases schedule_outcome done with
  | nothing | stay | idle | same => exact mildly.fsBase
  | switch i next =>
    exact ((congrArg fsBase (switchSpace_eq _ next)).trans (saveFpu_kept _).fsBase).trans mildly.fsBase

lemma scheduler_zombie (inside : p ∈ s.allocated) :
    (s'.threads p).state = .zombie ↔ (s.threads p).state = .zombie := by
  obtain ⟨s₁, gentle, ran, -⟩ := scheduler_ran done inside
  refine ⟨fun after => gentle.stays (ran.stays after ?_) ?_, fun ended => ran.zombie (gentle.zombie ended)⟩
  · simp
  · simp

end

lemma due_live (due : s.due p = true) : (s.threads p).state ≠ .zombie := by
  intro ended
  simp [State.due, Process.isRunnable, ended] at due

end State

/-! ## The operations -/

/-- The operations that change the current process or its address space. -/
def Op.switches : Op → Bool
  | .startInit _ => true
  | .scheduler _ _ => true
  | .doExit _ => true
  | .exec _ => true
  | _ => false

/-- The operations that change the SSE registers themselves. -/
def Op.computes : Op → Bool
  | .createProcessFromElf _ _ _ => true
  | .exec _ => true
  | .compute _ => true
  | _ => false

/-- The operations that write the base of `FS`. -/
def Op.writesFs : Op → Bool
  | .startInit _ => true
  | .exec _ => true
  | .setFs _ => true
  | _ => false

variable {s₁ : State}

namespace State

/-- The processor stays with the current process and its address space. -/
structure Calm (s : State) (e : Op) (s' : State) : Prop where
  current : s'.currentProcess = s.currentProcess
  cr3 : s'.cr3 = s.cr3
  fpu : e.computes = false → s'.fpu = s.fpu
  fsBase : e.writesFs = false → s'.fsBase = s.fsBase
  areas : Areas s s'

/-- The scheduler is called in the state `s₁`. -/
structure Called (s : State) (e : Op) (s₁ : State) : Prop where
  inv : s₁.Inv
  held : s₁.Held
  current : s₁.currentProcess = s.currentProcess ∨ s₁.currentProcess = none ∧ e.exits ≠ none
  processes : s₁.processes = s.processes
  allocated : s₁.allocated = s.allocated
  idle : s₁.idleProcess = s.idleProcess
  cr3 : s₁.cr3 = s.cr3
  fpu : s₁.fpu = s.fpu
  fsBase : s₁.fsBase = s.fsBase
  areas : Areas s s₁
  isKthread : ∀ p, (s₁.threads p).isKthread = (s.threads p).isKthread
  zombie : ∀ p, (s.threads p).state = .zombie → (s₁.threads p).state = .zombie

/-- What an operation does with the processor. -/
inductive Processor (s : State) (e : Op) (s' : State) : Prop where
  | calm : e.switches = false → Calm s e s' → Processor s e s'
  | starts (p : Ptr) : e = .startInit p → s.currentProcess = none → p ∈ s.allocated → p ≠ s.idleProcess →
      s'.currentProcess = some p → s'.cr3 = (s.threads p).pml4 → s'.fpu = s.fpu →
      s'.fsBase = userFsBase → Areas s s' → Processor s e s'
  | calls (s₁ : State) (regs : Option Frame) : s.schedulerCall e = some (s₁, regs) →
      Called s e s₁ → Turn s₁ regs s' → s'.fsBase = s₁.fsBase → s'.allocated = s₁.allocated →
      (∀ p ∈ s₁.allocated, (s'.threads p).state = .zombie ↔ (s₁.threads p).state = .zombie) →
      Processor s e s'
  | execs (p : Ptr) (image : Image) : e = .exec image → s.currentProcess = some p → p ≠ s.idleProcess →
      s'.currentProcess = s.currentProcess → s'.cr3 = image.pml4 → s'.fsBase = image.fsBase →
      s'.threads = Function.update s.threads p (populate image s.fpu (s.threads p)) →
      Processor s e s'

lemma schedulerCall_none (silent : e.switches = false) : s.schedulerCall e = none := by
  cases e
  case scheduler => cases silent
  case doExit => cases silent
  all_goals rfl

namespace Areas

lemma refl (s : State) : Areas s s := fun _ _ => ⟨rfl, rfl⟩

lemma modify (s : State) (p : Ptr) (same : ∀ t, (f t).pml4 = t.pml4 ∧ (f t).sseState = t.sseState) :
    Areas s (s.modify p f) := by
  intro q _
  by_cases here : q = p
  · rw [here, modify_self]
    exact same _
  · rw [modify_of_ne here]
    exact ⟨rfl, rfl⟩

lemma trans (first : Areas s s₁) (second : Areas s₁ s')
    (grows : s.allocated ⊆ s₁.allocated) : Areas s s' := fun p inside =>
  ⟨(second p (grows inside)).1.trans (first p inside).1, (second p (grows inside)).2.trans (first p inside).2⟩

lemma mildly (mildly : Mildly s s') : Areas s s' := fun p inside =>
  ⟨(mildly.threads p inside).pml4, (mildly.threads p inside).sseState⟩

lemma of_threads (same : ∀ p ∈ s.allocated, s'.threads p = s.threads p) : Areas s s' := by
  intro p inside
  rw [same p inside]
  exact ⟨rfl, rfl⟩

end Areas

lemma addProcess_registers (s : State) (p : Ptr) :
    (s.addProcess p).1.cr3 = s.cr3 ∧ (s.addProcess p).1.fpu = s.fpu ∧
      (s.addProcess p).1.fsBase = s.fsBase := by
  rcases addProcess_cases s p with same | ⟨i, -, result⟩
  · rw [same]
    exact ⟨rfl, rfl, rfl⟩
  · rw [result]
    exact ⟨rfl, rfl, rfl⟩

lemma Calm.addProcess (current : s₁.currentProcess = s.currentProcess)
    (cr3 : s₁.cr3 = s.cr3) (fpu : s₁.fpu = s.fpu) (fsBase : s₁.fsBase = s.fsBase)
    (threads : ∀ q ∈ s.allocated, s₁.threads q = s.threads q) : Calm s e (s₁.addProcess p).1 := by
  obtain ⟨cr3', fpu', fsBase'⟩ := addProcess_registers s₁ p
  refine ⟨(addProcess_current s₁ p).trans current, cr3'.trans cr3, fun _ => fpu'.trans fpu,
    fun _ => fsBase'.trans fsBase, .of_threads fun q inside => ?_⟩
  rw [addProcess_threads]
  exact threads q inside

lemma Calm.of_areas (areas : Areas s s')
    (current : s'.currentProcess = s.currentProcess := by rfl) (cr3 : s'.cr3 = s.cr3 := by rfl)
    (fpu : s'.fpu = s.fpu := by rfl) (fsBase : s'.fsBase = s.fsBase := by rfl) : Calm s e s' :=
  ⟨current, cr3, fun _ => fpu, fun _ => fsBase, areas⟩

lemma Calm.doWait (s : State) (pid : CInt) (status : Word) :
    Calm s (.doWait pid status) (s.doWait pid status).1 := by
  rw [State.doWait]
  split
  · exact .of_areas (.refl s)
  rename_i parent _
  split
  next child _ =>
    rw [reap_eq]
    exact .of_areas (.modify s parent (f := Thread.endWait) fun _ => ⟨rfl, rfl⟩)
  · split
    · exact .of_areas (.modify s parent (f := beginWait pid) fun _ => ⟨rfl, rfl⟩)
    · exact .of_areas (.refl s)

lemma Calm.ttyInputChar (s : State) (t : TtyId) (c : UInt8) : Calm s e (s.ttyInputChar t c) := by
  obtain ⟨ttys, threads, same, mild⟩ := ttyInputChar_threads s t c
  rw [same]
  exact .of_areas (fun p _ => ⟨(mild p).pml4, (mild p).sseState⟩)

lemma endProcess_kept (s : State) (exiting : Ptr) (code : CInt) :
    Areas s (s.endProcess exiting code) ∧ (s.endProcess exiting code).cr3 = s.cr3 ∧
      (s.endProcess exiting code).fpu = s.fpu ∧ (s.endProcess exiting code).fsBase = s.fsBase := by
  have ended := Areas.modify s exiting (f := fun t => { t with exitCode := code, state := .zombie })
    fun _ => ⟨rfl, rfl⟩
  obtain ⟨threads, same, mild⟩ := endProcess_threads s exiting code
  rw [same]
  refine ⟨fun p inside => ?_, rfl, rfl, rfl⟩
  obtain ⟨pid, mild⟩ := mild p
  exact ⟨mild.pml4.trans (ended p inside).1, mild.sseState.trans (ended p inside).2⟩

end State

lemma State.schedulerCall_called {regs : Option Frame} (inv : s.Inv) (held : s.Held)
    (call : s.schedulerCall e = some (s₁, regs)) : s.Called e s₁ := by
  cases e <;> simp only [schedulerCall, reduceCtorEq, some.injEq, Prod.mk.injEq,
    ite_none_right_eq_some, map_eq_some_iff] at call
  case scheduler tick regs =>
    obtain ⟨rfl, -⟩ := call
    have ticked := Mildly.ticked s tick
    refine ⟨inv.mildly ticked, fun p isCurrent => ?_, .inl ticked.current, ticked.processes,
      ticked.allocated, ticked.idle, ticked.cr3, ticked.fpu, ticked.fsBase, .mildly ticked,
      fun p => ?_, fun p ended => ?_⟩
    · rw [ticked.allocated]
      exact held p (ticked.current ▸ isCurrent)
    · cases tick <;> rfl
    · cases tick <;> exact ended
  case doExit code =>
    obtain ⟨-, p, -, rfl, -⟩ := call
    have admin := Admin.endProcess s p code
    obtain ⟨areas, cr3, fpu, fsBase⟩ := endProcess_kept s p code
    have none := (endProcess_gentle s p p code).2.1
    refine ⟨inv.endProcess p code, fun q isCurrent => ?_, .inr ⟨none, by simp [Op.exits]⟩,
      admin.processes, admin.allocated, admin.idle, cr3, fpu, fsBase, areas, fun q => ?_,
      fun q ended => ?_⟩
    · cases none.symm.trans isCurrent
    · rw [(endProcess_gentle s p q code).1.isKthread]
      by_cases here : q = p
      · rw [here, modify_self]
      · rw [modify_of_ne here]
    refine (endProcess_gentle s p q code).1.zombie ?_
    by_cases here : q = p
    · rw [here, modify_self]
    · rw [modify_of_ne here]
      exact ended

lemma Step.processor (inv : s.Inv) (held : s.Held) (step : Step s e s') : s.Processor e s' := by
  have call : ∀ s₁ regs frame, s.schedulerCall e = some (s₁, regs) →
      s₁.scheduler regs = some (s', frame) → s.Processor e s' := by
    intro s₁ regs frame isCall done
    have called := schedulerCall_called inv held isCall
    exact .calls s₁ regs isCall called (scheduler_turn done called.inv called.held)
      (scheduler_fsBase done) (State.Admin.scheduler done).allocated
      fun p inside => scheduler_zombie done inside
  cases step.stepped with
  | addProcess => exact .calm rfl (.addProcess rfl rfl rfl rfl fun _ _ => rfl)
  | @createProcessFromElf p image loaded fresh =>
    cases loaded with
    | false => exact .calm rfl (.of_areas (.refl s))
    | true =>
      refine .calm rfl ⟨rfl, rfl, fun silent => (by cases silent), fun _ => rfl,
        .of_threads fun q inside => ?_⟩
      exact update_of_ne (ne_of_mem_of_not_mem inside fresh.1) ..
  | @startInit p isNone inside notIdle =>
    obtain ⟨-, fpu, -⟩ := State.addProcess_registers s p
    have areas := State.Areas.modify s p (f := fun t => { t with state := .running }) fun _ => ⟨rfl, rfl⟩
    have threads : (s.startInit p).threads = (s.setRunning p).threads := by
      simp only [State.startInit, State.vmmSwitch, State.setRunning, State.modify, addProcess_threads]
    refine .starts p rfl isNone inside notIdle rfl ?_ fpu rfl fun q there => ?_
    · have loaded : (s.startInit p).cr3 = ((s.startInit p).threads p).pml4 := rfl
      rw [loaded, threads]
      exact (areas p inside).1
    · rw [threads]
      exact areas q there
  | @kthreadCreate p _ _ fresh =>
    refine .calm rfl (.addProcess rfl rfl rfl rfl fun q inside => ?_)
    exact update_of_ne (ne_of_mem_of_not_mem inside fresh.1) ..
  | @cloneProcess p src regs copy fresh =>
    rw [cloneProcess]
    split
    · exact .calm rfl (.of_areas (.refl s))
    cases copy with
    | none => exact .calm rfl (.of_areas (.refl s))
    | some copy =>
      refine .calm rfl (.addProcess rfl rfl rfl rfl fun q inside => ?_)
      exact update_of_ne (ne_of_mem_of_not_mem inside fresh.1) ..
  | scheduler done => exact call _ _ _ rfl done
  | @doWait q pid status => exact .calm rfl (.doWait s pid status)
  | @doExit q code _ frame acts done =>
    refine call _ _ frame ?_ done
    rw [schedulerCall, if_pos (active_iff.mpr ⟨q, acts⟩), acts.current]
    rfl
  | @kthreadSleepMs q ms acts =>
    simp only [kthreadSleepMs, acts.current]
    split
    · exact .calm rfl (.of_areas (.modify s q fun _ => ⟨rfl, rfl⟩))
    · exact .calm rfl (.of_areas (.refl s))
  | @kthreadWake p =>
    exact .calm rfl (.of_areas (.mildly (.kthreadWake s p)))
  | @kthreadExit q code acts =>
    have ended := State.Areas.modify s q (f := fun t => { t with state := .zombie, exitCode := code })
      fun _ => ⟨rfl, rfl⟩
    simp only [kthreadExit, acts.current]
    split
    · exact .calm rfl (.of_areas ended)
    next parent _ =>
      refine .calm rfl (.of_areas (ended.trans (.modify _ parent fun t => ?_) subset_rfl))
      split <;> exact ⟨rfl, rfl⟩
  | @raise p signum =>
    exact .calm rfl (.of_areas (.mildly (.raise s p signum)))
  | @ttyBlock q t acts =>
    simp only [ttyBlock, acts.current]
    exact .calm rfl (.of_areas (.modify s q (f := beginRead t) fun _ => ⟨rfl, rfl⟩))
  | ttyGet | ttySet => exact .calm rfl (.of_areas (.refl s))
  | @ttyInputChar t c => exact .calm rfl (.ttyInputChar s t c)
  | @exec q image acts =>
    simp only [exec, acts.current]
    exact .execs q image rfl acts.current acts.notIdle rfl rfl rfl rfl
  | setFs =>
    rw [setFs]
    split
    · exact .calm rfl ⟨rfl, rfl, fun _ => rfl, fun silent => (by cases silent), .refl s⟩
    · exact .calm rfl (.of_areas (.refl s))
  | compute => exact .calm rfl ⟨rfl, rfl, fun silent => (by cases silent), fun _ => rfl, .refl s⟩
  | @scribble p t free =>
    refine .calm rfl (.of_areas (.of_threads fun q inside => ?_))
    exact modify_of_ne (ne_of_mem_of_not_mem inside free)

/-- A process that is waited for is not the current one. -/
lemma State.Reaps.not_current (step : Step s e s') (reaps : s.Reaps e p) : s.currentProcess ≠ some p := by
  obtain ⟨pid, status, parent, rfl, isParent, found⟩ := reaps
  simp only [Step, next, ite_none_right_eq_some] at step
  obtain ⟨⟨q, isCurrent, -, live⟩, -⟩ := step
  intro isP
  cases isCurrent.symm.trans isP
  exact live (exitedChild_some found).2.2

lemma Step.held (inv : s.Inv) (held : s.Held) (step : Step s e s') : s'.Held := by
  have tabled := step.tabled inv
  intro p isCurrent
  have stays : s.currentProcess = some p → p ∈ s'.allocated := fun before =>
    (tabled.alive p (held p before)).resolve_right fun reaps => reaps.not_current step before
  cases step.processor inv held with
  | calm _ calm => exact stays (calm.current ▸ isCurrent)
  | starts q isStart isNone inside notIdle current =>
    cases current.symm.trans isCurrent
    refine (tabled.alive p inside).resolve_right ?_
    rintro ⟨pid, status, parent, isWait, -⟩
    cases isStart.symm.trans isWait
  | calls s₁ regs call called turn fsBase allocated =>
    rw [allocated]
    cases turn with
    | goesOn _ current => exact called.held p (current ▸ isCurrent)
    | idles _ current =>
      cases current.symm.trans isCurrent
      exact called.inv.idle
    | switches i next _ listed _ switched =>
      cases switched.current.symm.trans isCurrent
      exact called.inv.listed i p listed
  | execs q image _ _ _ current => exact stays (current ▸ isCurrent)

/-! ## Runs -/

section

variable {idle : Ptr} {kstack loop : Word} {es : List Op}

/-- What holds in every run whose steps meet a condition. -/
lemma run_invariant {C : State → Op → Prop} {P : State → Prop} (booted : s.Booted)
    (run : Run (When Step C) (s.initScheduler idle kstack loop) es s')
    (keeps : ∀ s e s', s.Inv → s.Held → P s → Step s e s' → C s e → P s')
    (start : P (s.initScheduler idle kstack loop)) : s'.Inv ∧ s'.Held ∧ P s' := by
  have all : ∀ s e s', (s.Inv ∧ s.Held ∧ P s) → When Step C s e s' → s'.Inv ∧ s'.Held ∧ P s' := by
    rintro s e s' ⟨inv, held, holds⟩ ⟨step, meets⟩
    exact ⟨step.inv inv, step.held inv held, keeps s e s' inv held holds step meets⟩
  have reached := run.invariant all
    ⟨booted.inv idle kstack loop, s.initScheduler_held idle kstack loop, start⟩
  exact reached

lemma recorded_invariant {H : Type} {record : State → Op → H → H} {C : State × H → Op → Prop}
    {P : State → H → Prop} {h h' : H} (booted : s.Booted)
    (run : Run (When (Recorded Step record) C) (s.initScheduler idle kstack loop, h) es (s', h'))
    (keeps : ∀ s h e s', s.Inv → s.Held → P s h → Step s e s' → C (s, h) e → P s' (record s e h))
    (start : P (s.initScheduler idle kstack loop) h) : s'.Inv ∧ s'.Held ∧ P s' h' := by
  have all : ∀ x e y, (x.1.Inv ∧ x.1.Held ∧ P x.1 x.2) → When (Recorded Step record) C x e y →
      y.1.Inv ∧ y.1.Held ∧ P y.1 y.2 := by
    rintro ⟨s, h⟩ e ⟨s', h'⟩ ⟨inv, held, holds⟩ ⟨⟨step, recorded⟩, meets⟩
    cases recorded
    exact ⟨step.inv inv, step.held inv held, keeps s h e s' inv held holds step meets⟩
  have reached := run.invariant all
    ⟨booted.inv idle kstack loop, s.initScheduler_held idle kstack loop, start⟩
  exact reached

end

end Znu.Sched
