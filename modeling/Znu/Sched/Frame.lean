import Znu.Sched.Operations

/-! # What the operations leave alone

Most operations write to processes only. Of those most are mild: they make a process ready
that was not, and never touch one that has ended. The scheduler does so before it chooses.
-/

namespace Znu.Sched

open Machine Kernel Lib Option Thread List Function Bool

namespace State

variable {s s' : State} {p q : Ptr} {i : Slot} {f : Thread → Thread}

/-! ## Looking things up -/

lemma slots_complete (i : Slot) : i ∈ System.slots := mem_finRange i

lemma inTable_iff : s.inTable p = true ↔ ∃ i, s.processes i = some p := by
  simp [inTable, slots_complete]

lemma modify_self : (s.modify p f).threads p = f (s.threads p) := update_self ..

lemma modify_of_ne (other : q ≠ p) : (s.modify p f).threads q = s.threads q :=
  update_of_ne other ..

lemma modifyAll_threads (q : Ptr) : (s.modifyAll f).threads q = s.threads q ∨
    (∃ i, s.processes i = some q) ∧ (s.modifyAll f).threads q = f (s.threads q) := by
  by_cases listed : s.inTable q = true
  · exact .inr ⟨inTable_iff.mp listed, if_pos listed⟩
  · exact .inl (if_neg listed)

lemma processTableFind_some (found : s.processTableFind p = some i) : s.processes i = some p := by
  have here := find?_some found
  simpa using here

lemma processTableFind_none (missing : s.processTableFind p = none) (i : Slot) : s.processes i ≠ some p := by
  have absent := find?_eq_none.mp missing i (slots_complete i)
  simpa using absent

lemma processTableFindFreeSlot_some (found : s.processTableFindFreeSlot = some i) : s.processes i = none := by
  have free := find?_some found
  simpa using free

lemma exitedChild_some {parent child : Ptr} {pid : CInt}
    (found : s.exitedChild parent pid = some child) :
    (∃ i, s.processes i = some child) ∧ (s.threads child).parentPid = (s.threads parent).pid ∧
      (s.threads child).state = .zombie := by
  obtain ⟨i, -, here⟩ := exists_of_findSome?_eq_some found
  obtain ⟨listed, isChild⟩ := filter_eq_some_iff.mp here
  simp only [waitsFor, System.waitsFor, and_eq_true, beq_iff_eq] at isChild
  exact ⟨⟨i, listed⟩, isChild.1.1, isChild.2⟩

lemma pickNextProcess_some (picked : s.pickNextProcess = some i) :
    ∃ p, s.processes i = some p ∧ s.processIsRunnable p = true := by
  rw [pickNextProcess] at picked
  split at picked
  · cases picked
  have chosen := find?_some picked
  simp only [any_eq_true_iff_get, and_eq_true] at chosen
  obtain ⟨some, runnable, -⟩ := chosen
  exact ⟨_, (some_get some).symm, runnable⟩

/-! ## What the scheduler does -/

/-- How `scheduler` ends, in a state in which it is about to choose. -/
inductive Outcome (s : State) (regs : Option Frame) : State → Frame → Prop where
  /-- no process is current, and nothing changes -/
  | nothing (frame) : s.pickNextProcess = none → s.currentProcess = none → regs = some frame →
      Outcome s regs s frame
  /-- the current process goes on -/
  | stay (old frame) : s.pickNextProcess = none → s.currentProcess = some old →
      s.processIsRunnable old = true → regs = some frame → Outcome s regs (s.setRunning old) frame
  | idle : s.pickNextProcess = none →
      (∀ old, s.currentProcess = some old → s.processIsRunnable old = false) →
      (s.currentProcess = none → regs = none) →
      Outcome s regs s.switchToIdle (s.threads s.idleProcess).context
  /-- the current process is chosen -/
  | same (i next frame) : s.pickNextProcess = some i → s.processes i = some next →
      s.processIsRunnable next = true → s.currentProcess = some next → regs = some frame →
      Outcome s regs { s.setRunning next with
        currentProcessIndex := some i, rrCursor := (i.val + 1) % 64 } frame
  | switch (i next) : s.pickNextProcess = some i → s.processes i = some next →
      s.processIsRunnable next = true → s.currentProcess ≠ some next →
      Outcome s regs (s.switchTo i next) (s.threads next).context

lemma schedule_outcome {regs : Option Frame} {frame : Frame}
    (done : s.schedule regs = some (s', frame)) : Outcome s regs s' frame := by
  unfold schedule at done
  cases picked : s.pickNextProcess with
  | none =>
    simp only [picked] at done
    cases isCurrent : s.currentProcess with
    | none =>
      have idle : ∀ old, s.currentProcess = some old → s.processIsRunnable old = false :=
        fun old isOld => by cases isCurrent.symm.trans isOld
      simp only [isCurrent] at done
      cases regs with
      | none =>
        cases done
        exact .idle picked idle fun _ => rfl
      | some regs =>
        cases done
        exact .nothing _ picked isCurrent rfl
    | some old =>
      simp only [isCurrent] at done
      by_cases runnable : s.processIsRunnable old = true
      · rw [if_pos runnable] at done
        obtain ⟨frame, isRegs, result⟩ := map_eq_some_iff.mp done
        cases result
        exact .stay old _ picked isCurrent runnable isRegs
      rw [if_neg runnable] at done
      cases done
      refine .idle picked (fun other isOther => ?_) fun isNone => ?_
      · cases isCurrent.symm.trans isOther
        exact eq_false_of_not_eq_true runnable
      · cases isCurrent.symm.trans isNone
  | some i =>
    obtain ⟨next, listed, runnable⟩ := pickNextProcess_some picked
    simp only [picked, listed] at done
    split at done
    next isCurrent =>
      obtain ⟨frame, isRegs, result⟩ := map_eq_some_iff.mp done
      cases result
      exact .same i next _ picked listed runnable isCurrent isRegs
    next other =>
      cases done
      exact .switch i next picked listed runnable other

/-- Only `CR3` changes. -/
lemma switchSpace_eq (s : State) (next : Ptr) :
    s.switchSpace next = { s with cr3 := (s.switchSpace next).cr3 } := by
  unfold switchSpace
  split
  · rfl
  split <;> rfl

lemma reap_eq (s : State) (p : Ptr) : (s.processRemove p).processDestroy p =
    { s with
      processes := (s.processRemove p).processes
      processCount := (s.processRemove p).processCount
      currentProcessIndex := (s.processRemove p).currentProcessIndex
      allocated := if p = s.idleProcess then s.allocated else s.allocated.erase p } := by
  cases found : s.processTableFind p <;> simp only [processDestroy, processRemove, found]
  · split <;> rfl
  · split <;> rfl

/-! ## Operations that only write to processes -/

/-- Only processes have changed, each as `R` says. -/
structure Kept (R : Thread → Thread → Prop) (s s' : State) : Prop where
  processes : s'.processes = s.processes
  processCount : s'.processCount = s.processCount
  index : s'.currentProcessIndex = s.currentProcessIndex
  current : s'.currentProcess = s.currentProcess
  init : s'.initProcess = s.initProcess
  idle : s'.idleProcess = s.idleProcess
  allocated : s'.allocated = s.allocated
  nextPid : s'.nextPid = s.nextPid
  cr3 : s'.cr3 = s.cr3
  fpu : s'.fpu = s.fpu
  fsBase : s'.fsBase = s.fsBase
  ttys : s'.ttys = s.ttys
  threads : ∀ p ∈ s.allocated, R (s.threads p) (s'.threads p)

/-- The new process is the old one with another state, unless that has ended. -/
structure Gentle (t t' : Thread) : Prop where
  pid : t'.pid = t.pid
  isKthread : t'.isKthread = t.isKthread
  exitCode : t'.exitCode = t.exitCode
  state : t'.state = t.state ∨ t'.state = .ready ∧ t.state ≠ .zombie
  waiting : t'.state = .waiting → t'.waitReason = t.waitReason ∧ t'.waitChannel = t.waitChannel

/-- Besides, it has the same parent, priority and memory. -/
structure Mild (t t' : Thread) : Prop extends Gentle t t' where
  parentPid : t'.parentPid = t.parentPid
  priority : t'.priority = t.priority
  pml4 : t'.pml4 = t.pml4
  sseState : t'.sseState = t.sseState

variable {t t' t'' : Thread}

namespace Gentle

lemma refl (t : Thread) : Gentle t t := ⟨rfl, rfl, rfl, .inl rfl, fun _ => ⟨rfl, rfl⟩⟩

lemma trans (first : Gentle t t') (second : Gentle t' t'') : Gentle t t'' where
  pid := second.pid.trans first.pid
  isKthread := second.isKthread.trans first.isKthread
  exitCode := second.exitCode.trans first.exitCode
  state := by
    rcases second.state with same | ⟨ready, live⟩
    · rw [same]
      exact first.state
    · refine .inr ⟨ready, fun ended => live ?_⟩
      exact (first.state.resolve_right fun woken => woken.2 ended).trans ended
  waiting waits := by
    have before : t'.state = .waiting := by
      rcases second.state with same | ⟨ready, -⟩
      · exact same.symm.trans waits
      · cases ready.symm.trans waits
    obtain ⟨reason, channel⟩ := second.waiting waits
    obtain ⟨reason', channel'⟩ := first.waiting before
    exact ⟨reason.trans reason', channel.trans channel'⟩

end Gentle

namespace Mild

lemma refl (t : Thread) : Mild t t := ⟨Gentle.refl t, rfl, rfl, rfl, rfl⟩

lemma trans (first : Mild t t') (second : Mild t' t'') : Mild t t'' where
  toGentle := first.toGentle.trans second.toGentle
  parentPid := second.parentPid.trans first.parentPid
  priority := second.priority.trans first.priority
  pml4 := second.pml4.trans first.pml4
  sseState := second.sseState.trans first.sseState

lemma wake (live : t.state ≠ .zombie) : Mild t { t with state := .ready } :=
  ⟨⟨rfl, rfl, rfl, .inr ⟨rfl, live⟩, fun waits => by cases waits⟩, rfl, rfl, rfl, rfl⟩

lemma endWait (live : t.state ≠ .zombie) : Mild t { t.endWait with state := .ready } :=
  ⟨⟨rfl, rfl, rfl, .inr ⟨rfl, live⟩, fun waits => by cases waits⟩, rfl, rfl, rfl, rfl⟩

lemma endSleep (asleep : t.state = .sleeping) : Mild t { t with sleepDeadline := 0, state := .ready } := by
  have live : t.state ≠ .zombie := by simp [asleep]
  exact ⟨⟨rfl, rfl, rfl, .inr ⟨rfl, live⟩, fun waits => by cases waits⟩, rfl, rfl, rfl, rfl⟩

lemma saveContext (regs : Frame) (t : Thread) : Mild t { t with context := regs } :=
  ⟨⟨rfl, rfl, rfl, .inl rfl, fun _ => ⟨rfl, rfl⟩⟩, rfl, rfl, rfl, rfl⟩

lemma wakeAt (now : Nat) (t : Thread) : Mild t (t.lift (Process.wakeAt now)) := by
  simp only [lift, Process.wakeAt]
  split
  next asleep => exact endSleep asleep.1
  · exact refl t

lemma raise (signum : Nat) (t : Thread) : Mild t (t.lift (Process.raise signum)) := by
  simp only [lift, Process.raise]
  split
  · exact refl t
  refine ⟨⟨rfl, rfl, rfl, ?_, fun _ => ⟨rfl, rfl⟩⟩, rfl, rfl, rfl, rfl⟩
  split
  next stopped =>
    refine .inr ⟨rfl, fun ended => ?_⟩
    simp [ended] at stopped
  · exact .inl rfl

lemma demote (t : Thread) : Mild t (if t.state = .running then { t with state := .ready } else t) := by
  split
  next running => exact wake (by simp [running])
  · exact refl t

lemma wakeParent (t : Thread) : Mild t (State.wakeParent t) := by
  rw [State.wakeParent]
  split
  next waits => exact endWait (by simp [waits.1])
  · exact refl t

end Mild

open Mild

namespace Kept

variable {R : Thread → Thread → Prop}

lemma refl (s : State) (same : ∀ t, R t t) : Kept R s s :=
  ⟨rfl, rfl, rfl, rfl, rfl, rfl, rfl, rfl, rfl, rfl, rfl, rfl, fun _ _ => same _⟩

lemma trans {s₁ : State} (compose : ∀ {t t' t''}, R t t' → R t' t'' → R t t'')
    (first : Kept R s s₁) (second : Kept R s₁ s') : Kept R s s' where
  processes := second.processes.trans first.processes
  processCount := second.processCount.trans first.processCount
  index := second.index.trans first.index
  current := second.current.trans first.current
  init := second.init.trans first.init
  idle := second.idle.trans first.idle
  allocated := second.allocated.trans first.allocated
  nextPid := second.nextPid.trans first.nextPid
  cr3 := second.cr3.trans first.cr3
  fpu := second.fpu.trans first.fpu
  fsBase := second.fsBase.trans first.fsBase
  ttys := second.ttys.trans first.ttys
  threads p inside :=
    compose (first.threads p inside) (second.threads p (first.allocated ▸ inside))

lemma modify (same : ∀ t, R t t) (here : p ∈ s.allocated → R (s.threads p) (f (s.threads p))) :
    Kept R s (s.modify p f) := by
  refine ⟨rfl, rfl, rfl, rfl, rfl, rfl, rfl, rfl, rfl, rfl, rfl, rfl, fun q inside => ?_⟩
  by_cases isP : q = p
  · subst isP
    rw [modify_self]
    exact here inside
  · rw [modify_of_ne isP]
    exact same _

lemma modifyAll (same : ∀ t, R t t) (each : ∀ t, R t (f t)) : Kept R s (s.modifyAll f) := by
  refine ⟨rfl, rfl, rfl, rfl, rfl, rfl, rfl, rfl, rfl, rfl, rfl, rfl, fun q _ => ?_⟩
  rcases modifyAll_threads (s := s) (f := f) q with unchanged | ⟨-, changed⟩
  · rw [unchanged]
    exact same _
  · rw [changed]
    exact each _

end Kept

/-- Saving the SSE registers. -/
lemma saveFpu_kept (s : State) : Kept (fun t t' => t' = { t with sseState := t'.sseState }) s s.saveFpu := by
  rw [saveFpu]
  split
  · exact Kept.refl s fun _ => rfl
  split
  · exact Kept.refl s fun _ => rfl
  · exact Kept.modify (fun _ => rfl) fun _ => rfl

lemma switchTo_processes (i : Slot) (next : Ptr) : (s.switchTo i next).processes = s.processes :=
  (congrArg State.processes (switchSpace_eq _ next)).trans (saveFpu_kept s).processes

abbrev Mildly (s s' : State) : Prop := Kept Mild s s'

namespace Mildly

lemma refl (s : State) : Mildly s s := Kept.refl s Mild.refl

lemma trans {s₁ : State} (first : Mildly s s₁) (second : Mildly s₁ s') : Mildly s s' :=
  Kept.trans Mild.trans first second

variable (s)

lemma modify (p : Ptr) (here : ∀ t, Mild t (f t)) : Mildly s (s.modify p f) :=
  Kept.modify Mild.refl fun _ => here _

lemma wakeSleepingProcesses : Mildly s s.wakeSleepingProcesses :=
  Kept.modifyAll Mild.refl (Mild.wakeAt _)

lemma saveCurrent (regs : Frame) : Mildly s (s.saveCurrent regs) := by
  rw [State.saveCurrent]
  split
  · exact refl s
  next p _ =>
    exact modify s p (saveContext regs)

lemma demoteCurrent : Mildly s s.demoteCurrent := by
  rw [State.demoteCurrent]
  split
  · exact refl s
  next p _ => exact modify s p demote

/-- All that `scheduler` does before it chooses is mild. -/
lemma prepared (regs : Option Frame) : Mildly s (s.prepared regs) := by
  cases regs with
  | none => exact wakeSleepingProcesses s
  | some regs =>
    exact ((saveCurrent s regs).trans (wakeSleepingProcesses _)).trans (demoteCurrent _)

lemma ticked (tick : Bool) : Mildly s (s.ticked tick) := by
  cases tick with
  | false => exact refl s
  | true =>
    exact ⟨rfl, rfl, rfl, rfl, rfl, rfl, rfl, rfl, rfl, rfl, rfl, rfl, fun _ _ => Mild.refl _⟩

lemma kthreadWake (p : Ptr) : Mildly s (s.kthreadWake p) := by
  refine modify s p fun t => ?_
  split
  next asleep => exact endSleep asleep
  · exact Mild.refl t

lemma raise (p : Ptr) (signum : Nat) : Mildly s (s.modify p (lift (Process.raise signum))) :=
  modify s p (Mild.raise signum)

end Mildly

lemma modify_mild (mild : ∀ t, Mild t (f t)) (p q : Ptr) : Mild (s.threads p) ((s.modify q f).threads p) := by
  by_cases here : p = q
  · rw [here, modify_self]
    exact mild _
  · rw [modify_of_ne here]
    exact refl _

variable (s)

/-- Only threads change: some have another parent, and one may be woken. -/
lemma adoptChildren_threads (exiting : Ptr) :
    ∃ threads, s.adoptChildren exiting = { s with threads := threads } ∧
      ∀ p, ∃ pid, Mild { s.threads p with parentPid := pid } (threads p) := by
  rw [adoptChildren]
  split
  · exact ⟨s.threads, rfl, fun p => ⟨_, .refl _⟩⟩
  rename_i init _
  split
  · exact ⟨s.threads, rfl, fun p => ⟨_, .refl _⟩⟩
  have adopted : ∀ p, ∃ pid, (s.modifyAll (lift (System.adoptInto (s.threads exiting).pid
      (s.threads init).pid))).threads p = { s.threads p with parentPid := pid } := by
    intro p
    rcases modifyAll_threads (s := s) p with same | ⟨-, changed⟩
    · exact ⟨_, same⟩
    rw [changed]
    simp only [lift, System.adoptInto]
    split
    · exact ⟨_, rfl⟩
    · exact ⟨_, rfl⟩
  simp only
  split
  next waits =>
    refine ⟨_, rfl, fun p => ?_⟩
    obtain ⟨pid, same⟩ := adopted p
    refine ⟨pid, same ▸ ?_⟩
    by_cases here : p = init
    · subst here
      rw [update_self]
      exact wake (by simp [waits.2])
    · rw [update_of_ne here]
      exact refl _
  · refine ⟨_, rfl, fun p => ?_⟩
    obtain ⟨pid, same⟩ := adopted p
    exact ⟨pid, same ▸ .refl _⟩

lemma endProcess_threads (exiting : Ptr) (code : CInt) :
    ∃ threads, s.endProcess exiting code =
        { s with threads := threads, currentProcess := none, currentProcessIndex := none } ∧
      ∀ p, ∃ pid, Mild { (s.modify exiting fun t => { t with exitCode := code, state := .zombie }).threads p
        with parentPid := pid } (threads p) := by
  obtain ⟨threads, adopted, mild⟩ := adoptChildren_threads
    (s.modify exiting fun t => { t with exitCode := code, state := .zombie }) exiting
  simp only [endProcess, adopted]
  split
  next parent _ =>
    refine ⟨_, rfl, fun p => ?_⟩
    obtain ⟨pid, mild⟩ := mild p
    exact ⟨pid, mild.trans (modify_mild (s := { s with threads := threads }) Mild.wakeParent p parent)⟩
  · exact ⟨threads, rfl, mild⟩

lemma ttyWakeReader_threads (t : TtyId) :
    ∃ ttys threads, s.ttyWakeReader t = { s with ttys := ttys, threads := threads } ∧
      ∀ p, Mild (s.threads p) (threads p) := by
  rw [ttyWakeReader]
  split
  · exact ⟨s.ttys, s.threads, rfl, fun p => .refl _⟩
  rename_i q _
  have woken : ∀ x : Thread, Mild x (if x.state = .waiting ∧ x.waitReason = .tty ∧
      x.waitChannel = some t then { x.endWait with state := .ready } else x) := by
    intro x
    split
    next waits => exact .endWait (by simp [waits.1])
    · exact .refl x
  exact ⟨_, _, rfl, fun p => modify_mild (s := s) woken p q⟩

/-- A character changes a terminal, and may wake its reader. -/
lemma ttyInputChar_threads (t : TtyId) (c : UInt8) :
    ∃ ttys threads, s.ttyInputChar t c = { s with ttys := ttys, threads := threads } ∧
      ∀ p, Mild (s.threads p) (threads p) := by
  simp only [ttyInputChar]
  split
  · exact ttyWakeReader_threads (s.modifyTty t _) t
  split
  · exact ⟨_, s.threads, rfl, fun p => .refl _⟩
  split
  · exact ⟨_, s.threads, rfl, fun p => .refl _⟩
  split
  · exact ttyWakeReader_threads ((s.modifyTty t _).modifyTty t _) t
  · exact ⟨_, s.threads, rfl, fun p => .refl _⟩

end State

end Znu.Sched
