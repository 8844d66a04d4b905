import Znu.Sched.Table

/-! # What an operation does to a process

Only the scheduler makes it run, only itself makes it wait or end, and once it has ended
nothing changes it.
-/

namespace Znu.Sched

open Machine Kernel Lib Option State Function Mild

/-- The code with which an operation ends the current process. -/
def Op.exits : Op → Option CInt
  | .doExit code => some code
  | .kthreadExit code => some code
  | _ => none

/-- The operation that gives the children of the current process another parent. -/
def Op.adopts : Op → Bool
  | .doExit _ => true
  | _ => false

/-- A process that waits for input on a terminal. -/
structure Thread.Reads (x : Thread) (t : TtyId) : Prop where
  state : x.state = .waiting
  reason : x.waitReason = .tty
  channel : x.waitChannel = some t

namespace State

variable {s s' s₁ : State} {p q : Ptr} {i : Slot} {e : Op} {state : TaskState}

/-- What an operation does to the process at `p`. -/
structure Effect (s : State) (e : Op) (s' : State) (p : Ptr) : Prop where
  pid : (s'.threads p).pid = (s.threads p).pid
  isKthread : (s'.threads p).isKthread = (s.threads p).isKthread
  running : (s'.threads p).state = .running → s'.currentProcess = some p ∨
    (s.threads p).state = .running ∧ s.currentProcess ≠ some p
  zombie : (s.threads p).state = .zombie →
    (s'.threads p).state = .zombie ∧ (s'.threads p).exitCode = (s.threads p).exitCode
  ended : (s'.threads p).state = .zombie → (s.threads p).state = .zombie ∨
    s.currentProcess = some p ∧ e.exits = some (s'.threads p).exitCode
  reads : ∀ t, (s'.threads p).Reads t →
    (s.threads p).Reads t ∨ e = .ttyBlock t ∧ s.currentProcess = some p
  stops : (s'.threads p).state = (s.threads p).state ∨ (s'.threads p).state = .ready ∨
    (s'.threads p).state = .running ∨ s.currentProcess = some p ∧ p ≠ s.idleProcess
  parentPid : e.adopts = false → (s'.threads p).parentPid = (s.threads p).parentPid

variable {t t' : Thread} {regs : Option Frame} {frame : Frame}

lemma Gentle.stays (gentle : Gentle t t') (after : t'.state = state)
    (busy : state ≠ .ready) : t.state = state := by
  rcases gentle.state with same | ⟨ready, -⟩
  · exact same.symm.trans after
  · exact absurd (after.symm.trans ready) busy

lemma Gentle.zombie (gentle : Gentle t t') (ended : t.state = .zombie) : t'.state = .zombie :=
  (gentle.state.resolve_right fun woken => woken.2 ended).trans ended

lemma Gentle.reads (gentle : Gentle t t') {y : TtyId} (reads : t'.Reads y) : t.Reads y := by
  obtain ⟨reason, channel⟩ := gentle.waiting reads.state
  exact ⟨gentle.stays reads.state (by simp), reason.symm.trans reads.reason, channel.symm.trans reads.channel⟩

namespace Effect

lemma mild (mild : Mild (s.threads p) (s'.threads p))
    (current : s'.currentProcess = s.currentProcess) : Effect s e s' p where
  pid := mild.pid
  isKthread := mild.isKthread
  running runs := by
    by_cases here : s.currentProcess = some p
    · exact .inl (current.trans here)
    · exact .inr ⟨mild.stays runs (by simp), here⟩
  zombie ended := ⟨mild.zombie ended, mild.exitCode⟩
  ended after := .inl (mild.stays after (by simp))
  reads t reads := .inl (mild.reads reads)
  stops := mild.state.imp id fun woken => .inl woken.1
  parentPid _ := mild.parentPid

lemma unchanged (same : s'.threads p = s.threads p)
    (current : s'.currentProcess = s.currentProcess) : Effect s e s' p :=
  mild (same ▸ refl _) current

lemma mildly (mildly : Mildly s s') (inside : p ∈ s.allocated) : Effect s e s' p :=
  mild (mildly.threads p inside) mildly.current

end Effect

/-! ## The scheduler -/

lemma saveFpu_thread (s : State) (p : Ptr) :
    s.saveFpu.threads p = s.threads p ∨ s.currentProcess = some p ∧ p ≠ s.idleProcess ∧
      s.saveFpu.threads p = { s.threads p with sseState := s.fpu } := by
  rw [saveFpu]
  split
  · exact .inl rfl
  rename_i old isCurrent
  split
  · exact .inl rfl
  rename_i other
  by_cases here : p = old
  · subst here
    exact .inr ⟨isCurrent, other, modify_self⟩
  · exact .inl (modify_of_ne here)

lemma switchTo_threads (i : Slot) (next : Ptr) :
    (s.switchTo i next).threads = (s.saveFpu.setRunning next).threads := by
  have same : (s.switchTo i next).threads = ((s.saveFpu.switchSpace next).setRunning next).threads :=
    rfl
  rw [same, setRunning, setRunning, modify, modify, switchSpace_eq]

lemma processIsRunnable_iff : s.processIsRunnable p = true ↔
    p ≠ s.idleProcess ∧ ((s.threads p).state = .ready ∨ (s.threads p).state = .running) := by
  simp [processIsRunnable, Process.isRunnable]

lemma saveFpu_runnable (s : State) (p : Ptr) : s.saveFpu.processIsRunnable p = s.processIsRunnable p := by
  rw [processIsRunnable, processIsRunnable, (saveFpu_kept s).idle]
  rcases saveFpu_thread s p with same | ⟨-, -, saved⟩
  · rw [same]
  · rw [saved]

/-- What the choice does to a process: it runs if it is chosen, and its SSE registers may be
    saved. -/
structure Ran (s s' : State) (p : Ptr) : Prop where
  fields : s'.threads p =
    { s.threads p with state := (s'.threads p).state, sseState := (s'.threads p).sseState }
  state : (s'.threads p).state = (s.threads p).state ∨
    (s'.threads p).state = .running ∧ s'.currentProcess = some p ∧ s.processIsRunnable p = true

lemma setRunning_ran (current : s'.currentProcess = some q) (runnable : s.processIsRunnable q = true)
    (same : s'.threads = (s.setRunning q).threads) : Ran s s' p := by
  by_cases here : p = q
  · subst here
    have changed : s'.threads p = { s.threads p with state := .running } := same ▸ modify_self
    exact ⟨by rw [changed], .inr ⟨by rw [changed], current, runnable⟩⟩
  · have unchanged : s'.threads p = s.threads p := same ▸ modify_of_ne here
    exact ⟨by rw [unchanged], .inl (by rw [unchanged])⟩

lemma Outcome.ran (outcome : Outcome s regs s' frame) (p : Ptr) : Ran s s' p := by
  cases outcome with
  | nothing => exact ⟨rfl, .inl rfl⟩
  | stay old _ _ isCurrent runnable => exact setRunning_ran isCurrent runnable rfl
  | idle => exact ⟨rfl, .inl rfl⟩
  | same i next _ _ _ runnable isCurrent => exact setRunning_ran isCurrent runnable rfl
  | switch i next _ _ runnable _ =>
    have saved : s.saveFpu.threads p = { s.threads p with sseState := (s.saveFpu.threads p).sseState } := by
      rcases saveFpu_thread s p with same | ⟨-, -, saved⟩
      · rw [same]
      · rw [saved]
    have ran : Ran s.saveFpu (s.switchTo i next) p :=
      setRunning_ran rfl (saveFpu_runnable s next ▸ runnable) (switchTo_threads i next)
    refine ⟨?_, ?_⟩
    · rw [ran.fields, saved]
    · have state := ran.state
      rw [saveFpu_runnable, saved] at state
      exact state

/-- The process that was interrupted does not run when the next one is chosen. -/
lemma prepared_not_running {regs : Frame} (isCurrent : s.currentProcess = some p) :
    ((s.prepared (some regs)).threads p).state ≠ .running := by
  have still : (s.saveCurrent regs).wakeSleepingProcesses.currentProcess = some p :=
    ((Mildly.saveCurrent s regs).trans (.wakeSleepingProcesses _)).current.trans isCurrent
  simp only [prepared, demoteCurrent, still, modify_self]
  split
  · simp
  next stopped => exact stopped

/-- `scheduler`, whatever the processes had just done. -/
lemma scheduler_ran (done : s.scheduler regs = some (s', frame)) (inside : p ∈ s.allocated) :
    ∃ s₁, Mild (s.threads p) (s₁.threads p) ∧ Ran s₁ s' p ∧ s₁ = s.prepared regs :=
  ⟨_, (Mildly.prepared s regs).threads p inside, (schedule_outcome done).ran p, rfl⟩

lemma Ran.stays (ran : Ran s s' p) (after : (s'.threads p).state = state)
    (stopped : state ≠ .running) : (s.threads p).state = state := by
  rcases ran.state with same | ⟨runs, -⟩
  · exact same.symm.trans after
  · exact absurd (after.symm.trans runs) stopped

lemma Ran.zombie (ran : Ran s s' p) (ended : (s.threads p).state = .zombie) :
    (s'.threads p).state = .zombie := by
  rcases ran.state with same | ⟨-, -, runnable⟩
  · exact same.trans ended
  obtain ⟨-, ready | runs⟩ := processIsRunnable_iff.mp runnable
  · cases ready.symm.trans ended
  · cases runs.symm.trans ended

lemma Ran.reads (ran : Ran s s' p) {t : TtyId} (reads : (s'.threads p).Reads t) : (s.threads p).Reads t := by
  have reason := reads.reason
  have channel := reads.channel
  rw [ran.fields] at reason channel
  exact ⟨ran.stays reads.state (by simp), reason, channel⟩

/-- The effect of a change to one process followed by the scheduler. -/
lemma Effect.then_scheduler (first : Effect s e s₁ p)
    (done : s₁.scheduler regs = some (s', frame)) (inside : p ∈ s₁.allocated)
    (demoted : s₁.currentProcess = some p → ∃ frame, regs = some frame) : Effect s e s' p := by
  obtain ⟨s₂, mild, ran, prepared⟩ := scheduler_ran done inside
  refine ⟨?_, ?_, fun runs => ?_, fun ended => ?_, fun after => ?_, fun t reads => ?_, ?_, fun stays => ?_⟩
  · rw [ran.fields]
    exact mild.pid.trans first.pid
  · rw [ran.fields]
    exact mild.isKthread.trans first.isKthread
  · rcases ran.state with same | ⟨-, chosen, -⟩
    · rw [same] at runs
      rcases first.running (mild.stays runs (by simp)) with isCurrent | before
      · obtain ⟨regs, rfl⟩ := demoted isCurrent
        exact absurd (prepared ▸ runs) (prepared_not_running isCurrent)
      · exact .inr before
    · exact .inl chosen
  · obtain ⟨ended₁, code⟩ := first.zombie ended
    refine ⟨ran.zombie (mild.zombie ended₁), ?_⟩
    rw [ran.fields]
    exact mild.exitCode.trans code
  · have ended₁ := mild.stays (ran.stays after (by simp)) (by simp)
    have code : (s'.threads p).exitCode = (s₁.threads p).exitCode := by
      rw [ran.fields]
      exact mild.exitCode
    rw [code]
    exact first.ended ended₁
  · exact first.reads t (mild.reads (ran.reads reads))
  · rcases ran.state with same | ⟨runs, -⟩
    · rw [same]
      rcases mild.state with same' | ⟨ready, -⟩
      · rw [same']
        exact first.stops
      · exact .inr (.inl ready)
    · exact .inr (.inr (.inl runs))
  · rw [ran.fields]
    exact mild.parentPid.trans (first.parentPid stays)

/-! ## The other operations -/

lemma Effect.own {f : Thread → Thread} (isCurrent : s.currentProcess = some q)
    (notIdle : q ≠ s.idleProcess) (live : (s.threads q).state ≠ .zombie)
    (pid : (f (s.threads q)).pid = (s.threads q).pid)
    (parentPid : (f (s.threads q)).parentPid = (s.threads q).parentPid)
    (isKthread : (f (s.threads q)).isKthread = (s.threads q).isKthread)
    (ended : (f (s.threads q)).state = .zombie → e.exits = some (f (s.threads q)).exitCode)
    (reads : ∀ t, (f (s.threads q)).Reads t → (s.threads q).Reads t ∨ e = .ttyBlock t)
    (current : s'.currentProcess = s.currentProcess)
    (threads : s'.threads = (s.modify q f).threads) : Effect s e s' p := by
  by_cases here : p = q
  · subst here
    have changed : s'.threads p = f (s.threads p) := threads ▸ modify_self
    refine ⟨?_, ?_, fun _ => .inl (current.trans isCurrent), fun before => absurd before live,
      fun after => .inr ⟨isCurrent, ?_⟩, fun t after => ?_, .inr (.inr (.inr ⟨isCurrent, notIdle⟩)),
      fun _ => ?_⟩
    · rw [changed, pid]
    · rw [changed, isKthread]
    · rw [changed] at after ⊢
      exact ended after
    · rw [changed] at after
      exact (reads t after).imp id fun blocks => ⟨blocks, isCurrent⟩
    · rw [changed, parentPid]
  · exact .unchanged (threads ▸ modify_of_ne here) current

lemma addProcess_threads (s : State) (p : Ptr) : (s.addProcess p).1.threads = s.threads := by
  rw [addProcess]
  split
  · rfl
  split <;> rfl

lemma addProcess_current (s : State) (p : Ptr) : (s.addProcess p).1.currentProcess = s.currentProcess := by
  rw [addProcess]
  split
  · rfl
  split <;> rfl

/-- The clean-up of `do_exit` is gentle to every process. -/
lemma endProcess_gentle (s : State) (exiting p : Ptr) (code : CInt) :
    Gentle ((s.modify exiting fun t => { t with exitCode := code, state := .zombie }).threads p)
      ((s.endProcess exiting code).threads p) ∧ (s.endProcess exiting code).currentProcess = none ∧
      (s.endProcess exiting code).allocated = s.allocated := by
  obtain ⟨threads, same, mild⟩ := endProcess_threads s exiting code
  obtain ⟨pid, mild⟩ := mild p
  rw [same]
  exact ⟨⟨mild.pid, mild.isKthread, mild.exitCode, mild.state, mild.waiting⟩, rfl, rfl⟩

lemma endProcess_effect (isCurrent : s.currentProcess = some q) (notIdle : q ≠ s.idleProcess)
    (live : (s.threads q).state ≠ .zombie) (code : CInt) (p : Ptr) :
    Effect s (.doExit code) (s.endProcess q code) p := by
  obtain ⟨gentle, -, -⟩ := endProcess_gentle s q p code
  by_cases here : p = q
  · subst here
    rw [modify_self] at gentle
    refine ⟨gentle.pid, gentle.isKthread, fun runs => ?_, fun before => absurd before live,
      fun _ => .inr ⟨isCurrent, ?_⟩, fun t reads => ?_, .inr (.inr (.inr ⟨isCurrent, notIdle⟩)),
      fun stays => by cases stays⟩
    · cases (gentle.stays runs (by simp))
    · rw [gentle.exitCode]
      rfl
    · cases (gentle.reads reads).state
  rw [modify_of_ne here] at gentle
  have away : s.currentProcess ≠ some p := by
    rw [isCurrent]
    exact fun same => here (some.inj same).symm
  exact ⟨gentle.pid, gentle.isKthread, fun runs => .inr ⟨gentle.stays runs (by simp), away⟩,
    fun ended => ⟨gentle.zombie ended, gentle.exitCode⟩,
    fun after => .inl (gentle.stays after (by simp)), fun t reads => .inl (gentle.reads reads),
    gentle.state.imp id fun woken => .inl woken.1, fun stays => by cases stays⟩

section

variable (isCurrent : s.currentProcess = some q) (notIdle : q ≠ s.idleProcess)
   (live : (s.threads q).state ≠ .zombie)

include isCurrent notIdle live

lemma doWait_effect (pid : CInt) (status : Word) (p : Ptr) :
    Effect s (.doWait pid status) (s.doWait pid status).1 p := by
  simp only [doWait, isCurrent]
  split
  next child _ =>
    rw [reap_eq]
    refine .own (f := Thread.endWait) isCurrent notIdle live rfl rfl rfl (fun ended => absurd ended live)
      (fun t reads => ?_) rfl rfl
    cases reads.reason
  · split
    · refine .own (f := beginWait pid) isCurrent notIdle live rfl rfl rfl (fun ended => ?_)
        (fun t reads => ?_) rfl rfl
      · cases ended
      · cases reads.reason
    · exact .unchanged rfl rfl

lemma kthreadExit_effect (code : CInt) (p : Ptr) : Effect s (.kthreadExit code) (s.kthreadExit code) p := by
  have first : ∀ r, Effect s (.kthreadExit code)
      (s.modify q fun t => { t with state := .zombie, exitCode := code }) r := fun r =>
    .own isCurrent notIdle live rfl rfl rfl (fun _ => rfl) (fun t reads => by cases reads.state) rfl rfl
  simp only [kthreadExit, isCurrent]
  split
  · exact first p
  rename_i parent _
  have mild : Mild _ (((s.modify q fun t => { t with state := .zombie, exitCode := code }).modify
      parent fun t => if t.state = .waiting then { t with state := .ready } else t).threads p) :=
    modify_mild (fun t => by
      split
      next waits => exact wake (by simp [waits])
      · exact refl t) p parent
  refine ⟨mild.pid.trans (first p).pid, mild.isKthread.trans (first p).isKthread,
    fun runs => (first p).running (mild.stays runs (by simp)), fun ended => ?_, fun after => ?_,
    fun t reads => (first p).reads t (mild.reads reads), ?_,
    fun stays => mild.parentPid.trans ((first p).parentPid stays)⟩
  · obtain ⟨ended₁, same⟩ := (first p).zombie ended
    exact ⟨mild.zombie ended₁, mild.exitCode.trans same⟩
  · rw [mild.exitCode]
    exact (first p).ended (mild.stays after (by simp))
  · rcases mild.state with same | ⟨ready, -⟩
    · rw [same]
      exact (first p).stops
    · exact .inr (.inl ready)

end

end State

lemma Step.effect {s s' : State} {e : Op} (step : Step s e s') {p : Ptr} (inside : p ∈ s.allocated) :
    s.Effect e s' p := by
  cases step.stepped with
  | @addProcess q => exact .unchanged (by rw [addProcess_threads]) (addProcess_current s q)
  | @createProcessFromElf q image loaded fresh =>
    cases loaded with
    | false => exact .unchanged rfl rfl
    | true =>
      exact .unchanged (update_of_ne (ne_of_mem_of_not_mem inside fresh.1) ..) rfl
  | @startInit q isNone _ _ ready =>
    have threads : (s.startInit q).threads = update s.threads q { s.threads q with state := .running } := by
      simp only [State.startInit, State.vmmSwitch, State.setRunning, State.modify, addProcess_threads]
    by_cases here : p = q
    · subst here
      have changed : (s.startInit p).threads p = { s.threads p with state := .running } :=
        threads ▸ update_self ..
      refine ⟨by rw [changed], by rw [changed], fun _ => .inl rfl, fun ended => ?_, fun after => ?_,
        fun t reads => ?_, .inr (.inr (.inl (by rw [changed]))), fun _ => by rw [changed]⟩
      · cases ready.symm.trans ended
      · rw [changed] at after
        cases after
      · rw [changed] at reads
        cases reads.state
    have unchanged : (s.startInit q).threads p = s.threads p :=
      threads ▸ update_of_ne here ..
    refine ⟨by rw [unchanged], by rw [unchanged], fun runs => .inr ⟨unchanged ▸ runs, ?_⟩,
      fun ended => ?_, fun after => .inl (unchanged ▸ after), fun t reads => .inl (unchanged ▸ reads),
      .inl (by rw [unchanged]), fun _ => by rw [unchanged]⟩
    · rw [isNone]
      exact (some_ne_none p).symm
    · rw [unchanged]
      exact ⟨ended, rfl⟩
  | @kthreadCreate q _ _ fresh =>
    refine .unchanged ?_ (addProcess_current ..)
    rw [kthreadCreate, addProcess_threads]
    exact update_of_ne (ne_of_mem_of_not_mem inside fresh.1) ..
  | @cloneProcess q src regs copy fresh =>
    rw [cloneProcess]
    split
    · exact .unchanged rfl rfl
    cases copy with
    | none => exact .unchanged rfl rfl
    | some copy =>
      refine .unchanged ?_ (addProcess_current ..)
      simp only [addProcess_threads]
      exact update_of_ne (ne_of_mem_of_not_mem inside fresh.1) ..
  | @scheduler tick regs _ _ done =>
    have first := State.Mildly.ticked s tick
    exact (State.Effect.mildly first inside).then_scheduler done (first.allocated ▸ inside)
      fun _ => ⟨regs, rfl⟩
  | @doWait q pid status acts => exact doWait_effect acts.current acts.notIdle acts.live pid status p
  | @doExit q code _ _ acts done =>
    obtain ⟨-, none, allocated⟩ := endProcess_gentle s q p code
    refine (endProcess_effect acts.current acts.notIdle acts.live code p).then_scheduler done
      (allocated ▸ inside) fun isP => ?_
    cases none.symm.trans isP
  | kthreadSleepMs acts =>
    obtain ⟨isCurrent, notIdle, live⟩ := acts
    simp only [kthreadSleepMs, isCurrent]
    split
    · refine .own isCurrent notIdle live rfl rfl rfl (fun ended => ?_) (fun t reads => ?_) rfl rfl
      · cases ended
      · cases reads.state
    · exact .unchanged rfl rfl
  | @kthreadWake q => exact .mildly (.kthreadWake s q) inside
  | @kthreadExit q code acts => exact kthreadExit_effect acts.current acts.notIdle acts.live code p
  | @raise q signum => exact .mildly (.raise s q signum) inside
  | @ttyBlock q t acts =>
    obtain ⟨isCurrent, notIdle, live⟩ := acts
    simp only [ttyBlock, isCurrent]
    refine .own (f := beginRead t) isCurrent notIdle live rfl rfl rfl (fun ended => ?_) (fun y reads => .inr ?_) rfl rfl
    · cases ended
    · cases reads.channel
      rfl
  | @ttyInputChar t c =>
    obtain ⟨ttys, threads, same, mild⟩ := ttyInputChar_threads s t c
    rw [same]
    exact .mild (mild p) rfl
  | @exec q image acts =>
    obtain ⟨isCurrent, notIdle, live⟩ := acts
    simp only [exec, isCurrent]
    exact .own (f := populate image s.fpu) isCurrent notIdle live rfl rfl rfl (fun ended => absurd ended live)
      (fun t reads => .inl ⟨reads.state, reads.reason, reads.channel⟩) rfl rfl
  | setFs =>
    rw [setFs]
    split <;> exact .unchanged rfl rfl
  | ttyGet | ttySet | compute => exact .unchanged rfl rfl
  | @scribble q t free =>
    exact .unchanged (modify_of_ne (ne_of_mem_of_not_mem inside free)) rfl

end Znu.Sched
