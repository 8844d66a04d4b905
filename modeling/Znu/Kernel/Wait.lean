import Znu.Kernel.Stacks

/-! # What `wait` returns

A `wait` that finds an exited child removes it and returns its pid. One that blocks
is resumed with the registers saved when it was called, and `do_wait` is not run again.
-/

namespace Znu.Kernel

open Machine Lib Function Option List Process BitVec

/-- The step resumes in user mode a process `p` that had called `wait` with this
    status pointer: at once, or after the call had blocked. -/
inductive WaitReturns (s : System) : Event → System → Process → Word → Prop where
  | direct : s'.mode = .user → s.currentProcess = some t → s'.currentProcess = some t →
      s.task t = some p → WaitReturns s (.wait regs) s' p regs.rsi
  | resumed : s'.mode = .user → s'.currentProcess = some t → s.task t = some p →
      p.blockedWait = some status → WaitReturns s e s' p status

/-- `v` is the pid of an exited child of `p` that the step removed from the table
    after storing its exit code. -/
def Reaped (s s' : System) (p : Process) (status v : Word) : Prop :=
  ∃ i c, s.processes i = some c ∧ c.parentPid = p.pid ∧ c.state = .zombie ∧ v = c.pid ∧
    s'.processes i = none ∧ (status ≠ 0 → s'.statusStores.head? = some (status, c.exitCode))

namespace System

/-- The calls of `wait` that do not block, and whose child has a pid that survives
    the conversion to `int`. -/
def prompt (s : System) : Event → Bool
  | .wait regs =>
    s.running.all fun parent =>
      match s.exitedChild parent (regs.rdi.setWidth 32) with
      | some i => (s.processes i).all fun c =>
        c.pid.toNat < 2 ^ 32 || (c.pid.setWidth 32 : CInt).toInt ≤ 0
      | none => slots.all fun i => (s.processes i).all fun c =>
        !waitsFor parent (regs.rdi.setWidth 32) c
  | _ => true

/-! ## No process is blocked in `wait` -/

def Unblocked (s : System) : Prop := ∀ t p, s.task t = some p → p.blockedWait = none

variable {s s' : System}

section

variable (unblocked : s.Unblocked)

include unblocked

variable {f : Process → Process}

namespace Unblocked

lemma congr (view : s'.view blockedWait = s.view blockedWait) : s'.Unblocked := by
  intro t p there
  have seen : s'.view blockedWait t = some p.blockedWait := by
    rw [System.view, there, map_some]
  rw [view] at seen
  obtain ⟨q, there', same⟩ := map_eq_some_iff.mp seen
  exact same.symm.trans (unblocked t q there')

lemma modify (t : Task)
    (keeps : ∀ p, p.blockedWait = none → (f p).blockedWait = none) : (s.modify t f).Unblocked := by
  intro t' p there
  cases t with
  | idle =>
    cases t' with
    | idle =>
      cases there
      exact keeps _ (unblocked .idle _ rfl)
    | slot j => exact unblocked (.slot j) p there
  | slot i =>
    cases t' with
    | idle => exact unblocked .idle p there
    | slot j =>
      by_cases same : j = i
      · subst same
        simp only [System.modify, modifySlot, task, update_self] at there
        obtain ⟨q, there', rfl⟩ := map_eq_some_iff.mp there
        exact keeps q (unblocked (.slot j) q there')
      · simp only [System.modify, modifySlot, task, update_of_ne same] at there
        exact unblocked (.slot j) p there

lemma modifyCurrent
    (keeps : ∀ p, p.blockedWait = none → (f p).blockedWait = none) :
    (s.modifyCurrent f).Unblocked := by
  unfold System.modifyCurrent
  split
  · exact unblocked
  next t _ => exact unblocked.modify t keeps

lemma leaveWait : s.leaveWait.Unblocked :=
  unblocked.modifyCurrent fun _ _ => rfl

lemma scheduler {regs : Option Frame} {f : Frame} (ran : s.scheduler regs = some (s', f)) : s'.Unblocked :=
  unblocked.congr (scheduler_spec stable_blockedWait ran).view

lemma returnToUser (f : Frame) : (s.returnToUser f).Unblocked :=
  leaveWait (s := s.swapgs) unblocked

lemma exitInterrupt (f : Frame) : (s.exitInterrupt f).Unblocked := by
  unfold System.exitInterrupt
  cases ringOf f with
  | user => exact leaveWait (s := s.swapgs) unblocked
  | kernel => exact unblocked

lemma storeMainStack : s.storeMainStack.Unblocked := by
  unfold System.storeMainStack
  split
  · split <;> exact unblocked
  · exact unblocked

lemma forceContextRestore (f : Frame) : (s.forceContextRestore f).Unblocked := by
  have stored : s.storeMainStack.swapgs.Unblocked := unblocked.storeMainStack
  unfold System.forceContextRestore
  cases ringOf f with
  | user => exact stored.leaveWait
  | kernel => exact stored

lemma doExit {code : CInt} (exited : s.doExit code = some s') : s'.Unblocked := by
  unfold System.doExit at exited
  split at exited
  next i _ =>
    obtain ⟨⟨s₁, f⟩, ran, rfl⟩ := map_eq_some_iff.mp exited
    have ended := unblocked.congr (endProcess_view stable_blockedWait i code).1
    exact (ended.scheduler ran).forceContextRestore f
  · cases exited

lemma withSignals {p : Process} (running : s.running = some p) (pending : Word)
    (inside : Bool) (saved : Frame) :
    (s.modifyCurrent fun _ => p.withSignals pending inside saved).Unblocked := by
  obtain ⟨t, -, there⟩ := running_eq_some.mp running
  exact unblocked.modifyCurrent fun _ _ => unblocked t p there

lemma deliverAndExit {f : Frame} (exited : s.deliverAndExit f = some s') : s'.Unblocked := by
  unfold System.deliverAndExit at exited
  split at exited
  · cases exited
    exact unblocked.exitInterrupt f
  rename_i p running
  obtain ⟨f', pending, inside, saved, delivered, -⟩ | ⟨pending, signum, delivered⟩ :=
    p.deliver_cases f
  · rw [delivered] at exited
    cases exited
    exact (unblocked.withSignals running pending inside saved).exitInterrupt f'
  · rw [delivered] at exited
    exact (unblocked.withSignals running pending _ _).doExit exited

end Unblocked

open Unblocked

end

variable {regs : Frame}

lemma Unblocked.interrupt (unblocked : s.Unblocked) {tick : Bool}
    (ran : s.interrupt tick regs = some s') : s'.Unblocked := by
  have entered : s.enterInterrupt.Unblocked := by
    unfold System.enterInterrupt
    split <;> exact unblocked
  unfold System.interrupt at ran
  split at ran
  · cases ran
  obtain ⟨⟨s₁, f⟩, scheduled, exited⟩ := bind_eq_some_iff.mp ran
  have unblocked : s₁.Unblocked := by
    unfold rescheduled at scheduled
    split at scheduled
    · have ticked : Unblocked { s.enterInterrupt with
        timerTicks := s.enterInterrupt.timerTicks + 1 } := entered
      exact ticked.scheduler scheduled
    · exact entered.scheduler scheduled
  dsimp only at exited
  split at exited
  · exact unblocked.deliverAndExit exited
  cases exited
  exact unblocked.exitInterrupt f

lemma Unblocked.update (unblocked : s.Unblocked) (i : Slot) {p : Option Process}
    (keeps : ∀ q, p = some q → q.blockedWait = none) :
    Unblocked { s with processes := update s.processes i p } := by
  intro t q there
  cases t with
  | idle => exact unblocked .idle q there
  | slot j =>
    by_cases same : j = i
    · subst same
      simp only [task, update_self] at there
      exact keeps q there
    · simp only [task, update_of_ne same] at there
      exact unblocked (.slot j) q there

/-! ## A prompt call -/

/-- The state in which a `wait` returns that has found an exited child in slot `i`. -/
def reaped (s : System) (i : Slot) (stores : List (Word × CInt)) : System :=
  (removeSlot { s.swapgs with statusStores := stores } i).modifyCurrent endWait

section

variable {parent : Process} (prompt : s.prompt (.wait regs)) (running : s.running = some parent)

include prompt running

/-- A prompt `wait` reaps a child, or there was no child to wait for. -/
lemma prompt_doWait {w : Waited}
    (waited : s.swapgs.doWait (regs.rdi.setWidth 32) regs.rsi = (s', w)) :
    (∃ i c, s.processes i = some c ∧ c.parentPid = parent.pid ∧ c.state = .zombie ∧
        (c.pid.toNat < 2 ^ 32 ∨ (c.pid.setWidth 32 : CInt).toInt ≤ 0) ∧
        w = .result (c.pid.setWidth 32) ∧
        s' = s.reaped i (if regs.rsi = 0 then s.statusStores else
          (regs.rsi, c.exitCode) :: s.statusStores)) ∨
      w = .result (-1) ∧ s' = s.swapgs := by
  have running' : s.swapgs.running = some parent := running
  simp only [System.prompt, running, all_some] at prompt
  rcases doWait_cases running' waited with
    ⟨i, c, found, there, matching, zombie, isW, isS'⟩ | ⟨-, absent, ⟨i, c, there, matching⟩, -⟩ | last
  · have found : s.exitedChild parent (regs.rdi.setWidth 32) = some i := found
    have there : s.processes i = some c := there
    simp only [found, there, all_some, Bool.or_eq_true, decide_eq_true_eq] at prompt
    have parent := eq_of_beq (Bool.and_eq_true_iff.mp matching).1
    exact .inl ⟨i, c, there, parent, zombie, prompt, isW, isS'⟩
  · have absent : s.exitedChild parent (regs.rdi.setWidth 32) = none := absent
    have there : s.processes i = some c := there
    simp only [absent, List.all_eq_true] at prompt
    have unmatched := prompt i (List.mem_finRange i)
    simp only [there, all_some, matching, Bool.not_true, Bool.false_eq_true] at unmatched
  · exact .inr last

/-- A prompt `wait` is back in its caller in the same step. -/
lemma prompt_wait (waited : s.wait regs = some s') :
    (∃ i c, s.processes i = some c ∧ c.parentPid = parent.pid ∧ c.state = .zombie ∧
        (c.pid.toNat < 2 ^ 32 ∨ (c.pid.setWidth 32 : CInt).toInt ≤ 0) ∧
        s' = (s.reaped i (if regs.rsi = 0 then s.statusStores else
          (regs.rsi, c.exitCode) :: s.statusStores)).returnToUser
            { regs with rax := (c.pid.setWidth 32 : CInt).signExtend 64 }) ∨
      s' = s.swapgs.returnToUser { regs with rax := (-1 : CInt).signExtend 64 } := by
  unfold System.wait at waited
  split at waited
  next s₁ v ran =>
    cases waited
    rcases prompt_doWait prompt running ran with ⟨i, c, there, child, zombie, small, isV, rfl⟩ | ⟨isV, rfl⟩
    · cases isV
      exact .inl ⟨i, c, there, child, zombie, small, rfl⟩
    · cases isV
      exact .inr rfl
  rename_i s₁ ran
  rcases prompt_doWait prompt running ran with ⟨_, _, _, _, _, _, absurd, _⟩ | ⟨absurd, _⟩
  · cases absurd
  · cases absurd

end

section

variable (unblocked : s.Unblocked)

include unblocked

lemma Unblocked.reaped (i : Slot) (stores : List (Word × CInt)) : (s.reaped i stores).Unblocked := by
  have removed : Unblocked (removeSlot { s.swapgs with statusStores := stores } i) :=
    update (s := { s.swapgs with statusStores := stores }) unblocked i (p := none) (fun _ => nofun)
  exact removed.modifyCurrent fun _ => id

lemma Unblocked.wait (prompt : s.prompt (.wait regs)) (waited : s.wait regs = some s') : s'.Unblocked := by
  have entered : s.swapgs.Unblocked := unblocked
  cases running : s.running with
  | none =>
    have running : s.swapgs.running = none := running
    simp only [System.wait, doWait, running] at waited
    cases waited
    exact entered.returnToUser _
  | some parent =>
    rcases prompt_wait prompt running waited with ⟨i, c, -, -, -, -, rfl⟩ | rfl
    · exact (unblocked.reaped i _).returnToUser _
    · exact entered.returnToUser _

lemma Unblocked.fork {kstack : Option Word} (forked : s.fork regs kstack = some s') : s'.Unblocked := by
  have numbered : Unblocked { s.swapgs with nextPid := s.swapgs.nextPid + 1 } := unblocked
  obtain ⟨p, -, rfl⟩ := map_eq_some_iff.mp forked
  cases cloned : s.swapgs.cloneProcess p regs kstack with
  | mk s₁ pid =>
    rcases cloneProcess_cases cloned with ⟨rfl, rfl | rfl⟩ | ⟨i, k, rfl, -, rfl, rfl⟩
    · exact returnToUser (s := s.swapgs) unblocked _
    · exact numbered.returnToUser _
    · refine returnToUser (numbered.update i fun q isQ => ?_) _
      cases isQ
      rfl

lemma Unblocked.spawn {kstack entry stack : Word}
    (spawned : s.spawn regs kstack entry stack = some s') : s'.Unblocked := by
  have numbered : Unblocked { s.swapgs with nextPid := s.nextPid + 1 } := unblocked
  obtain ⟨-, -, rfl⟩ := map_eq_some_iff.mp spawned
  dsimp only
  split
  next i _ =>
    refine returnToUser (numbered.update i fun q isQ => ?_) _
    cases isQ
    rfl
  · exact numbered.returnToUser _

end

lemma Unblocked.step (unblocked : s.Unblocked) {e : Event} (prompt : s.prompt e)
    (step : Step s e s') : s'.Unblocked := by
  have entered : s.swapgs.Unblocked := unblocked
  cases step with
  | interrupt ran => exact unblocked.interrupt ran
  | ordinary _ _ => exact entered.returnToUser _
  | wait _ waited => exact unblocked.wait prompt waited
  | exit _ _ exited => exact entered.doExit exited
  | fork _ _ forked => exact unblocked.fork forked
  | spawn _ _ spawned => exact unblocked.spawn spawned
  | execve _ replaced =>
    obtain ⟨p, -, rfl⟩ := map_eq_some_iff.mp replaced
    exact unblocked
  | sigreturn _ returned =>
    obtain ⟨p, -, rfl⟩ := map_eq_some_iff.mp returned
    split
    · refine returnToUser (modifyCurrent entered ?_) _
      exact fun _ => id
    · exact entered.returnToUser _
  | ttyBlock _ => exact entered.modifyCurrent fun _ => id
  | ttyAgain _ waits =>
    obtain ⟨-, -, rfl⟩ := map_eq_some_iff.mp waits
    exact unblocked.modifyCurrent fun _ => id
  | ttyReturn _ returned =>
    obtain ⟨-, -, rfl⟩ := map_eq_some_iff.mp returned
    refine returnToUser (modifyCurrent unblocked ?_) _
    exact fun _ => id
  | signal =>
    have mild := raise_mild stable_blockedWait
    exact unblocked.modify _ fun p none => ((mild _).core p).trans none
  | wakeReader =>
    have mild := wakeReader_mild stable_blockedWait
    exact unblocked.modify (.slot _) fun p none => (mild.core p).trans none

lemma modifyCurrent_free {i : Slot} (free : s.processes i = none) (f : Process → Process) :
    (s.modifyCurrent f).processes i = none := by
  unfold modifyCurrent
  split
  · exact free
  rename_i t _
  cases t with
  | idle => exact free
  | slot j =>
    by_cases same : i = j
    · subst same
      simp only [modify, modifySlot, update_self, free, map_none]
    · simp only [modify, modifySlot, update_of_ne same, free]

lemma reaped_processes (i : Slot) (stores : List (Word × CInt)) (f : Frame) :
    ((s.reaped i stores).returnToUser f).processes i = none := by
  refine modifyCurrent_free (s := (s.reaped i stores).swapgs) ?_ _
  exact modifyCurrent_free (by simp only [removeSlot, update_self]) _

lemma reaped_statusStores (i : Slot) (stores : List (Word × CInt)) (f : Frame) :
    ((s.reaped i stores).returnToUser f).statusStores = stores := by
  refine ((s.reaped i stores).swapgs.modifyCurrent_statusStores _).trans ?_
  exact modifyCurrent_statusStores _ _

/-- The conversion to `int` and back keeps a pid below 2^32 if the result is positive. -/
lemma pid_of_positive {pid : Word}
    (small : pid.toNat < 2 ^ 32 ∨ (pid.setWidth 32 : CInt).toInt ≤ 0)
    (positive : 0 < ((pid.setWidth 32 : CInt).signExtend 64).toInt) :
    (pid.setWidth 32 : CInt).signExtend 64 = pid := by
  rw [toInt_signExtend_of_le (by decide)] at positive
  have small : pid.toNat < 2 ^ 32 := small.resolve_right (by omega)
  have low : (pid.setWidth 32 : CInt).toNat = pid.toNat := by
    rw [toNat_setWidth, Nat.mod_eq_of_lt small]
  apply eq_of_toInt_eq
  rw [toInt_signExtend_of_le (by decide)]
  rw [toInt_eq_toNat_cond, low] at positive ⊢
  rw [toInt_eq_toNat_cond]
  split at positive <;> split <;> omega

lemma boot_unblocked (ticks : Nat) (idleStack loop kstack entry stack : Word) :
    (boot ticks idleStack loop kstack entry stack).Unblocked := by
  intro t p there
  cases t with
  | idle =>
    cases there
    rfl
  | slot i =>
    by_cases first : i = 0
    · subst first
      cases there
      rfl
    · simp only [task, boot, jumpToUsermode, swapgs, update_of_ne first, reduceCtorEq] at there

/-- In every run in which calls of `wait` are prompt, a `wait` that returns a positive
    value has reaped the child with that pid. -/
theorem wait_returns_reaped_child {ticks : Nat} {idleStack loop kstack entry stack : Word}
    {events : List Event} {s s' : System} {e : Event} {p : Process} {status : Word}
    (run : Run (fun s e s' => s.prompt e ∧ Step s e s') (boot ticks idleStack loop kstack entry stack)
      events s) (prompt : s.prompt e) (step : Step s e s') (returns : WaitReturns s e s' p status)
    (positive : 0 < s'.regs.rax.toInt) : Reaped s s' p status s'.regs.rax := by
  have unblocked : s.Unblocked :=
    run.invariant (fun _ _ _ unblocked step => unblocked.step step.1 step.2)
      (boot_unblocked ticks idleStack loop kstack entry stack)
  cases returns with
  | resumed _ _ there blocked => cases blocked.symm.trans (unblocked _ p there)
  | direct _ current _ there =>
    have running : s.running = some p := running_eq_some.mpr ⟨_, current, there⟩
    cases step with
    | wait _ waited =>
      rcases prompt_wait prompt running waited with ⟨i, c, there, child, zombie, small, rfl⟩ | rfl
      · refine ⟨i, c, there, child, zombie, pid_of_positive small positive,
          reaped_processes .., fun nonzero => ?_⟩
        rw [reaped_statusStores, if_neg nonzero]
        rfl
      · have positive : 0 < ((-1 : CInt).signExtend 64).toInt := positive
        exact absurd positive (by decide)

/-- The first process forks, the child exits, and the process waits for it. -/
def forkExitWait : List Event :=
  [.fork (callFrame 57 0 0) (some 0xFFFF800000128000), .interrupt true (callFrame 2 0 0),
    .interrupt true (callFrame 2 0 0), .exit (callFrame 60 7 0)]

theorem prompt_wait_reaps_child :
    ∃ s s' p, Run (fun s e s' => s.prompt e ∧ Step s e s') started forkExitWait s ∧
      Step s (.wait (callFrame 61 (-1) 0x7000)) s' ∧ s'.regs.rax = 2 ∧
      Reaped s s' p 0x7000 s'.regs.rax := by
  obtain ⟨s, s', p, computed, isPrompt, taken, isRax, user, current, current', there⟩ :
      ∃ s s' p, forkExitWait.foldlM (fun s e => if s.prompt e then s.next e else none) started = some s ∧
        s.prompt (.wait (callFrame 61 (-1) 0x7000)) ∧
        s.next (.wait (callFrame 61 (-1) 0x7000)) = some s' ∧ s'.regs.rax = 2 ∧ s'.mode = .user ∧
        s.currentProcess = some (.slot 0) ∧ s'.currentProcess = some (.slot 0) ∧
        s.task (.slot 0) = some p := by
    refine ⟨_, _, _, (some_get ?_).symm, ?_, (some_get ?_).symm, ?_, ?_, ?_, ?_,
      (some_get ?_).symm⟩ <;> decide +kernel
  have run : Run (fun s e s' => s.prompt e ∧ Step s e s') started forkExitWait s := by
    refine .of_foldlM (fun s e s' taken => ?_) computed
    obtain ⟨prompt, next⟩ := ite_none_right_eq_some.mp taken
    exact ⟨prompt, .of_next next⟩
  have positive : 0 < s'.regs.rax.toInt := by
    rw [isRax]
    decide
  exact ⟨s, s', p, run, .of_next taken, isRax,
    wait_returns_reaped_child run isPrompt (.of_next taken) (.direct user current current' there) positive⟩

/-- A `wait` that blocked is resumed by the exit of the child with its own system call
    number in RAX; the child stays in the table. -/
theorem blocked_wait_returns_call_number :
    ∃ s s' p, Run Step started forkAndWait s ∧ Step s (.exit (callFrame 60 7 0)) s' ∧
      WaitReturns s (.exit (callFrame 60 7 0)) s' p 0 ∧ s'.regs.rax = 61 ∧
      ¬Reaped s s' p 0 s'.regs.rax := by
  obtain ⟨s, s', p, computed, taken, user, current, there, blocked, isRax, absent⟩ :
      ∃ s s' p, forkAndWait.foldlM next started = some s ∧
        s.next (.exit (callFrame 60 7 0)) = some s' ∧ s'.mode = .user ∧
        s'.currentProcess = some (.slot 0) ∧ s.task (.slot 0) = some p ∧
        p.blockedWait = some 0 ∧ s'.regs.rax = 61 ∧
        slots.all (fun i => (s.processes i).all fun c => c.pid != 61) = true := by
    refine ⟨_, _, _, (some_get ?_).symm, (some_get ?_).symm, ?_, ?_,
      (some_get ?_).symm, ?_, ?_, ?_⟩ <;> decide +kernel
  refine ⟨s, s', p, .of_foldlM (fun _ _ _ => .of_next) computed, .of_next taken,
    .resumed user current there blocked, isRax, ?_⟩
  rintro ⟨i, c, there, -, -, isPid, -⟩
  have different := all_eq_true.mp absent i (mem_finRange i)
  rw [there, all_some, ← isPid, isRax] at different
  exact absurd different (by decide)

end System

end Znu.Kernel
