import Znu.Sched.Membership

/-! # At most one process runs

It is the current one. The scheduler chooses among processes that are ready, and a process
that has ended stays so until its parent takes it out of the table.
-/

namespace Znu.Sched

open Machine Kernel Lib Option

variable {s s' : State} {p q : Ptr} {i : Slot} {e : Op}

namespace State

/-- No process but the current one runs, and the idle process never waits. -/
structure Orderly (s : State) : Prop where
  running : ∀ p ∈ s.allocated, p ≠ s.idleProcess → (s.threads p).state = .running →
    s.currentProcess = some p
  idle : (s.threads s.idleProcess).state = .ready ∨ (s.threads s.idleProcess).state = .running
  unlisted : ∀ i, s.processes i ≠ some s.idleProcess

lemma Booted.orderly (booted : s.Booted) (idle : Ptr) (kstack loop : Word) :
    (s.initScheduler idle kstack loop).Orderly where
  running p inside notIdle := by
    simp only [initScheduler, booted.empty, Finset.mem_insert, Finset.notMem_empty, or_false] at inside
    exact absurd inside notIdle
  idle := by
    refine .inr ?_
    simp only [initScheduler, Function.update_self]
    rfl
  unlisted i atI := by cases atI

end State

lemma Step.orderly (inv : s.Inv) (orderly : s.Orderly) (step : Step s e s')
    (apart : e ≠ .addProcess s.idleProcess) : s'.Orderly := by
  have tabled := step.tabled inv
  refine ⟨fun p inside notIdle runs => ?_, ?_, fun i atI => ?_⟩
  · rcases tabled.born p inside with old | newborn
    · rcases (step.effect old).running runs with isCurrent | ⟨ran, elsewhere⟩
      · exact isCurrent
      · exact absurd (orderly.running p old (tabled.idle ▸ notIdle) ran) elsewhere
    · cases newborn.state.symm.trans runs
  · rw [tabled.idle]
    rcases (step.effect inv.idle).stops with same | ready | runs | ⟨-, notIdle⟩
    · rw [same]
      exact orderly.idle
    · exact .inl ready
    · exact .inr runs
    · exact absurd rfl notIdle
  · rw [tabled.idle] at atI
    rcases tabled.enters i _ atI with before | isAdd | isStart | newborn
    · exact orderly.unlisted i before
    · exact apart isAdd
    · subst isStart
      simp only [Step, State.next, ite_none_right_eq_some] at step
      exact step.1.2.2.1 rfl
    · exact newborn.fresh inv.idle

namespace State

/-- The call of `scheduler` that an operation makes: the state it is made in, and its
    argument. -/
def schedulerCall (s : State) : Op → Option (State × Option Frame)
  | .scheduler tick regs => some (s.ticked tick, some regs)
  | .doExit code => if s.Active then s.currentProcess.map fun p => (s.endProcess p code, none) else none
  | _ => none

/-- The idle process is as it was when the scheduler is called. -/
lemma schedulerCall_idle (inv : s.Inv) (orderly : s.Orderly) {s₁ : State} {regs : Option Frame}
    (call : s.schedulerCall e = some (s₁, regs)) : s₁.idleProcess ∈ s₁.allocated ∧
      ((s₁.threads s₁.idleProcess).state = .ready ∨ (s₁.threads s₁.idleProcess).state = .running) := by
  cases e <;> simp only [schedulerCall, reduceCtorEq, some.injEq, Prod.mk.injEq,
    ite_none_right_eq_some, map_eq_some_iff] at call
  case scheduler tick regs =>
    obtain ⟨rfl, -⟩ := call
    have ticked := Mildly.ticked s tick
    have same : (s.ticked tick).threads = s.threads := by cases tick <;> rfl
    rw [ticked.idle, ticked.allocated, same]
    exact ⟨inv.idle, orderly.idle⟩
  case doExit code =>
    obtain ⟨⟨q, isCurrent, notIdle, -⟩, p, isP, rfl, -⟩ := call
    cases isP.symm.trans isCurrent
    have admin := Admin.endProcess s q code
    have gentle := (endProcess_gentle s q s.idleProcess code).1
    rw [modify_of_ne notIdle.symm] at gentle
    rw [admin.idle, admin.allocated]
    refine ⟨inv.idle, ?_⟩
    rcases gentle.state with same | ⟨ready, -⟩
    · rw [same]
      exact orderly.idle
    · exact .inl ready

lemma scheduler_chooses {regs : Option Frame} {frame : Frame} (inside : s.idleProcess ∈ s.allocated)
    (idle : (s.threads s.idleProcess).state = .ready ∨ (s.threads s.idleProcess).state = .running)
    (done : s.scheduler regs = some (s', frame)) (isCurrent : s'.currentProcess = some p)
    (other : s.currentProcess ≠ some p) :
    ((s.prepared regs).threads p).state = .ready ∨ ((s.prepared regs).threads p).state = .running := by
  have mildly := Mildly.prepared s regs
  cases schedule_outcome done with
  | nothing _ _ isNone => cases isNone.symm.trans isCurrent
  | stay old _ _ isOld =>
    cases isOld.symm.trans isCurrent
    exact absurd (mildly.current.symm.trans isOld) other
  | idle =>
    cases isCurrent
    rw [mildly.idle]
    rcases (mildly.threads _ inside).state with same | ⟨ready, -⟩
    · rw [same]
      exact idle
    · exact .inl ready
  | same i next _ _ _ _ isNext =>
    cases isNext.symm.trans isCurrent
    exact absurd (mildly.current.symm.trans isNext) other
  | switch i next _ _ runnable =>
    cases isCurrent
    exact (processIsRunnable_iff.mp runnable).2

/-- What holds of the states of processes. -/
structure StatesOk (s : State) : Prop where
  single : ∀ i p, s.processes i = some p → (s.threads p).state = .running → s.currentProcess = some p
  chosen : ∀ e s₁ regs s' frame p, s.schedulerCall e = some (s₁, regs) →
    s₁.scheduler regs = some (s', frame) → s'.currentProcess = some p → s₁.currentProcess ≠ some p →
    ((s₁.prepared regs).threads p).state = .ready ∨ ((s₁.prepared regs).threads p).state = .running
  zombie : ∀ e s', Step s e s' → ∀ i p, s.processes i = some p → (s.threads p).state = .zombie →
    s'.processes i = some p ∧ (s'.threads p).state = .zombie ∨
      ∃ pid status, e = .doWait pid status ∧ ∀ j, s'.processes j ≠ some p

lemma Orderly.statesOk (inv : s.Inv) (orderly : s.Orderly) : s.StatesOk where
  single i p atI := by
    have notIdle : p ≠ s.idleProcess := fun isIdle => orderly.unlisted i (isIdle ▸ atI)
    exact orderly.running p (inv.listed i p atI) notIdle
  chosen e s₁ regs s' frame p call done isCurrent other := by
    obtain ⟨inside, idle⟩ := schedulerCall_idle inv orderly call
    exact scheduler_chooses inside idle done isCurrent other
  zombie e s' step i p atI ended := by
    rcases (step.tabled inv).stays i p atI with still | ⟨pid, status, parent, rfl, isCurrent, found⟩
    · exact .inl ⟨still, ((step.effect (inv.listed i p atI)).zombie ended).1⟩
    cases step.stepped
    refine .inr ⟨pid, status, rfl, fun j => ?_⟩
    exact doWait_gone inv isCurrent found j

end State

/-- In every run in which the idle process is not put into the table. -/
theorem one_process_runs {s s' : State} {idle : Ptr} {kstack loop : Word} {es : List Op}
    (booted : s.Booted) (apart : .addProcess idle ∉ es)
    (run : Run Step (s.initScheduler idle kstack loop) es s') : s'.StatesOk := by
  have start : (s.initScheduler idle kstack loop).Inv := booted.inv idle kstack loop
  have kept : s'.Inv ∧ s'.Orderly := by
    have orderly := booted.orderly idle kstack loop
    have isIdle : (s.initScheduler idle kstack loop).idleProcess = idle := rfl
    generalize s.initScheduler idle kstack loop = s₀ at run start orderly isIdle
    induction run with
    | nil => exact ⟨start, orderly⟩
    | cons step _ ih =>
      obtain ⟨first, later⟩ := not_or.mp (mt List.mem_cons.mpr apart)
      have notAdd : _ ≠ Op.addProcess _ := fun isAdd => first (isIdle ▸ isAdd.symm)
      refine ih later (step.inv start) (step.orderly start orderly notAdd) ?_
      exact (step.tabled start).idle.trans isIdle
  exact kept.2.statesOk kept.1

/-- The first process and its child, both of which have run. -/
theorem forked_states_ok :
    ∃ s, Run Step (State.blank.initScheduler 1 0x4000 0) forkExitWait s ∧ s.StatesOk := by
  obtain ⟨s, run, -⟩ := run_of_check (State.blank.initScheduler 1 0x4000 0) forkExitWait
    (fun _ => true) (by decide +kernel)
  exact ⟨s, run, one_process_runs State.blank_booted (by simp [forkExitWait]) run⟩

end Znu.Sched
