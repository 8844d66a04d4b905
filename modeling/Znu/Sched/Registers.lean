import Znu.Sched.Reaping

/-! # The SSE and x87 registers of a process

The registers are saved when the scheduler switches from one process to another, but not when
the processor becomes idle, and a fork copies what was saved last. The history says what the
registers of a process have to be when it gets the processor again: those it had when it last
lost it, or those of its parent at the fork.
-/

namespace Znu.Sched

open Machine Kernel Lib Function Option State

/-- For each process the registers it had when it stopped. There are none for a process that
    has not run. -/
abbrev Files := Ptr → Option FxArea

/-- The registers of a process: those of the processor if it is the current one. -/
def Files.of (files : Files) (s : State) (p : Ptr) : Option FxArea :=
  if s.currentProcess = some p then some s.fpu else files p

def Files.record (s : State) (e : Op) (files : Files) : Files :=
  match e with
  | .createProcessFromElf p _ _ => update files p none
  | .kthreadCreate p _ _ => update files p none
  | .cloneProcess src p _ _ => update files p (files.of s src)
  | .scheduler _ _ =>
    match s.currentProcess with
    | some p => if p = s.idleProcess then files else update files p (some s.fpu)
    | none => files
  | _ => files

variable {s s' : State} {p : Ptr} {e : Op} {files : Files}

namespace State

/-- What `scheduler` will load for a process are its registers. -/
structure Saved (s : State) (files : Files) : Prop where
  idle : files s.idleProcess = none
  areas : ∀ p ∈ s.allocated, p ≠ s.idleProcess → (s.threads p).state ≠ .zombie →
    s.currentProcess ≠ some p → ∀ x, files p = some x → (s.threads p).sseState = x

/-- The registers of the current process are the saved ones whenever the processor becomes idle
    and whenever it forks. -/
structure KeepsFpu (s : State) (e : Op) : Prop where
  idles : ∀ s₁ regs p, s.schedulerCall e = some (s₁, regs) → s₁.Idles regs →
    s₁.currentProcess = some p → p ≠ s₁.idleProcess → (s₁.threads p).state ≠ .zombie →
    (s₁.threads p).sseState = s₁.fpu
  forks : ∀ src p regs copy, e = .cloneProcess src p regs (some copy) →
    s.currentProcess = some src → (s.threads src).state ≠ .zombie →
    s.processTableFindFreeSlot ≠ none → (s.threads src).sseState = s.fpu

def forkKeepsFpu (s : State) : Op → Bool
  | .cloneProcess src _ _ (some _) =>
    decide (s.currentProcess = some src → (s.threads src).state ≠ .zombie →
      s.processTableFindFreeSlot ≠ none → (s.threads src).sseState = s.fpu)
  | _ => true

instance (s : State) (e : Op) : Decidable (s.KeepsFpu e) :=
  decidable_of_iff (((s.schedulerCall e).all fun call => call.1.currentProcess.all fun p =>
      decide (call.1.Idles call.2 → p ≠ call.1.idleProcess → (call.1.threads p).state ≠ .zombie →
        (call.1.threads p).sseState = call.1.fpu)) ∧ s.forkKeepsFpu e = true) (by
    simp only [Option.all_eq_true, decide_eq_true_eq, Prod.forall]
    refine ⟨fun ⟨idles, forks⟩ => ⟨fun s₁ regs p call stops isP => idles s₁ regs call p isP stops, ?_⟩,
      fun keeps => ⟨fun s₁ regs call p isP stops => keeps.idles s₁ regs p call stops isP, ?_⟩⟩
    · rintro src p regs copy rfl
      exact of_decide_eq_true forks
    cases e
    case cloneProcess src p regs copy =>
      cases copy with
      | none => rfl
      | some copy => exact decide_eq_true (keeps.forks src p regs copy rfl)
    all_goals rfl)

lemma KeepsFpu.silent (isNone : s.schedulerCall e = none) (childless : e.creates = none) : s.KeepsFpu e where
  idles s₁ regs p call := by cases isNone.symm.trans call
  forks src p regs copy isFork := by
    subst isFork
    cases childless

end State

variable {regs : Option Frame} {s₁ : State}

namespace Files

/-- The history of an existing process changes when the scheduler is called. -/
lemma record_old (step : Step s e s') (inside : p ∈ s.allocated) (isNone : s.schedulerCall e = none) :
    files.record s e p = files p := by
  have other : ∀ q, s.Fresh q → p ≠ q := fun q fresh here => fresh.1 (here ▸ inside)
  cases step.stepped with
  | createProcessFromElf fresh | kthreadCreate fresh | cloneProcess fresh =>
    exact update_of_ne (other _ fresh) ..
  | scheduler => cases isNone
  | _ => rfl

/-- A call of the scheduler writes down the registers of the current process. -/
lemma record_call (files : Files) (tick : Bool) (regs : Frame) (p : Ptr) :
    files.record s (.scheduler tick regs) p = files p ∧ (s.currentProcess = some p → p = s.idleProcess) ∨
      s.currentProcess = some p ∧ p ≠ s.idleProcess ∧
        files.record s (.scheduler tick regs) p = some s.fpu := by
  cases isCurrent : s.currentProcess with
  | none =>
    exact .inl ⟨by simp only [record, isCurrent], fun isP => by cases isP⟩
  | some q =>
    simp only [record, isCurrent, some.injEq]
    by_cases isIdle : q = s.idleProcess
    · rw [if_pos isIdle]
      exact .inl ⟨rfl, fun isP => isP ▸ isIdle⟩
    rw [if_neg isIdle]
    by_cases here : p = q
    · subst here
      exact .inr ⟨rfl, isIdle, update_self ..⟩
    · exact .inl ⟨update_of_ne here .., fun isP => absurd isP.symm here⟩

lemma record_called (files : Files) (call : s.schedulerCall e = some (s₁, regs))
    (called : s.Called e s₁) (p : Ptr) :
    files.record s e p = files p ∧ (s₁.currentProcess = some p → p = s.idleProcess) ∨
      s₁.currentProcess = some p ∧ p ≠ s.idleProcess ∧ files.record s e p = some s₁.fpu := by
  cases e <;> simp only [schedulerCall, reduceCtorEq] at call
  case scheduler tick regs' =>
    have current := called.current.resolve_right fun exits => exits.2 rfl
    rw [current, called.fpu]
    exact record_call files tick regs' p
  case doExit code =>
    refine .inl ⟨rfl, fun isP => ?_⟩
    simp only [ite_none_right_eq_some, map_eq_some_iff, Prod.mk.injEq] at call
    obtain ⟨-, q, -, rfl, -⟩ := call
    cases (endProcess_gentle s q q code).2.1.symm.trans isP

end Files

open Sched.Files

/-- A process is new with the registers of its parent, or without any. -/
lemma Step.born_file (files : Files) (step : Step s e s')
    (newborn : s.Newborn e s' p) (inside : p ∈ s'.allocated) : files.record s e p = none ∨
      ∃ src regs copy, e = .cloneProcess src p regs (some copy) ∧ src ∈ s.allocated ∧
        (s.threads src).state ≠ .zombie ∧ s.processTableFindFreeSlot ≠ none ∧
        files.record s e p = files.of s src ∧ (s'.threads p).sseState = (s.threads src).sseState := by
  have creates := newborn.creates
  cases e <;> simp only [Op.creates, some.injEq, reduceCtorEq] at creates <;> subst creates
  case createProcessFromElf => exact .inl (update_self ..)
  case kthreadCreate => exact .inl (update_self ..)
  case cloneProcess src q regs copy =>
    simp only [Step, next, ite_none_right_eq_some, some.injEq] at step
    obtain ⟨⟨fresh, there⟩, rfl⟩ := step
    refine .inr ?_
    rw [cloneProcess] at inside ⊢
    split at inside
    · exact absurd inside fresh.1
    rename_i possible
    cases copy with
    | none => exact absurd inside fresh.1
    | some copy =>
      obtain ⟨live, room⟩ := not_or.mp possible
      refine ⟨src, regs, copy, rfl, there, live, room, update_self .., ?_⟩
      simp only [if_neg possible, addProcess_threads, allocate, update_self]

namespace State

variable {x : FxArea}

/-- A process that did not run when the scheduler was called has its registers in memory. -/
lemma Saved.at_call (saved : s.Saved files) (held : s.Held) (step : Step s e s')
    (called : s.Called e s₁) (inside : p ∈ s.allocated) (notIdle : p ≠ s.idleProcess)
    (live : (s'.threads p).state ≠ .zombie) (stopped : s₁.currentProcess ≠ some p)
    (isX : files p = some x) : (s₁.threads p).sseState = x := by
  have before : s.currentProcess ≠ some p := by
    intro isP
    rcases called.current with same | ⟨-, exits⟩
    · exact stopped (same.trans isP)
    obtain ⟨code, isCode⟩ := ne_none_iff_exists'.mp exits
    obtain ⟨q, isQ, -, ended⟩ := step.exits held isCode
    cases isP.symm.trans isQ
    exact live ended
  have live' : (s.threads p).state ≠ .zombie := fun ended =>
    live ((step.effect inside).zombie ended).1
  rw [(called.areas p inside).2]
  exact saved.areas p inside notIdle live' before x isX

end State

section

section

variable (inv : s.Inv) (held : s.Held) (saved : s.Saved files) (step : Step s e s')

include inv held saved step

lemma Step.saved_iff_calm (isNone : s.schedulerCall e = none) (calm : s.Calm e s') :
    s'.Saved (files.record s e) ↔ s.KeepsFpu e := by
  have tabled := step.tabled inv
  constructor
  · intro after
    refine ⟨fun s₁ regs p call => (by cases isNone.symm.trans call), ?_⟩
    rintro src p regs copy rfl isCurrent live room
    have possible : ¬ ((s.threads src).state = .zombie ∨ s.processTableFindFreeSlot = none) :=
      not_or.mpr ⟨live, room⟩
    have fresh : p ∉ s.allocated := by
      cases step.stepped with
      | cloneProcess fresh => exact fresh.1
    have inside : p ∈ s'.allocated := by
      cases step.stepped
      rw [cloneProcess, if_neg possible, (addProcess_listed _ p).2.2.1]
      exact Finset.mem_insert_self p _
    have newborn := (tabled.born p inside).resolve_left fresh
    have file : files.record s (.cloneProcess src p regs (some copy)) p = some s.fpu := by
      simp only [record, update_self, of, if_pos isCurrent]
    obtain none | ⟨_, _, _, isFork, -, -, -, -, same⟩ := step.born_file files newborn inside
    · cases none.symm.trans file
    cases isFork
    rw [← same]
    refine after.areas p inside (fun here => ?_) (by simp [newborn.state]) (fun here => ?_) _ file
    · exact fresh (here.trans tabled.idle ▸ inv.idle)
    · exact fresh (held p (newborn.current ▸ here))
  · intro keeps
    refine ⟨?_, fun p inside notIdle live stopped x isX => ?_⟩
    · rw [tabled.idle, record_old step inv.idle isNone]
      exact saved.idle
    rw [tabled.idle] at notIdle
    rw [calm.current] at stopped
    rcases tabled.born p inside with old | newborn
    · rw [record_old step old isNone] at isX
      rw [(calm.areas p old).2]
      exact saved.areas p old notIdle (fun ended => live ((step.effect old).zombie ended).1) stopped x isX
    rcases step.born_file files newborn inside with
      none | ⟨src, regs, copy, isFork, there, live', room, file, same⟩
    · cases none.symm.trans isX
    · rw [file, of] at isX
      rw [same]
      split at isX
      next isCurrent =>
        cases isX
        exact keeps.forks src p regs copy isFork isCurrent live' room
      rename_i other
      refine saved.areas src there (fun isIdle => ?_) live' other x isX
      rw [isIdle, saved.idle] at isX
      cases isX

lemma Step.saved_iff_call
    (call : s.schedulerCall e = some (s₁, regs)) (called : s.Called e s₁) (turn : s₁.Turn regs s')
    (allocated : s'.allocated = s₁.allocated)
    (zombies : ∀ p ∈ s₁.allocated, (s'.threads p).state = .zombie ↔ (s₁.threads p).state = .zombie) :
    s'.Saved (files.record s e) ↔ s.KeepsFpu e := by
  have idle := (step.tabled inv).idle
  have isIdle : files.record s e s'.idleProcess = none := by
    rw [idle]
    rcases record_called files call called s.idleProcess with ⟨same, -⟩ | ⟨-, other, -⟩
    · rw [same]
      exact saved.idle
    · exact absurd rfl other
  have forks : ∀ src p regs copy, e = .cloneProcess src p regs (some copy) →
      s.currentProcess = some src → (s.threads src).state ≠ .zombie →
      s.processTableFindFreeSlot ≠ none → (s.threads src).sseState = s.fpu := by
    rintro src p regs copy rfl
    cases call
  have busy : ¬ s₁.Idles regs → s.KeepsFpu e := by
    refine fun notIdle => ⟨fun s₂ regs₂ p call₂ idles => ?_, forks⟩
    cases call.symm.trans call₂
    exact absurd idles notIdle
  have after : (∀ p ∈ s₁.allocated, s₁.currentProcess = some p → p ≠ s.idleProcess →
        (s₁.threads p).state ≠ .zombie → s'.currentProcess ≠ some p →
        (s'.threads p).sseState = s₁.fpu) →
      (∀ p ∈ s₁.allocated, s₁.currentProcess ≠ some p →
        (s'.threads p).sseState = (s₁.threads p).sseState) → s'.Saved (files.record s e) := by
    refine fun ran others => ⟨isIdle, fun p inside notIdle live stopped x isX => ?_⟩
    rw [allocated] at inside
    rw [idle] at notIdle
    rcases record_called files call called p with ⟨same, isCurrent⟩ | ⟨isCurrent, -, file⟩
    · have away : s₁.currentProcess ≠ some p := fun isP => notIdle (isCurrent isP)
      rw [others p inside away]
      exact saved.at_call held step called (called.allocated ▸ inside) notIdle live away (same ▸ isX)
    · cases file.symm.trans isX
      exact ran p inside isCurrent notIdle (mt (zombies p inside).mpr live) stopped
  cases turn with
  | goesOn notIdle current _ _ areas =>
    refine iff_of_true (after (fun p _ isCurrent _ _ stopped => ?_) fun p inside _ => (areas p inside).2)
      (busy notIdle)
    exact absurd (current.trans isCurrent) stopped
  | switches i next chosen _ _ switched =>
    refine iff_of_true (after (fun p _ isCurrent notIdle _ _ => ?_) switched.others)
      (busy (choice_not_idles chosen))
    exact switched.saved p isCurrent (called.idle ▸ notIdle)
  | idles idles current _ _ areas =>
    constructor
    · refine fun saved' => ⟨fun s₂ regs₂ p call₂ _ isCurrent notIdle live => ?_, forks⟩
      cases call.symm.trans call₂
      have inside := called.held p isCurrent
      rw [called.idle] at notIdle
      rw [← (areas p inside).2]
      refine saved'.areas p (allocated ▸ inside) (idle ▸ notIdle) (mt (zombies p inside).mp live) ?_ _ ?_
      · rw [current, called.idle]
        exact fun here => notIdle (some.inj here).symm
      · rcases record_called files call called p with ⟨-, isIdle⟩ | ⟨-, -, file⟩
        · exact absurd (isIdle isCurrent) notIdle
        · exact file
    · intro keeps
      refine after (fun p inside isCurrent notIdle live _ => ?_) fun p inside _ => (areas p inside).2
      rw [(areas p inside).2]
      exact keeps.idles s₁ regs p call idles isCurrent (called.idle ▸ notIdle) live

/-- The saved registers stay the right ones exactly if the condition is met. -/
lemma Step.saved_iff : s'.Saved (files.record s e) ↔ s.KeepsFpu e := by
  have tabled := step.tabled inv
  have old : ∀ p ∈ s'.allocated, e.creates = none → p ∈ s.allocated := fun p inside childless =>
    (tabled.born p inside).resolve_right fun newborn => by cases newborn.creates.symm.trans childless
  cases step.processor inv held with
  | calm quiet calm =>
    exact step.saved_iff_calm inv held saved (schedulerCall_none quiet) calm
  | calls s₁ regs call called turn _ allocated zombies =>
    exact step.saved_iff_call inv held saved call called turn allocated zombies
  | starts q isStart isNone _ _ _ _ _ _ areas =>
    subst isStart
    refine iff_of_true ⟨tabled.idle ▸ saved.idle, fun p inside notIdle live _ x isX => ?_⟩ (.silent rfl rfl)
    have before := old p inside rfl
    rw [(areas p before).2]
    refine saved.areas p before (tabled.idle ▸ notIdle)
      (fun ended => live ((step.effect before).zombie ended).1) ?_ x isX
    rw [isNone]
    exact (some_ne_none p).symm
  | execs q image isExec isCurrent _ current _ _ threads =>
    subst isExec
    refine iff_of_true ⟨tabled.idle ▸ saved.idle, fun p inside notIdle live stopped x isX => ?_⟩
      (.silent rfl rfl)
    have before := old p inside rfl
    have other : p ≠ q := fun here => stopped (here ▸ current.trans isCurrent)
    rw [threads, update_of_ne other]
    exact saved.areas p before (tabled.idle ▸ notIdle)
      (fun ended => live ((step.effect before).zombie ended).1) (current ▸ stopped) x isX

/-- The process that has the processor after a call of the scheduler has its registers. -/
lemma Step.resumes (call : s.schedulerCall e ≠ none)
    (isCurrent : s'.currentProcess = some p) (notIdle : p ≠ s'.idleProcess) {x : FxArea}
    (isX : files.record s e p = some x) : s'.fpu = x := by
  rw [(step.tabled inv).idle] at notIdle
  cases step.processor inv held with
  | calm quiet => exact absurd (schedulerCall_none quiet) call
  | starts q isStart =>
    subst isStart
    exact absurd rfl call
  | execs q image isExec =>
    subst isExec
    exact absurd rfl call
  | calls s₁ regs isCall called turn _ _ zombies =>
    have file := record_called files isCall called p
    cases turn with
    | goesOn _ current _ fpu =>
      rcases file with ⟨-, isIdle⟩ | ⟨-, -, file⟩
      · exact absurd (isIdle (current.symm.trans isCurrent)) notIdle
      · cases file.symm.trans isX
        exact fpu
    | idles _ current =>
      cases current.symm.trans isCurrent
      exact absurd called.idle notIdle
    | switches i next chosen listed other switched =>
      cases switched.current.symm.trans isCurrent
      rcases file with ⟨same, -⟩ | ⟨here, -⟩
      · have inside := called.inv.listed i p listed
        obtain ⟨q, atI, due, -⟩ := choice_top chosen
        cases listed.symm.trans atI
        rw [switched.fpu]
        exact saved.at_call held step called (called.allocated ▸ inside) notIdle
          (mt (zombies p inside).mp (due_live due)) other (same ▸ isX)
      · exact absurd here other

end

end

/-- In every run in which the processor becomes idle, and a process forks, only while the
    registers are those that were saved, each process gets its registers back. Exactly the
    operations that meet the condition leave the saved registers right. -/
theorem fpu_preserved {s s' : State} {idle : Ptr} {kstack loop : Word} {es : List Op} {files : Files}
    (booted : s.Booted)
    (run : Run (When (Recorded Step record) fun x e => x.1.KeepsFpu e)
      (s.initScheduler idle kstack loop, fun _ => none) es (s', files)) :
    ∀ e s'', Step s' e s'' →
      (s'.schedulerCall e ≠ none → ∀ p x, s''.currentProcess = some p → p ≠ s''.idleProcess →
        files.record s' e p = some x → s''.fpu = x) ∧
      (s''.Saved (files.record s' e) ↔ s'.KeepsFpu e) := by
  have start : (s.initScheduler idle kstack loop).Saved fun _ => none :=
    ⟨rfl, fun p _ _ _ _ x isX => by cases isX⟩
  obtain ⟨inv, held, saved⟩ := recorded_invariant (P := State.Saved) booted run
    (fun s files e s' inv held saved step => (step.saved_iff inv held saved).mpr) start
  exact fun e s'' step => ⟨fun call p x isCurrent notIdle => step.resumes inv held saved call isCurrent notIdle,
    step.saved_iff inv held saved⟩

/-- The first process computes, waits for input while nothing else can run, and goes on with
    registers it had before. -/
theorem registers_lost : ∃ s files,
    Run (Recorded Step record) (State.blank.initScheduler 1 0x4000 0, fun _ => none)
      [.createProcessFromElf 2 ⟨0x400000, 0x7fff0000, 0x8000, 0x2000, 0⟩ true, .startInit 2,
        .compute 5, .ttyBlock 0, .scheduler true zeroFrame, .ttyInputChar 0 10,
        .scheduler true zeroFrame] (s, files) ∧
    s.currentProcess = some 2 ∧ files 2 = some 5 ∧ s.fpu ≠ 5 := by
  refine (run_recorded record _ _ _
    (fun x => decide (x.1.currentProcess = some 2 ∧ x.2 2 = some 5 ∧ x.1.fpu ≠ 5)) ?_).elim fun x found =>
      ⟨x.1, x.2, found.1, of_decide_eq_true found.2⟩
  decide +kernel

/-- The first process and a kernel thread take turns, and then it forks. -/
def turnsAndFork : List Op :=
  [.createProcessFromElf 2 ⟨0x400000, 0x7fff0000, 0x8000, 0x2000, 0⟩ true, .startInit 2,
    .kthreadCreate 4 0xc000 0x100, .compute 5, .scheduler true zeroFrame, .scheduler true zeroFrame,
    .scheduler true zeroFrame, .cloneProcess 2 3 zeroFrame (some ⟨0x3000, 0x10000⟩)]

theorem forked_registers_preserved : ∃ s files,
    Run (When (Recorded Step record) fun x e => x.1.KeepsFpu e)
      (State.blank.initScheduler 1 0x4000 0, fun _ => none) turnsAndFork (s, files) ∧
    ∀ e s', Step s e s' →
      (s.schedulerCall e ≠ none → ∀ p x, s'.currentProcess = some p → p ≠ s'.idleProcess →
        files.record s e p = some x → s'.fpu = x) ∧
      (s'.Saved (files.record s e) ↔ s.KeepsFpu e) := by
  obtain ⟨⟨s, files⟩, run, -⟩ := run_recorded_when record (fun x e => x.1.KeepsFpu e)
    (blank.initScheduler 1 0x4000 0) (fun _ => none) turnsAndFork (fun _ => true)
    (by decide +kernel)
  exact ⟨s, files, run, fpu_preserved blank_booted run⟩

end Znu.Sched
