import Znu.Sched.Processor

/-! # The base of `FS`

A process has a thread pointer: the one it has set, that of its image, or after a fork its
parent's. It is in a register of the processor that only `arch_prctl`, `set_thread_area` and the
jump to a new image write, and the jump clears it. So the register is right as long as the images
have no thread pointer and the processes that get the processor have the same one.
-/

namespace Znu.Sched

open Machine Kernel Lib State Option Function

/-- The thread pointer of each process. -/
abbrev Pointers := Ptr → Word

/-- The thread pointers after an operation in the state `s`. -/
def Pointers.record (s : State) (e : Op) (own : Pointers) : Pointers :=
  match e with
  | .createProcessFromElf p image _ => Function.update own p image.tlsBase
  | .cloneProcess src p _ _ => Function.update own p (own src)
  | .exec image => fun p => if s.currentProcess = some p then image.tlsBase else own p
  | .setFs addr => fun p => if s.currentProcess = some p ∧ isUserAddr addr then addr else own p
  | _ => own

variable {s s' : State} {e : Op} {own : Pointers}

namespace State

variable {p : Ptr}

/-- A process that runs in user mode when it has the processor. -/
def isUser (s : State) (p : Ptr) : Bool := p != s.idleProcess && !(s.threads p).isKthread

/-- The register has the thread pointer of the current process. -/
def OwnFs (s : State) (own : Pointers) : Prop :=
  ∀ p, s.currentProcess = some p → s.isUser p = true → s.fsBase = own p

/-- The register has the thread pointer of the process that gets the processor, and the jump to an
    image leaves that of the image. -/
structure KeepsFs (s : State) (own : Pointers) (e : Op) : Prop where
  calls : ∀ s₁ regs i next, s.schedulerCall e = some (s₁, regs) → s₁.choice = some i →
    s₁.processes i = some next → s₁.isUser next = true → s₁.fsBase = own next
  starts : ∀ p, e = .startInit p → s.isUser p = true → own p = userFsBase
  execs : ∀ image p, e = .exec image → s.currentProcess = some p → s.isUser p = true →
    image.fsBase = image.tlsBase

/-- The condition for a jump to user mode. -/
def jumpKeepsFs (s : State) (own : Pointers) : Op → Bool
  | .startInit p => decide (s.isUser p = true → own p = userFsBase)
  | .exec image =>
    s.currentProcess.all fun p => decide (s.isUser p = true → image.fsBase = image.tlsBase)
  | _ => true

instance (s : State) (own : Pointers) (e : Op) : Decidable (s.KeepsFs own e) :=
  decidable_of_iff (((s.schedulerCall e).all fun call => call.1.choice.all fun i =>
      (call.1.processes i).all fun next =>
        decide (call.1.isUser next = true → call.1.fsBase = own next)) ∧
      s.jumpKeepsFs own e = true) (by
    simp only [Option.all_eq_true, decide_eq_true_eq, Prod.forall]
    refine ⟨fun ⟨calls, jumps⟩ =>
        ⟨fun s₁ regs i next call chosen listed => calls s₁ regs call i chosen next listed, ?_, ?_⟩,
      fun keeps => ⟨fun s₁ regs call i chosen next listed =>
        keeps.calls s₁ regs i next call chosen listed, ?_⟩⟩
    · rintro p rfl
      exact of_decide_eq_true jumps
    · rintro image p rfl isCurrent
      simp only [jumpKeepsFs, Option.all_eq_true, decide_eq_true_eq] at jumps
      exact jumps p isCurrent
    · cases e
      case startInit p => exact decide_eq_true (keeps.starts p rfl)
      case exec image =>
        simp only [jumpKeepsFs, Option.all_eq_true, decide_eq_true_eq]
        exact fun p isCurrent => keeps.execs image p rfl isCurrent
      all_goals rfl)

end State

section

lemma State.KeepsFs.silent (silent : e.switches = false) : s.KeepsFs own e where
  calls s₁ regs i next call := by cases (schedulerCall_none silent).symm.trans call
  starts p isStart _ := by
    subst isStart
    cases silent
  execs image p isExec _ _ := by
    subst isExec
    cases silent

lemma Step.isUser (inv : s.Inv) (step : Step s e s') {p : Ptr} (inside : p ∈ s.allocated) :
    s'.isUser p = s.isUser p := by
  rw [State.isUser, (step.tabled inv).idle, (step.effect inside).isKthread, State.isUser]

lemma State.Called.isUser {s₁ : State} (called : s.Called e s₁) (p : Ptr) : s₁.isUser p = s.isUser p := by
  rw [State.isUser, called.idle, called.isKthread, State.isUser]

/-- Only the current process changes its thread pointer. -/
lemma Pointers.record_old (step : Step s e s') {p : Ptr} (inside : p ∈ s.allocated)
    (silent : e.writesFs = false) : own.record s e p = own p := by
  have other : ∀ q, s.Fresh q → p ≠ q := fun q fresh here => fresh.1 (here ▸ inside)
  cases step.stepped with
  | createProcessFromElf fresh | cloneProcess fresh => exact update_of_ne (other _ fresh) ..
  | exec | setFs | startInit => cases silent
  | _ => rfl

lemma Step.ownFs_setFs {addr : Word} (ownFs : s.OwnFs own) (step : Step s (.setFs addr) s') :
    s'.OwnFs (own.record s (.setFs addr)) := by
  cases step.stepped
  intro p isCurrent user
  rw [setFs] at isCurrent user ⊢
  simp only [Pointers.record]
  split at isCurrent
  next valid =>
    have isP : s.currentProcess = some p := isCurrent
    rw [if_pos valid, if_pos ⟨isP, valid⟩]
  rename_i invalid
  rw [if_neg invalid, if_neg fun both => invalid both.2]
  rw [if_neg invalid] at user
  exact ownFs p isCurrent user

/-- The register stays right exactly if the condition is met. -/
lemma Step.ownFs_iff (inv : s.Inv) (held : s.Held) (ownFs : s.OwnFs own) (step : Step s e s') :
    s'.OwnFs (own.record s e) ↔ s.KeepsFs own e := by
  have goes : e.writesFs = false → s'.fsBase = s.fsBase →
      (s'.currentProcess = s.currentProcess ∨ s'.currentProcess = none) →
      s'.OwnFs (own.record s e) := by
    intro silent fsBase current p isCurrent user
    rcases current with same | isNone
    · have before := same.symm.trans isCurrent
      rw [Pointers.record_old step (held p before) silent, fsBase]
      exact ownFs p before (step.isUser inv (held p before) ▸ user)
    · cases isNone.symm.trans isCurrent
  cases step.processor inv held with
  | calm quiet calm =>
    refine iff_of_true ?_ (.silent quiet)
    cases writes : e.writesFs with
    | false => exact goes writes (calm.fsBase writes) (.inl calm.current)
    | true =>
      cases e
      case exec | startInit => cases quiet
      case setFs => exact step.ownFs_setFs ownFs
      all_goals cases writes
  | starts q isStart isNone inside notIdle current _ _ fsBase =>
    subst isStart
    have same := step.isUser inv inside
    constructor
    · refine fun after => ⟨fun s₁ regs i next call => (by cases call), fun p isStart user => ?_, nofun⟩
      cases isStart
      rw [← fsBase]
      exact (after q current (same.trans user)).symm
    · intro keeps p isCurrent user
      cases current.symm.trans isCurrent
      rw [fsBase]
      exact (keeps.starts q rfl (same.symm.trans user)).symm
  | execs q image isExec isCurrent _ current _ fsBase =>
    subst isExec
    have same := step.isUser inv (held q isCurrent)
    have recorded : own.record s (.exec image) q = image.tlsBase := if_pos isCurrent
    constructor
    · refine fun after => ⟨fun s₁ regs i next call => (by cases call), nofun, fun _ p isExec isP user => ?_⟩
      cases isExec
      cases isCurrent.symm.trans isP
      rw [← fsBase, ← recorded]
      exact after q (current.trans isCurrent) (same.trans user)
    · intro keeps p isP user
      cases isCurrent.symm.trans (current.symm.trans isP)
      rw [fsBase, recorded]
      exact keeps.execs image q rfl isCurrent (same.symm.trans user)
  | calls s₁ regs call called turn fsBase =>
    have silent : e.writesFs = false := by
      cases e <;> first | rfl | cases call
    have starts : ∀ p, e = .startInit p → s.isUser p = true → own p = userFsBase := by
      rintro p rfl
      cases call
    have execs : ∀ image p, e = .exec image → s.currentProcess = some p → s.isUser p = true →
        image.fsBase = image.tlsBase := by
      rintro image p rfl
      cases call
    have same := fsBase.trans called.fsBase
    cases turn with
    | goesOn _ current _ _ _ chosen =>
      have before : s'.currentProcess = s.currentProcess ∨ s'.currentProcess = none := by
        rw [current]
        exact called.current.imp id And.left
      refine iff_of_true (goes silent same before) ⟨fun s₂ regs₂ i next call₂ isI listed user => ?_, starts, execs⟩
      cases call.symm.trans call₂
      have isNext := chosen i next isI listed
      have isCurrent : s.currentProcess = some next := by
        rcases called.current with kept | ⟨isNone, -⟩
        · exact kept.symm.trans isNext
        · cases isNone.symm.trans isNext
      rw [called.fsBase]
      exact ownFs next isCurrent (called.isUser next ▸ user)
    | idles idles current =>
      refine iff_of_true (fun p isCurrent user => ?_) ⟨fun s₂ regs₂ i next call₂ isI => ?_, starts, execs⟩
      · cases current.symm.trans isCurrent
        simp [State.isUser, (step.tabled inv).idle, called.idle] at user
      · cases call.symm.trans call₂
        exact absurd idles (choice_not_idles isI)
    | switches i next isI listed _ switched =>
      have inside : next ∈ s.allocated := called.allocated ▸ called.inv.listed i next listed
      have kept : own.record s e next = own next := Pointers.record_old step inside silent
      have user : s'.isUser next = s₁.isUser next :=
        (step.isUser inv inside).trans (called.isUser next).symm
      constructor
      · refine fun after => ⟨fun s₂ regs₂ j other call₂ isJ atJ isUser => ?_, starts, execs⟩
        cases call.symm.trans call₂
        cases isI.symm.trans isJ
        cases listed.symm.trans atJ
        rw [← fsBase, ← kept]
        exact after next switched.current (user.trans isUser)
      · intro keeps p isCurrent isUser
        cases switched.current.symm.trans isCurrent
        rw [fsBase, kept]
        exact keeps.calls s₁ regs i next call isI listed (user.symm.trans isUser)

end

/-- In every run in which every process that gets the processor has the thread pointer that is
    in the register, and no image has one that is lost, the register has that of the current process. Exactly the operations that
    meet the condition keep it so. -/
theorem thread_pointer_kept {s s' : State} {idle : Ptr} {kstack loop : Word} {es : List Op}
    {own own' : Pointers} (booted : s.Booted)
    (run : Run (When (Recorded Step Pointers.record) fun x e => x.1.KeepsFs x.2 e)
      (s.initScheduler idle kstack loop, own) es (s', own')) :
    s'.OwnFs own' ∧ ∀ e s'', Step s' e s'' → (s''.OwnFs (own'.record s' e) ↔ s'.KeepsFs own' e) := by
  obtain ⟨inv, held, ownFs⟩ := recorded_invariant (P := State.OwnFs) booted run
    (fun s own e s' inv held ownFs step => (step.ownFs_iff inv held ownFs).mpr)
    fun p isCurrent => by cases isCurrent
  exact ⟨ownFs, fun e s'' step => step.ownFs_iff inv held ownFs⟩

/-- The first process has set its thread pointer and forks. -/
def setAndFork : List Op :=
  [.createProcessFromElf 2 ⟨0x400000, 0x7fff0000, 0x8000, 0x2000, 0⟩ true, .startInit 2,
    .setFs 0x5000, .cloneProcess 2 3 zeroFrame (some ⟨0x3000, 0x10000⟩), .scheduler true zeroFrame,
    .scheduler true zeroFrame]

/-- The child sets another thread pointer, and the parent goes on with it. -/
theorem thread_pointer_mixed : ∃ s own,
    Run (Recorded Step Pointers.record) (blank.initScheduler 1 0x4000 0, fun _ => 0)
      (setAndFork ++ [.setFs 0x6000, .scheduler true zeroFrame]) (s, own) ∧
    s.currentProcess = some 2 ∧ own 2 = 0x5000 ∧ s.fsBase = 0x6000 := by
  obtain ⟨⟨s, own⟩, run, passed⟩ := run_recorded Pointers.record
    (blank.initScheduler 1 0x4000 0) (fun _ => 0)
    (setAndFork ++ [.setFs 0x6000, .scheduler true zeroFrame])
    (fun x => decide (x.1.currentProcess = some 2 ∧ x.2 2 = 0x5000 ∧ x.1.fsBase = 0x6000))
    (by decide +kernel)
  exact ⟨s, own, run, of_decide_eq_true passed⟩

theorem forked_thread_pointer_kept : ∃ s own,
    Run (When (Recorded Step Pointers.record) fun x e => x.1.KeepsFs x.2 e)
      (blank.initScheduler 1 0x4000 0, fun _ => 0) setAndFork (s, own) ∧ s.OwnFs own ∧
      ∀ e s', Step s e s' → (s'.OwnFs (own.record s e) ↔ s.KeepsFs own e) := by
  obtain ⟨⟨s, own⟩, run, -⟩ := run_recorded_when Pointers.record (fun x e => x.1.KeepsFs x.2 e)
    (blank.initScheduler 1 0x4000 0) (fun _ => 0) setAndFork (fun _ => true) (by decide +kernel)
  exact ⟨s, own, run, thread_pointer_kept blank_booted run⟩

end Znu.Sched
