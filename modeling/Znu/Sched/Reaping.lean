import Znu.Sched.Processor

/-! # Every exit is reported once

A history is kept of the codes with which processes ended and of what `do_wait` returned. A
process that has ended stays in the table with its code until its parent, or the one that has
adopted it, waits for it. Then its pid is not used again.
-/

namespace Znu.Sched

open Machine Kernel Lib State List Nat Function

structure History where
  /-- the pids of the processes that have ended, with their codes -/
  exits : List (Word × CInt)
  /-- what the calls of `do_wait` have returned -/
  waits : List CInt

open History

/-- The history after an operation in the state `s`. -/
def History.record (s : State) (e : Op) (h : History) : History where
  exits :=
    match e.exits with
    | some code => (s.currentPid, code) :: h.exits
    | none => h.exits
  waits :=
    match e with
    | .doWait pid status => (s.doWait pid status).2.result :: h.waits
    | _ => h.waits

variable {s s' : State} {p q : Ptr} {e : Op} {code : CInt}

namespace State

variable {pid : CInt} {status : Word}

/-- `do_wait` with a positive result has found a child that has ended. -/
lemma doWait_positive
    (positive : 0 < (s.doWait pid status).2.result.toInt) :
    ∃ parent child, s.currentProcess = some parent ∧ s.exitedChild parent pid = some child ∧
      (s.doWait pid status).2.result = (s.threads child).pid.setWidth 32 ∧
      (s.doWait pid status).2.stored =
        if status = 0 then none else some (s.threads child).exitCode := by
  have zero : ¬ 0 < (0 : CInt).toInt := by decide
  have negative : ¬ 0 < (-1 : CInt).toInt := by decide
  cases isCurrent : s.currentProcess with
  | none =>
    simp only [doWait, isCurrent] at positive
    exact absurd positive negative
  | some parent =>
    cases found : s.exitedChild parent pid with
    | some child =>
      refine ⟨parent, child, rfl, found, ?_⟩
      simp only [doWait, isCurrent, found, and_self]
    | none =>
      simp only [doWait, isCurrent, found] at positive
      split at positive
      · exact absurd positive zero
      · exact absurd positive negative

lemma doWait_frees {parent child : Ptr}
    (isCurrent : s.currentProcess = some parent) (found : s.exitedChild parent pid = some child)
    (notIdle : child ≠ s.idleProcess) : child ∉ (s.doWait pid status).1.allocated := by
  simp only [doWait, isCurrent, found, modify, reap_eq, if_neg notIdle]
  exact Finset.notMem_erase child _

lemma currentPid_eq (isCurrent : s.currentProcess = some p) : s.currentPid = (s.threads p).pid := by
  rw [currentPid, isCurrent]
  rfl

end State

/-- Who ends itself has not ended before, and has ended after. -/
lemma Step.exits (step : Step s e s') (held : s.Held)
    (exits : e.exits = some code) :
    ∃ p, s.currentProcess = some p ∧ (s.threads p).state ≠ .zombie ∧ (s'.threads p).state = .zombie := by
  cases step.stepped <;> simp only [Op.exits, reduceCtorEq, Option.some.injEq] at exits
  case doExit p c _ acts done =>
    obtain ⟨isCurrent, notIdle, live⟩ := acts
    obtain ⟨gentle, -, allocated⟩ := endProcess_gentle s p p c
    rw [modify_self] at gentle
    obtain ⟨s₂, gentle', ran, -⟩ := scheduler_ran done (allocated ▸ held p isCurrent)
    exact ⟨p, isCurrent, live, ran.zombie (gentle'.zombie (gentle.zombie rfl))⟩
  case kthreadExit p c acts =>
    obtain ⟨isCurrent, notIdle, live⟩ := acts
    refine ⟨p, isCurrent, live, ?_⟩
    simp only [kthreadExit, isCurrent]
    split
    · rw [modify_self]
    rename_i parent _
    by_cases here : p = parent
    · rw [← here, modify_self, modify_self]
      rfl
    · rw [modify_of_ne here, modify_self]

namespace State

/-- How the history and the processes belong together. -/
structure Past (s : State) (h : History) : Prop where
  idle : (s.threads s.idleProcess).pid = 0
  recorded : ∀ p ∈ s.allocated, (s.threads p).state = .zombie →
    ((s.threads p).pid, (s.threads p).exitCode) ∈ h.exits
  exited : ∀ x ∈ h.exits, x.1.toNat < s.nextPid.toNat ∧
    ∀ p ∈ s.allocated, (s.threads p).pid = x.1 → (s.threads p).state = .zombie
  once : ∀ x ∈ h.exits, ∀ y ∈ h.exits, x.1 = y.1 → x = y
  waited : ∀ v ∈ h.waits, 0 < v.toInt → ∃ pid : Word, v = pid.setWidth 32 ∧
    pid.toNat < s.nextPid.toNat ∧ ∀ p ∈ s.allocated, (s.threads p).pid ≠ pid

/-- A pid that no process has is not given to another. -/
lemma Tabled.pid_ne (tabled : Tabled s e s') (step : Step s e s') {pid : Word}
    (below : pid.toNat < s.nextPid.toNat) (unused : ∀ p ∈ s.allocated, (s.threads p).pid ≠ pid) :
    ∀ p ∈ s'.allocated, (s'.threads p).pid ≠ pid := by
  intro p inside same
  rcases tabled.born p inside with old | newborn
  · exact unused p old ((step.effect old).pid ▸ same)
  rw [newborn.pid] at same
  rw [same] at below
  exact lt_irrefl _ below

namespace Past

variable {h : History}

section

variable (past : s.Past h)

include past

lemma step_recorded (inv : s.Inv) (step : Step s e s') :
    ∀ p ∈ s'.allocated, (s'.threads p).state = .zombie →
      ((s'.threads p).pid, (s'.threads p).exitCode) ∈ (h.record s e).exits := by
  intro p inside ended
  rcases (step.tabled inv).born p inside with old | newborn
  · have effect := step.effect old
    rw [effect.pid]
    rcases effect.ended ended with before | ⟨isCurrent, exits⟩
    · rw [(effect.zombie before).2]
      have listed := past.recorded p old before
      simp only [record]
      split
      · exact mem_cons_of_mem _ listed
      · exact listed
    · simp only [record, exits, currentPid_eq isCurrent]
      exact mem_cons_self
  · cases newborn.state.symm.trans ended

lemma step_exited (inv : s.Inv) (held : s.Held) (step : Step s e s') :
    ∀ x ∈ (h.record s e).exits, x.1.toNat < s'.nextPid.toNat ∧
      ∀ p ∈ s'.allocated, (s'.threads p).pid = x.1 → (s'.threads p).state = .zombie := by
  have tabled := step.tabled inv
  have later : ∀ x : Word × CInt, x.1.toNat < s.nextPid.toNat →
      (∀ p ∈ s.allocated, (s.threads p).pid = x.1 → (s'.threads p).state = .zombie) →
      x.1.toNat < s'.nextPid.toNat ∧
        ∀ p ∈ s'.allocated, (s'.threads p).pid = x.1 → (s'.threads p).state = .zombie := by
    intro x below ended
    refine ⟨below.trans_le tabled.nextPid, fun p inside same => ?_⟩
    rcases tabled.born p inside with old | newborn
    · exact ended p old ((step.effect old).pid ▸ same)
    · rw [← same, newborn.pid] at below
      exact absurd below (lt_irrefl _)
  have before : ∀ x ∈ h.exits, x.1.toNat < s'.nextPid.toNat ∧
      ∀ p ∈ s'.allocated, (s'.threads p).pid = x.1 → (s'.threads p).state = .zombie := by
    intro x listed
    obtain ⟨below, ended⟩ := past.exited x listed
    exact later x below fun p inside same => ((step.effect inside).zombie (ended p inside same)).1
  intro x listed
  cases exits : e.exits with
  | none =>
    simp only [record, exits] at listed
    exact before x listed
  | some code =>
    obtain ⟨p, isCurrent, -, ended⟩ := step.exits held exits
    simp only [record, exits, mem_cons, currentPid_eq isCurrent] at listed
    rcases listed with rfl | old
    · refine later _ (inv.below p (held p isCurrent)) fun q inside same => ?_
      rw [inv.distinct q inside p (held p isCurrent) same]
      exact ended
    · exact before x old

lemma step_once (held : s.Held) (step : Step s e s') :
    ∀ x ∈ (h.record s e).exits, ∀ y ∈ (h.record s e).exits, x.1 = y.1 → x = y := by
  cases exits : e.exits with
  | none =>
    simp only [record, exits]
    exact past.once
  | some code =>
    obtain ⟨p, isCurrent, live, -⟩ := step.exits held exits
    have isNew : ∀ y ∈ h.exits, (s.threads p).pid ≠ y.1 := fun y listed same =>
      live ((past.exited y listed).2 p (held p isCurrent) same)
    simp only [record, exits, mem_cons, currentPid_eq isCurrent]
    rintro x (rfl | oldX) y (rfl | oldY) same
    · rfl
    · exact absurd same (isNew y oldY)
    · exact absurd same.symm (isNew x oldX)
    · exact past.once x oldX y oldY same

lemma step_waited (inv : s.Inv) (step : Step s e s') :
    ∀ v ∈ (h.record s e).waits, 0 < v.toInt → ∃ pid : Word, v = pid.setWidth 32 ∧
      pid.toNat < s'.nextPid.toNat ∧ ∀ p ∈ s'.allocated, (s'.threads p).pid ≠ pid := by
  have tabled := step.tabled inv
  have before : ∀ v ∈ h.waits, 0 < v.toInt → ∃ pid : Word, v = pid.setWidth 32 ∧
      pid.toNat < s'.nextPid.toNat ∧ ∀ p ∈ s'.allocated, (s'.threads p).pid ≠ pid := by
    intro v listed positive
    obtain ⟨pid, isV, below, unused⟩ := past.waited v listed positive
    exact ⟨pid, isV, below.trans_le tabled.nextPid, tabled.pid_ne step below unused⟩
  intro v listed positive
  cases e
  case doWait pid status =>
    rcases mem_cons.mp listed with rfl | old
    · obtain ⟨parent, child, isParent, found, isV, -⟩ := doWait_positive positive
      obtain ⟨⟨i, atI⟩, -⟩ := exitedChild_some found
      have inside := inv.listed i child atI
      have notIdle : child ≠ s.idleProcess := by
        rintro rfl
        rw [isV, past.idle] at positive
        exact absurd positive (by decide)
      cases step.stepped
      have below := inv.below child inside
      refine ⟨_, isV, below.trans_le tabled.nextPid, fun p there same => ?_⟩
      rcases tabled.born p there with old | newborn
      · rw [(step.effect old).pid] at same
        rw [inv.distinct p old child inside same] at there
        exact doWait_frees isParent found notIdle there
      · rw [← same, newborn.pid] at below
        exact absurd below (lt_irrefl _)
    · exact before v old positive
  all_goals exact before v listed positive

lemma step (inv : s.Inv) (held : s.Held) (step : Step s e s') : s'.Past (h.record s e) where
  idle := by
    rw [(step.tabled inv).idle, (step.effect inv.idle).pid]
    exact past.idle
  recorded := past.step_recorded inv step
  exited := past.step_exited inv held step
  once := past.step_once held step
  waited := past.step_waited inv step

end

end Past

lemma initScheduler_past (s : State) (idle : Ptr) (kstack loop : Word) (booted : s.Booted) :
    (s.initScheduler idle kstack loop).Past ⟨[], []⟩ where
  idle := by
    simp only [initScheduler, update_self]
    rfl
  recorded p inside ended := by
    simp only [initScheduler, booted.empty, Finset.mem_insert, Finset.notMem_empty, or_false] at inside
    simp only [initScheduler, inside, update_self] at ended
    cases ended
  exited x listed := by cases listed
  once x listed := by cases listed
  waited v listed := by cases listed

end State

/-- In every run, a positive result of `do_wait` is the pid of a child of the caller that has
    ended, with the code it ended with, and no earlier call has returned it. -/
theorem wait_reaps_once {s s' : State} {idle : Ptr} {kstack loop : Word} {es : List Op}
    {h : History} (booted : s.Booted)
    (run : Run (Recorded Step record) (s.initScheduler idle kstack loop, ⟨[], []⟩) es (s', h))
    (small : s'.nextPid.toNat ≤ 2 ^ 31) (pid : CInt) (status : Word)
    (positive : 0 < (s'.doWait pid status).2.result.toInt) :
    ∃ i child code, s'.processes i = some child ∧
      (s'.threads child).parentPid = s'.currentPid ∧
      (s'.doWait pid status).2.result = (s'.threads child).pid.setWidth 32 ∧
      ((s'.threads child).pid, code) ∈ h.exits ∧
      (∀ c, ((s'.threads child).pid, c) ∈ h.exits → c = code) ∧
      (s'.doWait pid status).2.stored = (if status = 0 then none else some code) ∧
      (s'.doWait pid status).2.result ∉ h.waits := by
  have keeps : ∀ x e y, (x.1.Inv ∧ x.1.Held ∧ x.1.Past x.2) → Recorded Step record x e y →
      y.1.Inv ∧ y.1.Held ∧ y.1.Past y.2 := by
    rintro x e y ⟨inv, held, past⟩ ⟨step, recorded⟩
    exact ⟨step.inv inv, step.held inv held, recorded ▸ past.step inv held step⟩
  have reached := run.invariant keeps ⟨booted.inv idle kstack loop,
    s.initScheduler_held idle kstack loop, s.initScheduler_past idle kstack loop booted⟩
  obtain ⟨inv, held, past⟩ : s'.Inv ∧ s'.Held ∧ s'.Past h := reached
  obtain ⟨parent, child, isParent, found, isV, stored⟩ := doWait_positive positive
  obtain ⟨⟨i, atI⟩, isChild, ended⟩ := exitedChild_some found
  have inside := inv.listed i child atI
  have listed := past.recorded child inside ended
  refine ⟨i, child, _, atI, isChild.trans (currentPid_eq isParent).symm, isV, listed,
    fun c listed' => ?_, stored, fun again => ?_⟩
  · exact congrArg Prod.snd (past.once _ listed' _ listed rfl)
  obtain ⟨other, isV', below, unused⟩ := past.waited _ again positive
  refine unused child inside (BitVec.eq_of_toNat_eq ?_)
  have same := congrArg BitVec.toNat (isV.symm.trans isV')
  have below' := inv.below child inside
  rw [BitVec.toNat_setWidth, BitVec.toNat_setWidth, Nat.mod_eq_of_lt (by omega),
    Nat.mod_eq_of_lt (by omega)] at same
  exact same

/-- The first process finds the child that has ended with 7. -/
theorem child_reaped : ∃ s h,
    Run (Recorded Step record) (State.blank.initScheduler 1 0x4000 0, ⟨[], []⟩)
      (forkExitWait.take 6) (s, h) ∧ ∃ i child code, s.processes i = some child ∧
      (s.threads child).parentPid = s.currentPid ∧
      (s.doWait (-1) 0x5000).2.result = (s.threads child).pid.setWidth 32 ∧
      ((s.threads child).pid, code) ∈ h.exits ∧
      (∀ c, ((s.threads child).pid, c) ∈ h.exits → c = code) ∧
      (s.doWait (-1) 0x5000).2.stored = some code ∧
      (s.doWait (-1) 0x5000).2.result ∉ h.waits := by
  obtain ⟨⟨s, h⟩, run, passed⟩ := run_recorded record (blank.initScheduler 1 0x4000 0)
    ⟨[], []⟩ (forkExitWait.take 6) (fun x => decide (x.1.nextPid.toNat ≤ 2 ^ 31 ∧
      0 < (x.1.doWait (-1) 0x5000).2.result.toInt)) (by decide +kernel)
  obtain ⟨small, positive⟩ := of_decide_eq_true passed
  exact ⟨s, h, run, wait_reaps_once blank_booted run small (-1) 0x5000 positive⟩

/-- In every run, once a process has ended, whatever has its pid is a process that has ended with the
    same code: it never runs again, and its pid is not given to another. -/
theorem ended_for_good {s s' : State} {idle : Ptr} {kstack loop : Word} {es : List Op}
    {h : History} (booted : s.Booted)
    (run : Run (Recorded Step record) (s.initScheduler idle kstack loop, ⟨[], []⟩) es (s', h)) :
    ∀ x ∈ h.exits, ∀ p ∈ s'.allocated, (s'.threads p).pid = x.1 →
      (s'.threads p).state = .zombie ∧ (s'.threads p).exitCode = x.2 := by
  have keeps : ∀ x e y, (x.1.Inv ∧ x.1.Held ∧ x.1.Past x.2) → Recorded Step record x e y →
      y.1.Inv ∧ y.1.Held ∧ y.1.Past y.2 := by
    rintro x e y ⟨inv, held, past⟩ ⟨step, recorded⟩
    exact ⟨step.inv inv, step.held inv held, recorded ▸ past.step inv held step⟩
  obtain ⟨-, -, past⟩ := run.invariant keeps ⟨booted.inv idle kstack loop,
    s.initScheduler_held idle kstack loop, s.initScheduler_past idle kstack loop booted⟩
  intro x listed p inside same
  have ended := (past.exited x listed).2 p inside same
  exact ⟨ended, congrArg Prod.snd (past.once _ (past.recorded p inside ended) x listed same)⟩

/-- The child, which has pid 2, has ended with 7. -/
theorem child_ended : ∃ x, Run (Recorded Step record) (blank.initScheduler 1 0x4000 0, ⟨[], []⟩)
    (forkExitWait.take 6) x ∧ ∀ p ∈ x.1.allocated, (x.1.threads p).pid = 2 →
      (x.1.threads p).state = .zombie ∧ (x.1.threads p).exitCode = 7 := by
  obtain ⟨x, run, passed⟩ := run_recorded record (blank.initScheduler 1 0x4000 0)
    ⟨[], []⟩ (forkExitWait.take 6) (fun x => decide ((2, 7) ∈ x.2.exits)) (by decide +kernel)
  exact ⟨x, run, ended_for_good blank_booted run _ (of_decide_eq_true passed)⟩

end Znu.Sched
