import Znu.Sched.Reaping

/-! # Processes that have ended and their parents

A process that has ended stays in the table until its parent waits for it, so the parent has
to be there. `do_exit` gives the children of the process to the first one; `kthread_exit` does
not, and kernel threads have no parent.
-/

namespace Znu.Sched

open Machine Kernel Lib State Option

variable {s s' : State} {p q z : Ptr} {e : Op}

namespace State

variable {code : CInt}

/-- Every process in the table that has ended has a parent there that has not. -/
def Reapable (s : State) : Prop := ∀ i z, s.processes i = some z → (s.threads z).state = .zombie →
  ∃ j q, s.processes j = some q ∧ (s.threads q).state ≠ .zombie ∧
    (s.threads q).pid = (s.threads z).parentPid

/-- A process in the table other than `p` has this pid and has not ended. -/
def LivePid (s : State) (p : Ptr) (pid : Word) : Prop := ∃ j q, s.processes j = some q ∧ q ≠ p ∧
  (s.threads q).state ≠ .zombie ∧ (s.threads q).pid = pid

/-- What becomes of the pid of a parent when `p` ends itself: `do_exit` replaces that of `p` by
    that of the first process. -/
def heir (s : State) (e : Op) (p : Ptr) (parent : Word) : Word :=
  match e.adopts, s.initProcess with
  | true, some init =>
    if p ≠ init ∧ parent = (s.threads p).pid then (s.threads init).pid else parent
  | _, _ => parent

/-- The process that ends itself and those of its children that have ended are left to a
    process that can wait for them. -/
structure LeavesParents (s : State) (e : Op) : Prop where
  own : ∀ p i, e.exits ≠ none → s.currentProcess = some p → s.processes i = some p →
    s.LivePid p (s.heir e p (s.threads p).parentPid)
  children : ∀ p i z, e.exits ≠ none → s.currentProcess = some p → s.processes i = some z →
    (s.threads z).state = .zombie → (s.threads z).parentPid = (s.threads p).pid →
    s.LivePid p (s.heir e p (s.threads p).pid)

/-- A process is put into the table before it ends. -/
def AddsLive (s : State) (e : Op) : Prop := ∀ p, e = .addProcess p → (s.threads p).state ≠ .zombie

instance (s : State) (p : Ptr) (pid : Word) : Decidable (s.LivePid p pid) :=
  decidable_of_iff (∃ j, ((s.processes j).any fun q =>
      decide (q ≠ p ∧ (s.threads q).state ≠ .zombie ∧ (s.threads q).pid = pid)) = true) (by
    simp only [LivePid, Option.any_eq_true, decide_eq_true_eq])

instance (s : State) (e : Op) : Decidable (s.LeavesParents e) :=
  decidable_of_iff (e.exits ≠ none → (s.currentProcess.all fun p =>
      decide ((∀ i, s.processes i = some p → s.LivePid p (s.heir e p (s.threads p).parentPid)) ∧
        ∀ i, (s.processes i).all fun z => decide ((s.threads z).state = .zombie →
          (s.threads z).parentPid = (s.threads p).pid →
          s.LivePid p (s.heir e p (s.threads p).pid)))) = true) (by
    simp only [Option.all_eq_true, decide_eq_true_eq]
    exact ⟨fun meets => ⟨fun p i exits isP => (meets exits p isP).1 i,
        fun p i z exits isP => (meets exits p isP).2 i z⟩,
      fun leaves exits p isP => ⟨fun i => leaves.own p i exits isP,
        fun i z => leaves.children p i z exits isP⟩⟩)

/-- `AddsLive`, computed. -/
def addsLive (s : State) : Op → Bool
  | .addProcess p => decide ((s.threads p).state ≠ .zombie)
  | _ => true

instance (s : State) (e : Op) : Decidable (s.AddsLive e) :=
  decidable_of_iff (s.addsLive e = true) (by cases e <;> simp [addsLive, AddsLive])

/-! ## Parents -/

lemma adoptChildren_parent (s : State) (exiting : Ptr) (code : CInt) {i : Slot} (listed : s.processes i = some z) :
    ((s.adoptChildren exiting).threads z).parentPid =
      s.heir (.doExit code) exiting (s.threads z).parentPid := by
  rw [adoptChildren, heir, Op.adopts]
  split
  next isNone => rw [isNone]
  rename_i init isInit
  rw [isInit]
  by_cases isFirst : exiting = init
  · rw [if_pos isFirst]
    exact (if_neg fun other => other.1 isFirst).symm
  have inside : s.inTable z = true := inTable_iff.mpr ⟨i, listed⟩
  have moved : ((s.modifyAll (Thread.lift
      (System.adoptInto (s.threads exiting).pid (s.threads init).pid))).threads z).parentPid =
      if exiting ≠ init ∧ (s.threads z).parentPid = (s.threads exiting).pid then
        (s.threads init).pid else (s.threads z).parentPid := by
    simp only [modifyAll, inside, if_true, Thread.lift, System.adoptInto, isFirst, ne_eq,
      not_false_eq_true, true_and]
    split <;> rfl
  rw [if_neg isFirst]
  simp only
  split
  · rw [← moved]
    by_cases here : z = init
    · rw [here, modify_self]
    · rw [modify_of_ne here]
  · exact moved

lemma endProcess_parent (s : State) (p : Ptr) (code : CInt) {i : Slot}
    (listed : s.processes i = some z) :
    ((s.endProcess p code).threads z).parentPid = s.heir (.doExit code) p (s.threads z).parentPid := by
  have fields : ∀ q, ((s.modify p fun t => { t with exitCode := code, state := .zombie }).threads q).pid =
      (s.threads q).pid ∧
      ((s.modify p fun t => { t with exitCode := code, state := .zombie }).threads q).parentPid =
        (s.threads q).parentPid := by
    intro q
    by_cases here : q = p
    · rw [here, modify_self]
      exact ⟨rfl, rfl⟩
    · rw [modify_of_ne here]
      exact ⟨rfl, rfl⟩
  have adopted := adoptChildren_parent
    (s.modify p fun t => { t with exitCode := code, state := .zombie }) p code (i := i) listed
  simp only [heir, fields] at adopted
  rw [endProcess]
  split
  next parent _ => exact (modify_mild Mild.wakeParent z parent).parentPid.trans adopted
  · exact adopted

end State

section

variable {i : Slot}

section

variable (inv : s.Inv)

include inv

section

variable (step : Step s e s')

include step

/-- The parent of a process in the table after the current process has ended itself. -/
lemma Step.exit_parent (exits : e.exits ≠ none)
    (isCurrent : s.currentProcess = some p) (listed : s.processes i = some z) :
    (s'.threads z).parentPid = s.heir e p (s.threads z).parentPid := by
  have inside := inv.listed i z listed
  cases adopts : e.adopts with
  | false =>
    rw [(step.effect inside).parentPid adopts, heir, adopts]
  | true =>
    cases step.stepped <;> simp only [Op.adopts, reduceCtorEq] at adopts
    case doExit q code _ acts done =>
      cases isCurrent.symm.trans acts.current
      obtain ⟨s₂, mild, ran, -⟩ := scheduler_ran done ((Admin.endProcess s p code).allocated ▸ inside)
      rw [← endProcess_parent s p code listed, ran.fields]
      exact mild.parentPid

/-- The table is the same after the current process has ended itself. -/
lemma Step.exit_table (exits : e.exits ≠ none) : s'.processes i = some z ↔ s.processes i = some z := by
  have tabled := step.tabled inv
  constructor
  · intro atI
    rcases tabled.enters i z atI with before | isAdd | isStart | newborn
    · exact before
    · exact absurd (isAdd ▸ rfl : e.exits = none) exits
    · exact absurd (isStart ▸ rfl : e.exits = none) exits
    · have creates := newborn.creates
      cases e <;> simp only [Op.exits, Op.creates, reduceCtorEq, ne_eq, not_true_eq_false] at exits creates
  · intro atI
    refine (tabled.stays i z atI).resolve_right ?_
    rintro ⟨pid, status, parent, isWait, -⟩
    exact exits (isWait ▸ rfl)

/-- Only the current process has ended that had not before. -/
lemma Step.exit_live (held : s.Held) (exits : e.exits ≠ none)
    (isCurrent : s.currentProcess = some p) (listed : s.processes i = some z) :
    (s'.threads z).state = .zombie ↔ (s.threads z).state = .zombie ∨ z = p := by
  have effect := step.effect (inv.listed i z listed)
  constructor
  · intro ended
    refine (effect.ended ended).imp id fun ⟨isZ, _⟩ => ?_
    exact some.inj (isZ.symm.trans isCurrent)
  · rintro (ended | rfl)
    · exact (effect.zombie ended).1
    · obtain ⟨code, isCode⟩ := ne_none_iff_exists'.mp exits
      obtain ⟨q, isQ, -, ended⟩ := step.exits held isCode
      cases isCurrent.symm.trans isQ
      exact ended

lemma Step.livePid_iff (held : s.Held) (exits : e.exits ≠ none)
    (isCurrent : s.currentProcess = some p) (pid : Word) : s.LivePid p pid ↔
      ∃ j q, s'.processes j = some q ∧ (s'.threads q).state ≠ .zombie ∧ (s'.threads q).pid = pid := by
  constructor
  · rintro ⟨j, q, atJ, other, live, isPid⟩
    refine ⟨j, q, (step.exit_table inv exits).mpr atJ, fun ended => ?_, ?_⟩
    · exact ((step.exit_live inv held exits isCurrent atJ).mp ended).elim live other
    · rw [(step.effect (inv.listed j q atJ)).pid]
      exact isPid
  · rintro ⟨j, q, atJ, live, isPid⟩
    have before := (step.exit_table inv exits).mp atJ
    rw [ne_eq, step.exit_live inv held exits isCurrent before, not_or] at live
    rw [(step.effect (inv.listed j q before)).pid] at isPid
    exact ⟨j, q, before, live.2, live.1, isPid⟩

/-- An operation that ends no process leaves the parents where they are. -/
lemma Step.reapable_of_not_exits (reapable : s.Reapable)
    (adds : s.AddsLive e) (exits : e.exits = none) : s'.Reapable := by
  have tabled := step.tabled inv
  have stays : e.adopts = false := by
    cases e <;> first | rfl | cases exits
  have ended : ∀ p ∈ s.allocated, (s'.threads p).state = .zombie → (s.threads p).state = .zombie := by
    intro p inside after
    refine ((step.effect inside).ended after).resolve_right fun ⟨_, isExit⟩ => ?_
    cases exits.symm.trans isExit
  intro i z atI after
  rcases tabled.enters i z atI with before | isAdd | isStart | newborn
  · have inside := inv.listed i z before
    obtain ⟨j, q, atJ, live, isPid⟩ := reapable i z before (ended z inside after)
    have inside' := inv.listed j q atJ
    refine ⟨j, q, ?_, fun dead => live (ended q inside' dead), ?_⟩
    · refine (tabled.stays j q atJ).resolve_right ?_
      rintro ⟨pid, status, parent, -, -, found⟩
      exact live (exitedChild_some found).2.2
    · rw [(step.effect inside').pid, (step.effect inside).parentPid stays]
      exact isPid
  · subst isAdd
    cases step.stepped with
    | addProcess inside => exact absurd (ended z inside after) (adds z rfl)
  · subst isStart
    cases step.stepped with
    | startInit _ inside _ ready => cases ready.symm.trans (ended z inside after)
  · cases newborn.state.symm.trans after

/-- The processes that have ended can be waited for exactly if the condition is met. -/
lemma Step.reapable_iff (held : s.Held) (reapable : s.Reapable)
    (adds : s.AddsLive e) : s'.Reapable ↔ s.LeavesParents e := by
  cases exits : e.exits with
  | none =>
    exact iff_of_true (step.reapable_of_not_exits inv reapable adds exits)
      ⟨fun p i some => absurd exits some, fun p i z some => absurd exits some⟩
  | some code =>
    have some : e.exits ≠ none := by simp [exits]
    obtain ⟨p, isCurrent, -⟩ := step.exits held exits
    have livePid := step.livePid_iff inv held some isCurrent
    constructor
    · intro after
      refine ⟨fun q i _ isQ atI => ?_, fun q i z _ isQ atI ended isChild => ?_⟩
      · cases isCurrent.symm.trans isQ
        rw [livePid, ← step.exit_parent inv some isCurrent atI]
        exact after i p ((step.exit_table inv some).mpr atI)
          ((step.exit_live inv held some isCurrent atI).mpr (.inr rfl))
      · cases isCurrent.symm.trans isQ
        rw [livePid, ← isChild, ← step.exit_parent inv some isCurrent atI]
        exact after i z ((step.exit_table inv some).mpr atI)
          ((step.exit_live inv held some isCurrent atI).mpr (.inl ended))
    · intro leaves i z atI ended
      have before := (step.exit_table inv some).mp atI
      rw [step.exit_parent inv some isCurrent before, ← livePid]
      rcases (step.exit_live inv held some isCurrent before).mp ended with dead | rfl
      · by_cases isChild : (s.threads z).parentPid = (s.threads p).pid
        · rw [isChild]
          exact leaves.children p i z some isCurrent before dead isChild
        have same : s.heir e p (s.threads z).parentPid = (s.threads z).parentPid := by
          rw [heir]
          split
          · exact if_neg fun both => isChild both.2
          · rfl
        obtain ⟨j, q, atJ, live, isPid⟩ := reapable i z before dead
        rw [same]
        refine ⟨j, q, atJ, fun here => ?_, live, isPid⟩
        rw [here] at isPid
        exact isChild isPid.symm
      · exact leaves.own z i some isCurrent before

end

end

end

/-- In every run in which processes are left to a parent that can wait for them, every process
    that has ended has such a parent. Exactly the operations that meet the condition keep it so. -/
theorem zombies_reapable {s s' : State} {idle : Ptr} {kstack loop : Word} {es : List Op}
    (booted : s.Booted)
    (run : Run (When Step fun s e => s.AddsLive e ∧ s.LeavesParents e)
      (s.initScheduler idle kstack loop) es s') :
    s'.Reapable ∧ ∀ e s'', Step s' e s'' → s'.AddsLive e → (s''.Reapable ↔ s'.LeavesParents e) := by
  obtain ⟨inv, held, reapable⟩ := run_invariant (P := State.Reapable) booted run
    (fun s e s' inv held reapable step meets =>
      (step.reapable_iff inv held reapable meets.1).mpr meets.2)
    fun i z atI => by cases atI
  exact ⟨reapable, fun e s'' step => step.reapable_iff inv held reapable⟩

/-- A process ends itself by `do_exit` only, while the first process and its parent live on. -/
def Adopted (s : State) (e : Op) : Prop := ∀ p, e.exits ≠ none → s.currentProcess = some p →
  e.adopts = true ∧ s.LivePid p (s.threads p).parentPid ∧
    ∃ init, s.initProcess = some init ∧ p ≠ init ∧ s.LivePid p (s.threads init).pid

lemma Adopted.leavesParents (adopted : Adopted s e) : s.LeavesParents e := by
  refine ⟨fun p i exits isP _ => ?_, fun p i z exits isP _ _ _ => ?_⟩ <;>
    obtain ⟨adopts, parent, init, isInit, other, lives⟩ := adopted p exits isP <;>
    simp only [heir, adopts, isInit]
  · split
    · exact lives
    · exact parent
  · rwa [if_pos ⟨other, trivial⟩]

/-- Without `kthread_exit` every process that has ended can be waited for while the first lives. -/
lemma adopted_reapable {idle : Ptr} {kstack loop : Word} {es : List Op} (booted : s.Booted)
    (run : Run (When Step fun s e => s.AddsLive e ∧ Adopted s e) (s.initScheduler idle kstack loop) es s') :
    s'.Reapable :=
  (run_invariant booted run (fun _ _ _ inv held reapable step meets =>
    (step.reapable_iff inv held reapable meets.1).mpr meets.2.leavesParents) fun i z atI => by cases atI).2.2

/-- A kernel thread ends itself. Its parent is not in the table. -/
theorem kthread_not_reapable : ∃ s, Run Step (State.blank.initScheduler 1 0x4000 0)
    [.createProcessFromElf 2 ⟨0x400000, 0x7fff0000, 0x8000, 0x2000, 0⟩ true, .startInit 2,
      .kthreadCreate 4 0xc000 0x100, .scheduler true zeroFrame, .scheduler true zeroFrame,
      .kthreadExit 0] s ∧
    s.processes 1 = some 4 ∧ (s.threads 4).state = .zombie ∧
    ∀ j q, s.processes j = some q → (s.threads q).pid ≠ (s.threads 4).parentPid := by
  refine (run_of_check _ _
    (fun s => decide (s.processes 1 = some 4 ∧ (s.threads 4).state = .zombie ∧
      ∀ j, (s.processes j).all fun q => decide ((s.threads q).pid ≠ (s.threads 4).parentPid)))
    ?_).imp fun s found => ⟨found.1, ?_⟩
  · decide +kernel
  · obtain ⟨listed, ended, none⟩ := of_decide_eq_true found.2
    refine ⟨listed, ended, fun j q atJ => ?_⟩
    exact of_decide_eq_true ((all_eq_true ..).mp (none j) q atJ)

theorem forked_zombies_reapable : ∃ s,
    Run (When Step fun s e => s.AddsLive e ∧ s.LeavesParents e)
      (State.blank.initScheduler 1 0x4000 0) forkExitWait s ∧ s.Reapable ∧
      ∀ e s', Step s e s' → s.AddsLive e → (s'.Reapable ↔ s.LeavesParents e) := by
  obtain ⟨s, run, -⟩ := run_when (fun s e => s.AddsLive e ∧ s.LeavesParents e)
    (blank.initScheduler 1 0x4000 0) forkExitWait (fun _ => true) (by decide +kernel)
  exact ⟨s, run, zombies_reapable blank_booted run⟩

end Znu.Sched
