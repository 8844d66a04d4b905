import Znu.Sched.Processor

/-! # The address space of the current process

The scheduler loads the page table of the process it switches to, unless the one that loses
the processor has the same. It loads none for the idle process. So the page table of the
current process is loaded as long as the processor becomes idle only from the kernel's own.
-/

namespace Znu.Sched

open Machine Kernel Lib

namespace State

variable {s s' : State} {e : Op}

/-- `CR3` has the page table of the current process. -/
def Loaded (s : State) : Prop := ∀ p, s.currentProcess = some p → s.cr3 = (s.threads p).pml4

/-- If the scheduler is called and no process can run, then the page table of the idle process
    is loaded already. -/
def LeavesSpace (s : State) (e : Op) : Prop := ∀ s₁ regs, s.schedulerCall e = some (s₁, regs) →
  s₁.Idles regs → s₁.cr3 = (s₁.threads s₁.idleProcess).pml4

instance (s : State) (e : Op) : Decidable (s.LeavesSpace e) :=
  decidable_of_iff ((s.schedulerCall e).all fun call =>
      decide (call.1.Idles call.2 → call.1.cr3 = (call.1.threads call.1.idleProcess).pml4)) (by
    simp only [LeavesSpace, Option.all_eq_true, decide_eq_true_eq, Prod.forall])

lemma Loaded.of_areas (loaded : s.Loaded) (held : s.Held) (areas : Areas s s')
    (current : s'.currentProcess = s.currentProcess ∨ s'.currentProcess = none)
    (cr3 : s'.cr3 = s.cr3) : s'.Loaded := by
  intro p isCurrent
  rcases current with same | isNone
  · have before := same.symm.trans isCurrent
    rw [cr3, (areas p (held p before)).1]
    exact loaded p before
  · cases isNone.symm.trans isCurrent

lemma Switched.loaded {next : Ptr} (switched : Switched s s' next) (loaded : s.Loaded)
    (inside : next ∈ s.allocated) : s'.Loaded := by
  intro p isCurrent
  cases switched.current.symm.trans isCurrent
  rw [switched.spaces next inside]
  rcases switched.cr3 with new | ⟨old, isOld, same, kept⟩
  · exact new
  · rw [kept, ← same]
    exact loaded old isOld

end State

/-- The page table of the current process stays loaded exactly if the condition is met. -/
lemma Step.loaded_iff {s s' : State} {e : Op} (inv : s.Inv) (held : s.Held) (loaded : s.Loaded)
    (step : Step s e s') : s'.Loaded ↔ s.LeavesSpace e := by
  have silent : s.schedulerCall e = none → s.LeavesSpace e := fun isNone s₁ regs call => by
    cases isNone.symm.trans call
  cases step.processor inv held with
  | calm quiet calm =>
    exact iff_of_true (loaded.of_areas held calm.areas (.inl calm.current) calm.cr3)
      (silent (State.schedulerCall_none quiet))
  | starts p isStart _ inside _ current cr3 _ _ areas =>
    subst isStart
    refine iff_of_true (fun q isCurrent => ?_) (silent rfl)
    cases current.symm.trans isCurrent
    exact cr3.trans (areas p inside).1.symm
  | execs p image isExec isCurrent _ current cr3 _ threads =>
    subst isExec
    refine iff_of_true (fun q isCurrent' => ?_) (silent rfl)
    cases (current.trans isCurrent).symm.trans isCurrent'
    rw [cr3, threads, Function.update_self]
    rfl
  | calls s₁ regs call called turn =>
    have before : s₁.Loaded := loaded.of_areas held called.areas (called.current.imp id And.left) called.cr3
    have busy : ¬ s₁.Idles regs → s.LeavesSpace e := fun notIdle s₂ regs₂ call₂ idles => by
      cases call.symm.trans call₂
      exact absurd idles notIdle
    cases turn with
    | goesOn notIdle current cr3 _ areas =>
      exact iff_of_true (before.of_areas called.held areas (.inl current) cr3) (busy notIdle)
    | switches i next chosen listed _ switched =>
      exact iff_of_true (switched.loaded before (called.inv.listed i next listed))
        (busy (State.choice_not_idles chosen))
    | idles idles current cr3 _ areas =>
      have same := (areas _ called.inv.idle).1
      constructor
      · intro after s₂ regs₂ call₂ _
        cases call.symm.trans call₂
        rw [← cr3, ← same]
        exact after _ current
      · intro leaves p isCurrent
        cases current.symm.trans isCurrent
        rw [cr3, same]
        exact leaves s₁ regs call idles

/-- In every run in which the processor becomes idle only with the kernel's page table, the page
    table of the current process is loaded, and exactly the operations that do so keep it. -/
theorem address_space_loaded {s s' : State} {idle : Ptr} {kstack loop : Word} {es : List Op}
    (booted : s.Booted)
    (run : Run (When Step State.LeavesSpace) (s.initScheduler idle kstack loop) es s') :
    s'.Loaded ∧ ∀ e s'', Step s' e s'' → (s''.Loaded ↔ s'.LeavesSpace e) := by
  have start : (s.initScheduler idle kstack loop).Loaded := fun p isCurrent => by cases isCurrent
  obtain ⟨inv, held, loaded⟩ := run_invariant booted run
    (fun s e s' inv held loaded step => (step.loaded_iff inv held loaded).mpr) start
  exact ⟨loaded, fun e s'' step => step.loaded_iff inv held loaded⟩

/-- The first process waits for input, and nothing else can run. -/
def readAlone (t : TtyId) : List Op :=
  [.createProcessFromElf 2 ⟨0x400000, 0x7fff0000, 0x8000, 0x2000, 0⟩ true, .startInit 2,
    .ttyBlock t, .scheduler true zeroFrame]

/-- The idle process runs on the page table of the first process. -/
theorem idle_in_user_space : ∃ s, Run Step (State.blank.initScheduler 1 0x4000 0) (readAlone 0) s ∧
    s.currentProcess = some s.idleProcess ∧ s.cr3 = 0x2000 ∧
    (s.threads s.idleProcess).pml4 = 0x1000 ∧ ¬ s.Loaded := by
  obtain ⟨s, run, passed⟩ := run_of_check (State.blank.initScheduler 1 0x4000 0) (readAlone 0)
    (fun s => decide (s.currentProcess = some s.idleProcess ∧ s.cr3 = 0x2000 ∧
      (s.threads s.idleProcess).pml4 = 0x1000)) (by decide +kernel)
  obtain ⟨current, cr3, space⟩ := of_decide_eq_true passed
  refine ⟨s, run, current, cr3, space, fun loaded => ?_⟩
  have same := loaded _ current
  rw [cr3, space] at same
  cases same

theorem forked_spaces_loaded :
    ∃ s, Run (When Step State.LeavesSpace) (State.blank.initScheduler 1 0x4000 0) forkExitWait s ∧
      s.Loaded ∧ ∀ e s', Step s e s' → (s'.Loaded ↔ s.LeavesSpace e) := by
  obtain ⟨s, run, -⟩ := run_when State.LeavesSpace (State.blank.initScheduler 1 0x4000 0) forkExitWait
    (fun _ => true) (by decide +kernel)
  exact ⟨s, run, address_space_loaded State.blank_booted run⟩

end Znu.Sched
