import Znu.Sched.Effect

/-! # What an operation does to the table

A process is added when it is created, and taken out when its parent waits for it. All other
operations leave the table as it is.
-/

namespace Znu.Sched

open Machine Kernel Lib Function Option State Finset

/-- The process that an operation creates gets this as its parent's pid. -/
def Op.parentOf (s : State) : Op → Word
  | .createProcessFromElf _ _ _ => s.currentPid
  | .cloneProcess src _ _ _ => (s.threads src).pid
  | _ => 0

/-- The address of the process that an operation creates. -/
def Op.creates : Op → Option Ptr
  | .createProcessFromElf p _ _ => some p
  | .kthreadCreate p _ _ => some p
  | .cloneProcess _ p _ _ => some p
  | _ => none

def Op.makesKthread : Op → Bool
  | .kthreadCreate _ _ _ => true
  | _ => false

namespace State

variable {s s' s₁ : State} {p q : Ptr} {i : Slot} {e : Op}

/-- The operation is a `wait` that finds the process at `p`. -/
def Reaps (s : State) (e : Op) (p : Ptr) : Prop :=
  ∃ pid status parent, e = .doWait pid status ∧ s.currentProcess = some parent ∧
    s.exitedChild parent pid = some p

/-- The operation has created the process at `p`. -/
structure Newborn (s : State) (e : Op) (s' : State) (p : Ptr) : Prop where
  creates : e.creates = some p
  fresh : p ∉ s.allocated
  state : (s'.threads p).state = .ready
  pid : (s'.threads p).pid = s.nextPid
  parent : (s'.threads p).parentPid = e.parentOf s
  isKthread : (s'.threads p).isKthread = e.makesKthread
  current : s'.currentProcess = s.currentProcess

/-- What an operation does to the table. -/
structure Tabled (s : State) (e : Op) (s' : State) : Prop where
  idle : s'.idleProcess = s.idleProcess
  stays : ∀ i p, s.processes i = some p → s'.processes i = some p ∨ s.Reaps e p
  enters : ∀ i p, s'.processes i = some p → s.processes i = some p ∨
    e = .addProcess p ∨ e = .startInit p ∨ s.Newborn e s' p
  alive : ∀ p ∈ s.allocated, p ∈ s'.allocated ∨ s.Reaps e p
  nextPid : s.nextPid.toNat ≤ s'.nextPid.toNat
  born : ∀ p ∈ s'.allocated, p ∈ s.allocated ∨ s.Newborn e s' p

/-- The table and what it lists are the same. -/
structure Admin (s s' : State) : Prop where
  processes : s'.processes = s.processes
  allocated : s'.allocated = s.allocated
  idle : s'.idleProcess = s.idleProcess
  nextPid : s.nextPid.toNat ≤ s'.nextPid.toNat

namespace Admin

lemma refl (s : State) : Admin s s := ⟨rfl, rfl, rfl, le_rfl⟩

lemma trans {s₁ : State} (first : Admin s s₁) (second : Admin s₁ s') : Admin s s' :=
  ⟨second.processes.trans first.processes, second.allocated.trans first.allocated,
    second.idle.trans first.idle, first.nextPid.trans second.nextPid⟩

lemma of_kept {R : Thread → Thread → Prop} (kept : Kept R s s') : Admin s s' :=
  ⟨kept.processes, kept.allocated, kept.idle, kept.nextPid ▸ le_rfl⟩

lemma tabled (admin : Admin s s') : Tabled s e s' where
  idle := admin.idle
  stays _ _ atI := .inl (admin.processes ▸ atI)
  enters _ _ atI := .inl (admin.processes ▸ atI)
  alive _ inside := .inl (admin.allocated ▸ inside)
  nextPid := admin.nextPid
  born _ inside := .inl (admin.allocated ▸ inside)

lemma switchSpace (s : State) (next : Ptr) : Admin s (s.switchSpace next) := by
  rw [switchSpace_eq]
  exact ⟨rfl, rfl, rfl, le_rfl⟩

variable {frame : Frame} {regs : Option Frame}

lemma outcome (outcome : Outcome s regs s' frame) : Admin s s' := by
  cases outcome with
  | nothing => exact refl s
  | stay | idle | same => exact ⟨rfl, rfl, rfl, le_rfl⟩
  | switch i next =>
    have switched := (of_kept (saveFpu_kept s)).trans (switchSpace _ next)
    exact ⟨switched.processes, switched.allocated, switched.idle, switched.nextPid⟩

lemma scheduler (done : s.scheduler regs = some (s', frame)) : Admin s s' :=
  (of_kept (Mildly.prepared s regs)).trans (outcome (schedule_outcome done))

lemma endProcess (s : State) (exiting : Ptr) (code : CInt) : Admin s (s.endProcess exiting code) := by
  obtain ⟨threads, same, -⟩ := endProcess_threads s exiting code
  rw [same]
  exact ⟨rfl, rfl, rfl, le_rfl⟩

lemma ttyInputChar (s : State) (t : TtyId) (c : UInt8) : Admin s (s.ttyInputChar t c) := by
  obtain ⟨ttys, threads, same, -⟩ := ttyInputChar_threads s t c
  rw [same]
  exact ⟨rfl, rfl, rfl, le_rfl⟩

end Admin

lemma nextPid_le (room : s.nextPid.toNat + 1 < 2 ^ 64) : s.nextPid.toNat ≤ (s.nextPid + 1).toNat := by
  exact (Nat.le_succ _).trans_eq (Nat.mod_eq_of_lt room).symm

lemma addProcess_cases (s : State) (p : Ptr) : (s.addProcess p).1 = s ∨
    ∃ i, s.processes i = none ∧ (s.addProcess p).1 = { s with
      processes := update s.processes i (some p)
      processCount := s.processCount + 1 } := by
  rw [addProcess]
  split
  · exact .inl rfl
  split
  · exact .inl rfl
  next i found => exact .inr ⟨i, processTableFindFreeSlot_some found, rfl⟩

lemma addProcess_listed (s : State) (p : Ptr) :
    (∀ i q, s.processes i = some q → (s.addProcess p).1.processes i = some q) ∧
      (∀ i q, (s.addProcess p).1.processes i = some q → s.processes i = some q ∨ q = p) ∧
      (s.addProcess p).1.allocated = s.allocated ∧
      (s.addProcess p).1.idleProcess = s.idleProcess ∧ (s.addProcess p).1.nextPid = s.nextPid := by
  rcases addProcess_cases s p with same | ⟨i, free, result⟩
  · rw [same]
    exact ⟨fun _ _ => id, fun _ _ => .inl, rfl, rfl, rfl⟩
  rw [result]
  refine ⟨fun j q atJ => ?_, fun j q atJ => ?_, rfl, rfl, rfl⟩
  · have other : j ≠ i := fun here => by
      rw [here, free] at atJ
      cases atJ
    exact (update_of_ne other ..).trans atJ
  · by_cases here : j = i
    · simp only [here, update_self, some.injEq] at atJ
      exact .inr atJ.symm
    · simp only [update_of_ne here] at atJ
      exact .inl atJ

lemma Tabled.addProcess (enter : e = .addProcess p ∨ e = .startInit p)
    (processes : s'.processes = (s.addProcess p).1.processes)
    (allocated : s'.allocated = s.allocated) (idle : s'.idleProcess = s.idleProcess)
    (nextPid : s'.nextPid = s.nextPid) : Tabled s e s' := by
  obtain ⟨kept, listed, -⟩ := addProcess_listed s p
  refine ⟨idle, fun i q atI => .inl (processes ▸ kept i q atI), fun i q atI => ?_,
    fun q inside => .inl (allocated ▸ inside), nextPid ▸ le_rfl,
    fun q inside => .inl (allocated ▸ inside)⟩
  rcases listed i q (processes ▸ atI) with before | rfl
  · exact .inl before
  · exact .inr (enter.imp id .inl)

lemma Tabled.create (isNew : s.Newborn e s' p) (before : s₁.processes = s.processes)
    (allocated₁ : s₁.allocated = insert p s.allocated) (idle₁ : s₁.idleProcess = s.idleProcess)
    (nextPid₁ : s.nextPid.toNat ≤ s₁.nextPid.toNat) (result : s' = (s₁.addProcess p).1) :
    Tabled s e s' := by
  obtain ⟨kept, listed, allocated, idle, nextPid⟩ := addProcess_listed s₁ p
  rw [← result] at kept listed allocated idle nextPid
  rw [before] at kept listed
  rw [allocated₁] at allocated
  refine ⟨idle.trans idle₁, fun i q atI => .inl (kept i q atI), fun i q atI => ?_,
    fun q inside => .inl (allocated ▸ mem_insert_of_mem inside), nextPid ▸ nextPid₁,
    fun q inside => ?_⟩
  · rcases listed i q atI with old | rfl
    · exact .inl old
    · exact .inr (.inr (.inr isNew))
  · rw [allocated] at inside
    rcases mem_insert.mp inside with rfl | old
    · exact .inr isNew
    · exact .inl old

lemma processRemove_processes (inv : s.Inv) (p : Ptr) (i : Slot) (q : Ptr) :
    (s.processRemove p).processes i = some q ↔ s.processes i = some q ∧ q ≠ p := by
  rw [processRemove]
  split
  next missing =>
    refine ⟨fun atI => ⟨atI, fun here => ?_⟩, And.left⟩
    exact processTableFind_none missing i (here ▸ atI)
  rename_i j found
  have taken := processTableFind_some found
  simp only
  by_cases here : i = j
  · subst here
    rw [update_self, taken]
    simp only [reduceCtorEq, some.injEq, false_iff, not_and, not_not]
    exact Eq.symm
  rw [update_of_ne here]
  refine ⟨fun atI => ⟨atI, fun isP => here ?_⟩, And.left⟩
  exact inv.once i j p (isP ▸ atI) taken

variable {pid : CInt} {status : Word}

lemma Tabled.doWait (inv : s.Inv) : Tabled s (.doWait pid status) (s.doWait pid status).1 := by
  rw [State.doWait]
  split
  · exact (Admin.refl s).tabled
  rename_i parent isCurrent
  split
  next child found =>
    have reaps : s.Reaps (.doWait pid status) child := ⟨pid, status, parent, rfl, isCurrent, found⟩
    have allocated : ∀ q, q ∈ (if child = s.idleProcess then s.allocated else s.allocated.erase child) →
        q ∈ s.allocated := by
      intro q inside
      split at inside
      · exact inside
      · exact mem_of_mem_erase inside
    rw [reap_eq]
    refine ⟨rfl, fun i q atI => ?_, fun i q atI => ?_, fun q inside => ?_, le_rfl,
      fun q inside => .inl (allocated q inside)⟩
    · by_cases here : q = child
      · exact .inr (here ▸ reaps)
      · exact .inl ((processRemove_processes inv child i q).mpr ⟨atI, here⟩)
    · exact .inl ((processRemove_processes inv child i q).mp atI).1
    by_cases here : q = child
    · exact .inr (here ▸ reaps)
    left
    split
    · exact inside
    · exact mem_erase.mpr ⟨here, inside⟩
  · split
    · exact Admin.tabled ⟨rfl, rfl, rfl, le_rfl⟩
    · exact (Admin.refl s).tabled

/-- A process that was waited for is not in the table any more. -/
lemma doWait_gone (inv : s.Inv) {parent child : Ptr}
    (isCurrent : s.currentProcess = some parent) (found : s.exitedChild parent pid = some child)
    (i : Slot) : (s.doWait pid status).1.processes i ≠ some child := by
  simp only [doWait, isCurrent, found, modify, reap_eq]
  exact (inv.processRemove child).2 i

end State

lemma Step.tabled {s s' : State} {e : Op} (inv : s.Inv) (step : Step s e s') : s.Tabled e s' := by
  cases step.stepped with
  | @addProcess p =>
    obtain ⟨-, -, allocated, idle, nextPid⟩ := addProcess_listed s p
    exact .addProcess (.inl rfl) rfl allocated idle nextPid
  | @createProcessFromElf p image loaded fresh =>
    obtain ⟨fresh, room⟩ := fresh
    cases loaded with
    | false => exact Admin.tabled ⟨rfl, rfl, rfl, nextPid_le room⟩
    | true =>
      refine ⟨rfl, fun i q => .inl, fun i q => .inl, fun q => .inl ∘ mem_insert_of_mem,
        nextPid_le room, fun q inside => ?_⟩
      rcases mem_insert.mp inside with rfl | old
      · have created : (s.createProcessFromElf q image true).threads q = _ :=
          update_self ..
        exact .inr ⟨rfl, fresh, by rw [created]; rfl, by rw [created]; rfl, by rw [created]; rfl,
          by rw [created]; rfl, rfl⟩
      · exact .inl old
  | @startInit p =>
    obtain ⟨-, -, allocated, idle, nextPid⟩ := addProcess_listed s p
    exact .addProcess (.inr rfl) rfl allocated idle nextPid
  | @kthreadCreate p kstack trampoline fresh =>
    have created : (s.kthreadCreate p kstack trampoline).threads p =
        kthread s.nextPid kstack trampoline s.kernelPml4 := by
      rw [kthreadCreate, addProcess_threads]
      exact update_self ..
    refine .create ⟨rfl, fresh.1, by rw [created]; rfl, by rw [created]; rfl,
      by rw [created]; rfl, by rw [created]; rfl, addProcess_current ..⟩ ?_ ?_ ?_
      (nextPid_le fresh.2) rfl
    all_goals rfl
  | @cloneProcess p src regs copy fresh =>
    rw [cloneProcess]
    split
    · exact (Admin.refl s).tabled
    cases copy with
    | none => exact Admin.tabled ⟨rfl, rfl, rfl, nextPid_le fresh.2⟩
    | some copy =>
      refine .create ⟨rfl, fresh.1, ?_, ?_, ?_, ?_, addProcess_current ..⟩ ?_ ?_ ?_ (nextPid_le fresh.2) rfl
      case refine_5 | refine_6 | refine_7 => rfl
      all_goals
        simp only [addProcess_threads, allocate, update_self]
        rfl
  | @scheduler tick regs _ _ done =>
    exact ((Admin.of_kept (Mildly.ticked s tick)).trans (.scheduler done)).tabled
  | doWait => exact .doWait inv
  | @doExit q code _ _ _ done =>
    exact ((Admin.endProcess s q code).trans (.scheduler done)).tabled
  | kthreadSleepMs acts | kthreadExit acts =>
    simp only [kthreadSleepMs, kthreadExit, acts.current]
    split <;> exact Admin.tabled ⟨rfl, rfl, rfl, le_rfl⟩
  | ttyBlock acts | exec acts =>
    simp only [ttyBlock, exec, acts.current]
    exact Admin.tabled ⟨rfl, rfl, rfl, le_rfl⟩
  | @ttyInputChar t c => exact (Admin.ttyInputChar s t c).tabled
  | setFs =>
    rw [setFs]
    split <;> exact Admin.tabled ⟨rfl, rfl, rfl, le_rfl⟩
  | kthreadWake | raise | ttyGet | ttySet | compute | scribble =>
    exact Admin.tabled ⟨rfl, rfl, rfl, le_rfl⟩

end Znu.Sched
