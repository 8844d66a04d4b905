import Znu.Sched.Frame

/-! # Slots and pointers

The scheduler is modelled twice: on a table of processes (`Kernel.System`), and on a table of
pointers to them. As long as no process is in two slots and the idle process is in none, the
second model does what the first does, and keeps the rest of `process_t`.
-/

namespace Znu.Sched

open Machine Kernel Option

namespace State

def pointer (s : State) : Task → Option Ptr
  | .idle => some s.idleProcess
  | .slot i => s.processes i

def process (s : State) (p : Ptr) : Process := (s.threads p).toProcess

/-- The table of processes is what the table of pointers points to. -/
structure Shows (s : State) (t : System) : Prop where
  task : ∀ τ, t.task τ = (s.pointer τ).map s.process
  once : ∀ τ τ' p, s.pointer τ = some p → s.pointer τ' = some p → τ = τ'
  currentProcess : t.currentProcess.map s.pointer = s.currentProcess.map some
  rrCursor : s.rrCursor = t.rrCursor
  timerTicks : s.timerTicks = t.timerTicks
  rsp0 : s.rsp0 = t.rsp0
  cpuContextStack : s.cpuContextStack = t.cpuContextStack

lemma task_modify (t : System) (τ τ' : Task) (g : Process → Process) :
    (t.modify τ g).task τ' = if τ' = τ then (t.task τ').map g else t.task τ' := by
  cases τ <;> cases τ' <;> simp only [System.modify, System.modifySlot, System.task, reduceCtorEq, if_false,
    if_true, map_some, Function.update_apply, Task.slot.injEq]
  split <;> simp_all

variable {s : State} {t : System} {p : Ptr} {i : Slot} {τ : Task}

section

variable (shows : Shows s t)

include shows

lemma Shows.processes (i : Slot) : t.processes i = (s.processes i).map s.process := shows.task (.slot i)

lemma Shows.idleProcess : t.idleProcess = s.process s.idleProcess := some.inj (shows.task .idle)

lemma Shows.apart (i : Slot) : s.processes i ≠ some s.idleProcess := by
  intro listed
  cases shows.once (.slot i) .idle _ listed rfl

lemma Shows.current (isP : s.currentProcess = some p) : ∃ τ, t.currentProcess = some τ ∧ s.pointer τ = some p := by
  have both := shows.currentProcess
  rw [isP] at both
  exact map_eq_some_iff.mp both

lemma Shows.current_none : s.currentProcess = none ↔ t.currentProcess = none := by
  have both := shows.currentProcess
  cases isTask : t.currentProcess <;> cases isP : s.currentProcess <;> simp_all

lemma Shows.current_iff (listed : s.pointer τ = some p) :
    s.currentProcess = some p ↔ t.currentProcess = some τ := by
  constructor
  · intro isP
    obtain ⟨τ', current, points⟩ := shows.current isP
    rw [current, shows.once τ' τ p points listed]
  · intro current
    have both := shows.currentProcess
    rw [current] at both
    simpa [listed] using both.symm

/-! ## Writes to processes -/

section

variable {f : Thread → Thread} {g : Process → Process} (same : ∀ u : Thread, (f u).toProcess = g u.toProcess)

include same

lemma Shows.modify (points : s.pointer τ = some p) : Shows (s.modify p f) (t.modify τ g) := by
  have task : ∀ τ', (t.modify τ g).task τ' = (s.pointer τ').map (s.modify p f).process := by
    intro τ'
    rw [task_modify, shows.task]
    by_cases here : τ' = τ
    · rw [if_pos here, here, points]
      refine congrArg some ((same _).symm.trans ?_)
      rw [process, modify_self]
    · rw [if_neg here]
      refine map_congr fun q points' => ?_
      have other : q ≠ p := fun eq => here (shows.once τ' τ p (eq ▸ points') points)
      rw [process, process, modify_of_ne other]
  cases τ <;> exact { shows with task := task }

lemma Shows.modifyAll : Shows (s.modifyAll f) (t.modifyAll g) := by
  refine { shows with task := fun τ => ?_ }
  cases τ with
  | idle =>
    have outside : ¬s.inTable s.idleProcess := by simpa [inTable_iff] using shows.apart
    refine (shows.task .idle).trans (congrArg some ?_)
    exact congrArg Thread.toProcess (if_neg outside).symm
  | slot i =>
    change (t.processes i).map g = (s.processes i).map _
    rw [shows.processes, map_map]
    refine map_congr fun q listed => (same _).symm.trans ?_
    exact congrArg Thread.toProcess (if_pos (inTable_iff.mpr ⟨i, listed⟩)).symm

lemma Shows.modifyCurrent :
    Shows (match s.currentProcess with | none => s | some p => s.modify p f) (t.modifyCurrent g) := by
  unfold System.modifyCurrent
  cases current : s.currentProcess with
  | none =>
    rw [shows.current_none.mp current]
    exact shows
  | some p =>
    obtain ⟨τ, isTask, points⟩ := shows.current current
    rw [isTask]
    exact shows.modify same points

end

/-! ## The scheduler -/

lemma Shows.isRunnable (listed : s.processes i = some p) :
    s.processIsRunnable p = (s.process p).isRunnable := by
  have other : p ≠ s.idleProcess := by
    rintro rfl
    exact shows.apart i listed
  simp [processIsRunnable, process, other]

lemma Shows.findHighestPriority : s.findHighestPriority = t.findHighestPriority := by
  unfold State.findHighestPriority System.findHighestPriority
  congr 1
  funext highest i
  rw [shows.processes]
  cases listed : s.processes i with
  | none => rfl
  | some p => simp only [shows.isRunnable listed, map_some, process]

/-- Both models choose the same slot. -/
lemma Shows.pickNextProcess : s.pickNextProcess = t.pickNextProcess := by
  have order : s.pickOrder = t.pickOrder := by
    unfold State.pickOrder System.pickOrder
    by_cases inside : t.rrCursor < 64 <;> simp [shows.rrCursor, inside]
  unfold State.pickNextProcess System.pickNextProcess
  rw [shows.findHighestPriority, order]
  congr 2
  funext i
  rw [shows.processes]
  cases listed : s.processes i with
  | none => rfl
  | some p => simp only [shows.isRunnable listed, any_some, map_some, process]

lemma Shows.saveFpu : Shows s.saveFpu t := by
  unfold State.saveFpu
  split
  · exact shows
  split
  · exact shows
  rename_i old isOld _
  obtain ⟨τ, -, points⟩ := shows.current isOld
  have unchanged : t.modify τ id = t := by cases τ <;> simp [System.modify, System.modifySlot]
  exact unchanged ▸ shows.modify (f := fun u => { u with sseState := s.fpu }) (fun _ => rfl) points

lemma Shows.switchTo (listed : s.processes i = some p) :
    Shows (s.switchTo i p) (t.switchTo i (s.process p)) := by
  have space := switchSpace_eq s.saveFpu p
  have moved : Shows (s.saveFpu.switchSpace p) t := by
    rw [space]
    exact { shows.saveFpu with }
  have points : (s.saveFpu.switchSpace p).pointer (.slot i) = some p := by
    rw [space]
    exact (congrFun (saveFpu_kept s).processes i).trans listed
  have top : (((s.saveFpu.switchSpace p).setRunning p).threads p).kstackTop = (s.process p).kstackTop := by
    have both := (moved.task (.slot i)).symm.trans (shows.processes i)
    rw [points, listed] at both
    have tops := congrArg Process.kstackTop (some.inj both)
    rw [setRunning, modify_self]
    exact tops
  exact { moved.modify (f := fun u => { u with state := .running }) (fun _ => rfl) points with
    currentProcess := congrArg some points
    rrCursor := rfl
    rsp0 := top
    cpuContextStack := top }

lemma Shows.switchToIdle : Shows s.switchToIdle t.switchToIdle := by
  have stack := congrArg Process.kstackTop shows.idleProcess.symm
  exact { shows with currentProcess := rfl, rsp0 := stack, cpuContextStack := stack }

lemma Shows.schedule (regs : Option Frame) :
    Option.Rel (fun a b => Shows a.1 b.1 ∧ a.2 = b.2) (s.schedule regs) (t.schedule regs) := by
  have idle := congrArg Process.context shows.idleProcess.symm
  have runs : ∀ {i p}, s.pointer (.slot i) = some p → Shows (s.setRunning p)
      (t.modify (.slot i) fun q => { q with state := .running }) := shows.modify fun _ => rfl
  unfold State.schedule System.schedule
  rw [← shows.pickNextProcess]
  cases s.pickNextProcess with
  | none =>
    dsimp only
    cases current : s.currentProcess with
    | none =>
      rw [shows.current_none.mp current]
      cases regs with
      | none => exact .some ⟨shows.switchToIdle, idle⟩
      | some regs => exact .some ⟨shows, rfl⟩
    | some old =>
      obtain ⟨τ, isTask, points⟩ := shows.current current
      rw [isTask]
      cases τ with
      | idle =>
        cases points
        simp only [processIsRunnable, bne_self_eq_false, Bool.false_and, Bool.false_eq_true, if_false]
        exact .some ⟨shows.switchToIdle, idle⟩
      | slot i =>
        have listed : s.processes i = some old := points
        simp only [shows.processes, listed, map_some, any_some, shows.isRunnable listed]
        split
        · cases regs with
          | none => exact .none
          | some regs => exact .some ⟨runs listed, rfl⟩
        · exact .some ⟨shows.switchToIdle, idle⟩
  | some i =>
    dsimp only
    rw [shows.processes]
    cases listed : s.processes i with
    | none =>
      refine .some ⟨shows, ?_⟩
      rw [shows.idleProcess]
      rfl
    | some next =>
      rw [map_some]
      dsimp only
      have current := shows.current_iff (show s.pointer (.slot i) = _ from listed)
      by_cases here : s.currentProcess = some next
      · rw [if_pos here, if_pos (current.mp here)]
        cases regs with
        | none => exact .none
        | some regs => exact .some ⟨{ runs listed with rrCursor := rfl }, rfl⟩
      · rw [if_neg here, if_neg (mt current.mpr here)]
        exact .some ⟨shows.switchTo listed, rfl⟩

/-- The scheduler resumes the same process with the same context. -/
lemma Shows.scheduler (regs : Option Frame) :
    Option.Rel (fun a b => Shows a.1 b.1 ∧ a.2 = b.2) (s.scheduler regs) (t.scheduler regs) := by
  have wakes : ∀ {s t}, Shows s t → Shows s.wakeSleepingProcesses t.wakeSleepingProcesses := by
    intro s t shows
    unfold State.wakeSleepingProcesses System.wakeSleepingProcesses
    rw [shows.timerTicks]
    exact shows.modifyAll fun _ => rfl
  cases regs with
  | none => exact (wakes shows).schedule none
  | some regs =>
    have saved : Shows (s.saveCurrent regs) (t.saveCurrent regs) := shows.modifyCurrent fun _ => rfl
    refine Shows.schedule ?_ (some regs)
    exact (wakes saved).modifyCurrent fun u => by split <;> simp_all

end

end State

end Znu.Sched
