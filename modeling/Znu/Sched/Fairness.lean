import Znu.Lib.Ring
import Znu.Sched.Effect

/-! # The choice of the scheduler

Among the processes that can run, the scheduler takes one of the highest priority. Those that
share it get their turns in the order of the slots, around the end of the table.
-/

namespace Znu.Sched

open Machine Kernel Lib List State System Ring Process

namespace State

variable {s s' : State} {p q : Ptr} {i j : Slot}

/-! ## Priorities -/

/-- The slot holds a runnable process, and none has a higher priority. -/
def Best (s : State) (i : Slot) : Prop :=
  ∃ p, s.processes i = some p ∧ s.processIsRunnable p = true ∧ ∀ j q, s.processes j = some q →
    s.processIsRunnable q = true → (s.threads q).priority.toInt ≤ (s.threads p).priority.toInt

lemma priority_nonneg (priority : Priority) : 0 ≤ priority.toInt := by
  cases priority <;> decide

/-- The loop of `find_highest_priority`, from any intermediate result on. -/
lemma highest_loop (s : State) (l : List Slot) (start : Int) :
    let highest := l.foldl (fun highest i =>
      match s.processes i with
      | some p =>
        if s.processIsRunnable p ∧ highest < (s.threads p).priority.toInt then
          (s.threads p).priority.toInt
        else highest
      | none => highest) start
    start ≤ highest ∧ (∀ i ∈ l, ∀ p, s.processes i = some p → s.processIsRunnable p = true →
        (s.threads p).priority.toInt ≤ highest) ∧
      (highest = start ∨ ∃ i p, s.processes i = some p ∧ s.processIsRunnable p = true ∧
        (s.threads p).priority.toInt = highest) := by
  induction l generalizing start with
  | nil => exact ⟨le_rfl, by simp, .inl rfl⟩
  | cons i l ih =>
    simp only [foldl_cons]
    cases atI : s.processes i with
    | none =>
      obtain ⟨low, bound, attained⟩ := ih start
      refine ⟨low, fun j listed p atJ => ?_, attained⟩
      rcases mem_cons.mp listed with rfl | later
      · cases atI.symm.trans atJ
      · exact bound j later p atJ
    | some p =>
      simp only
      split
      next better =>
        obtain ⟨low, bound, attained⟩ := ih (s.threads p).priority.toInt
        refine ⟨better.2.le.trans low, fun j listed q atJ => ?_, .inr ?_⟩
        · rcases mem_cons.mp listed with rfl | later
          · cases atI.symm.trans atJ
            exact fun _ => low
          · exact bound j later q atJ
        · rcases attained with same | found
          · exact ⟨i, p, atI, better.1, same.symm⟩
          · exact found
      rename_i worse
      obtain ⟨low, bound, attained⟩ := ih start
      refine ⟨low, fun j listed q atJ runnable => ?_, attained⟩
      rcases mem_cons.mp listed with rfl | later
      · cases atI.symm.trans atJ
        exact (not_lt.mp fun better => worse ⟨runnable, better⟩).trans low
      · exact bound j later q atJ runnable

lemma findHighestPriority_spec (s : State) :
    (∀ i p, s.processes i = some p → s.processIsRunnable p = true →
        (s.threads p).priority.toInt ≤ s.findHighestPriority) ∧
      (s.findHighestPriority = -1 ∨ ∃ i p, s.processes i = some p ∧ s.processIsRunnable p = true ∧
        (s.threads p).priority.toInt = s.findHighestPriority) := by
  obtain ⟨-, bound, attained⟩ := highest_loop s slots (-1)
  exact ⟨fun i => bound i (slots_complete i), attained⟩

/-- The condition of the loop of `pick_next_process`. -/
lemma best_iff (i : Slot) : s.Best i ↔ ((s.processes i).any fun p =>
    s.processIsRunnable p && (s.threads p).priority.toInt == s.findHighestPriority) = true := by
  obtain ⟨bound, attained⟩ := findHighestPriority_spec s
  cases atI : s.processes i with
  | none => simp [Best, atI]
  | some p =>
    simp only [Best, atI, Option.some.injEq, Option.any_some, Bool.and_eq_true, beq_iff_eq]
    constructor
    · rintro ⟨_, rfl, runnable, top⟩
      refine ⟨runnable, le_antisymm (bound i p atI runnable) ?_⟩
      rcases attained with none | ⟨j, q, atJ, runs, isHighest⟩
      · rw [none]
        exact (by decide : (-1 : Int) ≤ 0).trans (priority_nonneg _)
      · rw [← isHighest]
        exact top j q atJ runs
    · rintro ⟨runnable, isHighest⟩
      refine ⟨p, rfl, runnable, fun j q atJ runs => ?_⟩
      rw [isHighest]
      exact bound j q atJ runs

instance (s : State) (i : Slot) : Decidable (s.Best i) := decidable_of_iff _ (best_iff i).symm

/-! ## The order of the slots -/

def cursor (s : State) : Nat := if 0 ≤ s.rrCursor ∧ s.rrCursor < 64 then s.rrCursor.toNat else 0

lemma slots_nodup : slots.Nodup := nodup_finRange 64

lemma slots_getElem? (i : Slot) : slots[i.val]? = some i := by
  simp [slots]

lemma pickOrder_eq (s : State) : s.pickOrder = slots.rotate s.cursor := by
  refine ext_getElem (by simp [pickOrder, slots]) fun n short short' => ?_
  simp [pickOrder, slots, getElem_rotate, cursor, Nat.add_comm]

/-- The search finds the first of the best. -/
lemma pickNextProcess_eq (s : State) : s.pickNextProcess = s.pickOrder.find? fun i => decide (s.Best i) := by
  have same : (fun i => decide (s.Best i)) = fun i => (s.processes i).any fun p =>
      s.processIsRunnable p && (s.threads p).priority.toInt == s.findHighestPriority := by
    funext i
    rw [Bool.eq_iff_iff, decide_eq_true_iff]
    exact best_iff i
  rw [pickNextProcess]
  split
  · symm
    rw [find?_eq_none]
    rintro i - best
    obtain ⟨p, atI, runnable, -⟩ := of_decide_eq_true best
    have bound := (findHighestPriority_spec s).1 i p atI runnable
    have low := priority_nonneg (s.threads p).priority
    omega
  · rw [same]

/-! ## What can run -/

/-- A process that can run when the scheduler chooses: it is ready or runs, or it sleeps until
    a time that has come. -/
def due (s : State) (p : Ptr) : Bool :=
  p != s.idleProcess && ((s.threads p).isRunnable ||
    decide ((s.threads p).state = .sleeping ∧ (s.threads p).sleepDeadline ≠ 0 ∧
      (s.threads p).sleepDeadline ≤ s.timerTicks))

/-- The slot holds a process that can run, and none has a higher priority. -/
def Top (s : State) (i : Slot) : Prop :=
  ∃ p, s.processes i = some p ∧ s.due p = true ∧ ∀ j q, s.processes j = some q →
    s.due q = true → (s.threads q).priority.toInt ≤ (s.threads p).priority.toInt

variable (s)

lemma saveCurrent_thread (regs : Frame) (p : Ptr) :
    (s.saveCurrent regs).threads p = s.threads p ∨
      (s.saveCurrent regs).threads p = { s.threads p with context := regs } := by
  rw [saveCurrent]
  split
  · exact .inl rfl
  rename_i q _
  by_cases here : p = q
  · subst here
    exact .inr modify_self
  · exact .inl (modify_of_ne here)

lemma saveCurrent_frame (regs : Frame) :
    (s.saveCurrent regs).processes = s.processes ∧ (s.saveCurrent regs).timerTicks = s.timerTicks ∧
      (s.saveCurrent regs).rrCursor = s.rrCursor := by
  rw [saveCurrent]
  split <;> exact ⟨rfl, rfl, rfl⟩

lemma demoteCurrent_thread (p : Ptr) :
    (s.demoteCurrent.threads p).isRunnable = (s.threads p).isRunnable ∧
      (s.demoteCurrent.threads p).priority = (s.threads p).priority := by
  rw [demoteCurrent]
  split
  · exact ⟨rfl, rfl⟩
  rename_i q _
  by_cases here : p = q
  · subst here
    rw [modify_self]
    split
    next running => simp [isRunnable, running]
    · exact ⟨rfl, rfl⟩
  · rw [modify_of_ne here]
    exact ⟨rfl, rfl⟩

lemma prepared_cursor (regs : Option Frame) : (s.prepared regs).rrCursor = s.rrCursor := by
  cases regs with
  | none => rfl
  | some regs =>
    rw [prepared, demoteCurrent]
    split <;> exact (saveCurrent_frame s regs).2.2

variable {s}

lemma wakeSleeping_runnable (listed : s.processes i = some p) :
    (s.wakeSleepingProcesses.threads p).isRunnable = ((s.threads p).isRunnable ||
        decide ((s.threads p).state = .sleeping ∧ (s.threads p).sleepDeadline ≠ 0 ∧
          (s.threads p).sleepDeadline ≤ s.timerTicks)) ∧
      (s.wakeSleepingProcesses.threads p).priority = (s.threads p).priority := by
  have woken : s.wakeSleepingProcesses.threads p = (s.threads p).lift (wakeAt s.timerTicks) :=
    if_pos (inTable_iff.mpr ⟨i, listed⟩)
  rw [woken]
  simp only [Thread.lift, wakeAt]
  split
  next asleep => simp [isRunnable, asleep]
  next awake => simp [awake]

/-- A process of the table is runnable when the scheduler chooses if it is due. -/
lemma prepared_runnable (regs : Option Frame) (listed : s.processes i = some p) :
    (s.prepared regs).processIsRunnable p = s.due p ∧
      ((s.prepared regs).threads p).priority = (s.threads p).priority := by
  rw [processIsRunnable, (Mildly.prepared s regs).idle, due]
  cases regs with
  | none =>
    obtain ⟨runnable, priority⟩ := wakeSleeping_runnable listed
    rw [prepared, runnable, priority]
    exact ⟨rfl, rfl⟩
  | some regs =>
    obtain ⟨processes, ticks, -⟩ := saveCurrent_frame s regs
    obtain ⟨runnable, priority⟩ := wakeSleeping_runnable (s := s.saveCurrent regs) (processes ▸ listed)
    obtain ⟨runnable', priority'⟩ :=
      demoteCurrent_thread (s.saveCurrent regs).wakeSleepingProcesses p
    rw [prepared, runnable', priority', runnable, priority, ticks]
    rcases saveCurrent_thread s regs p with unchanged | saved
    · rw [unchanged]
      exact ⟨rfl, rfl⟩
    · rw [saved]
      exact ⟨rfl, rfl⟩

lemma prepared_best (s : State) (regs : Option Frame) (i : Slot) : (s.prepared regs).Best i ↔ s.Top i := by
  rw [Best, Top, (Mildly.prepared s regs).processes]
  refine exists_congr fun p => and_congr_right fun atI => ?_
  obtain ⟨runnable, priority⟩ := prepared_runnable regs atI
  rw [runnable, priority]
  refine and_congr_right fun _ => forall₂_congr fun j q => forall_congr' fun atJ => ?_
  obtain ⟨runnable', priority'⟩ := prepared_runnable regs atJ
  rw [runnable', priority']

instance (s : State) (i : Slot) : Decidable (s.Top i) := decidable_of_iff _ (prepared_best s none i)

/-- The slot of the process whose turn it is. -/
def choice (s : State) : Option Slot := s.pickOrder.find? fun i => decide (s.Top i)

lemma prepared_pick (s : State) (regs : Option Frame) : (s.prepared regs).pickNextProcess = s.choice := by
  have order : (s.prepared regs).pickOrder = s.pickOrder := by
    rw [pickOrder_eq, pickOrder_eq, cursor, prepared_cursor, cursor]
  rw [pickNextProcess_eq, order, choice]
  simp only [prepared_best]

/-! ## The turns -/

/-- The call of `scheduler` with these registers makes the process in slot `i` current. -/
def Selects (s : State) (regs : Frame) (i : Slot) : Prop :=
  ∃ s' frame, s.scheduler (some regs) = some (s', frame) ∧ s'.currentProcessIndex = some i ∧
    s'.currentProcess = s.processes i ∧ s'.rrCursor = (i.val + 1) % 64

lemma selects_of_choice (regs : Frame) (chosen : s.choice = some i) : s.Selects regs i := by
  have picked := (prepared_pick s (some regs)).trans chosen
  obtain ⟨next, listed, -⟩ := pickNextProcess_some picked
  have atI : s.processes i = some next := (Mildly.prepared s (some regs)).processes ▸ listed
  simp only [Selects, scheduler, schedule, picked, listed]
  split
  next isCurrent => exact ⟨_, _, rfl, rfl, isCurrent.trans atI.symm, rfl⟩
  · exact ⟨_, _, rfl, rfl, atI.symm, rfl⟩

lemma choice_eq_head (s : State) : s.choice = (round slots (fun i => decide (s.Top i)) s.cursor).head? := by
  rw [choice, pickOrder_eq, find?_eq_head?]

lemma choice_top (chosen : s.choice = some i) : s.Top i := by
  have found := find?_some (p := fun i => decide (s.Top i)) chosen
  exact of_decide_eq_true found

/-- If a process of the table can run, one with the highest priority is chosen. -/
lemma choice_isSome (listed : s.processes i = some p) (due : s.due p = true) : ∃ j, s.choice = some j := by
  have atI : (s.prepared none).processes i = some p := listed
  have runs : (s.prepared none).processIsRunnable p = true :=
    (prepared_runnable none listed).1.trans due
  have best : ∃ j, s.Top j := by
    obtain ⟨bound, none | ⟨j, q, atJ, runnable, isHighest⟩⟩ :=
      findHighestPriority_spec (s.prepared none)
    · have low := bound i p atI runs
      have positive := priority_nonneg ((s.prepared Option.none).threads p).priority
      omega
    refine ⟨j, (prepared_best s Option.none j).mp ⟨q, atJ, runnable, fun k r atK runs' => ?_⟩⟩
    rw [isHighest]
    exact bound k r atK runs'
  obtain ⟨j, top⟩ := best
  rw [← Option.isSome_iff_exists, choice, find?_isSome]
  refine ⟨j, ?_, decide_eq_true top⟩
  rw [pickOrder_eq, mem_rotate]
  exact slots_complete j

/-- Calls of `scheduler` in these states, with these registers. Between two of them everything
    can change but the cursor. -/
def Consecutive : List (State × Frame) → Prop
  | (s, regs) :: (s', regs') :: rest =>
    (∀ s₁ frame, s.scheduler (some regs) = some (s₁, frame) → s'.rrCursor = s₁.rrCursor) ∧
      Consecutive ((s', regs') :: rest)
  | _ => True

lemma cursor_of_selected (i : Slot) (same : s.rrCursor = (i.val + 1) % 64) : s.cursor = (i.val + 1) % 64 := by
  rw [cursor, same]
  split <;> omega

/-- The calls select the first elements of the round, one after the other. -/
lemma selects_round {m : Slot → Bool} {calls : List (State × Frame)} {c : Nat}
    (top : ∀ call ∈ calls, ∀ i, call.1.Top i ↔ m i = true) (consecutive : Consecutive calls)
    (start : ∀ call ∈ calls.head?, call.1.cursor = c)
    (short : calls.length ≤ (round slots m c).length) :
    Forall₂ (fun call i => call.1.Selects call.2 i) calls ((round slots m c).take calls.length) := by
  induction calls generalizing c with
  | nil => exact .nil
  | cons call rest ih =>
    obtain ⟨s, regs⟩ := call
    have isM : (fun i => decide (s.Top i)) = m := by
      funext i
      rw [Bool.eq_iff_iff, decide_eq_true_iff]
      exact top (s, regs) mem_cons_self i
    have isC : s.cursor = c := start (s, regs) rfl
    cases isRound : round slots m c with
    | nil =>
      rw [isRound] at short
      simp at short
    | cons i others =>
      have chosen : s.choice = some i := by
        rw [choice_eq_head, isM, isC, isRound]
        rfl
      have found : (slots.rotate c).find? m = some i := by
        rw [find?_eq_head?, isRound]
        rfl
      have selected := selects_of_choice regs chosen
      have next : round slots m ((i.val + 1) % 64) = others ++ [i] := by
        have turned := round_next slots_nodup found (slots_getElem? i)
        rw [isRound, rotate_cons_succ, rotate_zero] at turned
        rw [← turned, Ring.round, Ring.round, ← rotate_mod _ (i.val + 1)]
        rfl
      have enough : rest.length ≤ others.length := by
        rw [isRound] at short
        simpa using short
      refine .cons selected ?_
      have later := ih (c := (i.val + 1) % 64) (forall_mem_cons.mp top).2 ?_ ?_ ?_
      · rw [next, take_append_of_le_length enough] at later
        exact later
      · cases rest with
        | nil => trivial
        | cons => exact consecutive.2
      · intro call isFirst
        cases rest with
        | nil => cases isFirst
        | cons second rest =>
          cases isFirst
          obtain ⟨s₁, frame, done, -, -, moved⟩ := selected
          exact cursor_of_selected i ((consecutive.1 s₁ frame done).trans moved)
      · rw [next, length_append]
        exact enough.trans (Nat.le_add_right ..)

end State

/-- If a process of the table can run, the scheduler selects one of the highest priority. If
    before as many calls as there are slots with such processes these slots are always the same,
    the calls select each once, in the order of the table from the cursor on. -/
theorem scheduler_takes_turns :
    (∀ (s : State) (regs : Frame), (∃ i p, s.processes i = some p ∧ s.due p = true) →
      ∃ i, s.Top i ∧ s.Selects regs i) ∧
    ∀ (best : Finset Slot) (s : State) (regs : Frame) (calls : List (State × Frame)),
      calls.length + 1 = best.card → State.Consecutive ((s, regs) :: calls) →
      (∀ call ∈ (s, regs) :: calls, ∀ i, call.1.Top i ↔ i ∈ best) →
      ∃ order : List Slot, order = s.pickOrder.filter (· ∈ best) ∧ order.Nodup ∧
        order.toFinset = best ∧
        List.Forall₂ (fun call i => call.1.Selects call.2 i) ((s, regs) :: calls) order := by
  constructor
  · rintro s regs ⟨i, p, listed, due⟩
    obtain ⟨j, chosen⟩ := choice_isSome listed due
    exact ⟨j, choice_top chosen, selects_of_choice regs chosen⟩
  · intro best s regs calls size consecutive same
    have once := round_nodup slots_nodup (· ∈ best) s.cursor
    have all : (round slots (· ∈ best) s.cursor).toFinset = best := by
      ext i
      rw [mem_toFinset, mem_round, decide_eq_true_iff]
      exact and_iff_right (slots_complete i)
    have length : (round slots (· ∈ best) s.cursor).length = calls.length + 1 := by
      rw [size, ← toFinset_card_of_nodup once, all]
    refine ⟨_, ?_, once, all, ?_⟩
    · rw [pickOrder_eq, Ring.round]
    have turns := selects_round (m := fun i => decide (i ∈ best)) (c := s.cursor)
      (fun call listed i => (same call listed i).trans decide_eq_true_iff.symm) consecutive
      (by
        rintro call ⟨⟩
        rfl)
      length.ge
    rwa [length_cons, ← length, take_length] at turns

/-! ## Two processes -/

/-- Two processes, of which the second has the given state. -/
def twoProcesses (second : TaskState) : State :=
  { State.blank with
    threads := fun p =>
      if p = 2 then { State.kthread 2 0 0 0 with state := second, sleepDeadline := 5 }
      else State.kthread 1 0 0 0
    processes := fun i => if i.val = 0 then some 1 else if i.val = 1 then some 2 else none
    rrCursor := 1
    timerTicks := 5 }

/-- Before the call only the process in slot 0 is runnable, but the call wakes another. -/
theorem woken_sleeper_selected :
    (∀ i, (twoProcesses .sleeping).Best i ↔ i = 0) ∧
      (twoProcesses .sleeping).Selects zeroFrame 1 ∧
      ¬ (twoProcesses .sleeping).Selects zeroFrame 0 := by
  have selected : (twoProcesses .sleeping).Selects zeroFrame 1 :=
    selects_of_choice zeroFrame (by decide +kernel)
  refine ⟨by decide +kernel, selected, ?_⟩
  rintro ⟨s', frame, done, isZero, -⟩
  obtain ⟨s'', frame', done', isOne, -⟩ := selected
  cases done.symm.trans done'
  cases isZero.symm.trans isOne

theorem two_processes_take_turns : ∃ order : List Slot,
    order = (twoProcesses .ready).pickOrder.filter (· ∈ ({0, 1} : Finset Slot)) ∧ order.Nodup ∧
      order.toFinset = {0, 1} ∧ List.Forall₂ (fun call i => call.1.Selects call.2 i)
        [(twoProcesses .ready, zeroFrame), ({ twoProcesses .ready with rrCursor := 2 }, zeroFrame)]
        order := by
  refine scheduler_takes_turns.2 {0, 1} _ _ _ (by decide) ⟨?_, trivial⟩ ?_
  · intro s₁ frame done
    obtain ⟨s', frame', done', -, -, moved⟩ :=
      selects_of_choice (s := twoProcesses .ready) (i := 1) zeroFrame (by decide +kernel)
    cases done.symm.trans done'
    exact moved.symm
  · intro call listed
    rcases mem_pair.mp listed with rfl | rfl
    · decide +kernel
    · decide +kernel

end Znu.Sched
