import Znu.Lib.Along

/-! # The semaphore and the scheduler

Each section of `semaphore.c` under the spinlock is one step of the process that runs, and each timer
interrupt is a step of the scheduler. A process that finds the count at 0 calls itself `TASK_WAITING`
and goes on to try again. The scheduler takes it for one that somebody will wake, and nobody does:
`semaphore_signal` only counts.
-/

namespace Znu.Sync.Semaphore

open Lib Function Finset

inductive Task where
  | ready
  | running
  | waiting
  deriving DecidableEq

structure State (P : Type) where
  count : Int
  task : P → Task
  current : Option P
  /-- the processes that have found nothing in `semaphore_wait` and are still in it -/
  inside : Finset P
  signals : Nat
  acquisitions : Nat

open State

inductive Op (P : Type) where
  | wait (p : P)
  | signal (p : P)
  | tryWait (p : P)
  /-- a timer interrupt, and the process the scheduler picks if it can -/
  | timer (choice : Option P)
  deriving DecidableEq

namespace State

variable {P : Type} [Fintype P] [DecidableEq P]

def runnable (s : State P) (p : P) : Prop := s.task p = .ready ∨ s.task p = .running

instance (s : State P) (p : P) : Decidable (s.runnable p) := inferInstanceAs (Decidable (_ ∨ _))

/-- The processes are ready, and one of them runs. -/
def start (initial : Int) (first : P) : State P :=
  ⟨initial, Function.update (fun _ => .ready) first .running, some first, ∅, 0, 0⟩

def acquire (s : State P) (p : P) : State P :=
  { s with
    count := s.count - 1
    inside := s.inside.erase p
    acquisitions := s.acquisitions + 1 }

/-- One turn of the loop of `semaphore_wait`. -/
def wait (s : State P) (p : P) : State P :=
  if 0 < s.count then s.acquire p
  else { s with task := Function.update s.task p .waiting, inside := insert p s.inside }

def signal (s : State P) : State P :=
  { s with count := (s.count + 1).bmod (2 ^ 32), signals := s.signals + 1 }

def tryWait (s : State P) (p : P) : State P := if 0 < s.count then s.acquire p else s

/-- A process that was running becomes ready. -/
def preempt (s : State P) : State P :=
  match s.current with
  | none => s
  | some p =>
    if s.task p = .running then { s with task := Function.update s.task p .ready } else s

/-- The scheduler goes on with a process that is runnable, or idles if there is none. -/
def timer (s : State P) : Option P → State P
  | some p =>
    if s.preempt.runnable p then
      { s.preempt with task := Function.update s.preempt.task p .running, current := some p }
    else s
  | none => if ∃ p, s.preempt.runnable p then s else { s.preempt with current := none }

def step (s : State P) : Op P → State P
  | .wait p => if s.current = some p then s.wait p else s
  | .signal p => if s.current = some p ∧ p ∉ s.inside then s.signal else s
  | .tryWait p => if s.current = some p ∧ p ∉ s.inside then s.tryWait p else s
  | .timer choice => s.timer choice

/-- The process is in `semaphore_wait`, and whatever happens, it will not be runnable. -/
def Stuck (s : State P) (p : P) : Prop :=
  p ∈ s.inside ∧ ∀ es : List (Op P), ¬ (es.foldl step s).runnable p

/-- What the semaphore is to guarantee. -/
structure Fine (initial : Int) (s : State P) : Prop where
  count : s.count = initial + s.signals - s.acquisitions
  nonnegative : 0 ≤ s.count
  awake : 0 < s.count → ∀ p, ¬ s.Stuck p

/-- There is a signal only if no process is waiting for one, and the count can be raised. -/
def Careful (s : State P) (e : Op P) : Prop :=
  ∀ p, e = .signal p → s.current = some p → p ∉ s.inside → s.inside = ∅ ∧ s.count < 2 ^ 31 - 1

/-- What holds after careful steps. -/
structure Inv (initial : Int) (s : State P) : Prop where
  count : s.count = initial + s.signals - s.acquisitions
  nonnegative : 0 ≤ s.count
  small : s.count < 2 ^ 31
  waits : ∀ p ∈ s.inside, s.task p = .waiting ∧ s.count = 0

variable {s : State P} {p q : P} {e : Op P} {initial : Int}

omit [Fintype P] in
lemma task_preempt (waits : s.task p = .waiting) : s.preempt.task p = .waiting := by
  rw [preempt]
  split
  · exact waits
  split
  · rename_i q _ running
    have other : p ≠ q := by
      rintro rfl
      rw [waits] at running
      cases running
    simp [other, waits]
  · exact waits

lemma task_step (waits : s.task p = .waiting) : (s.step e).task p = .waiting := by
  have asleep : ¬ s.preempt.runnable p := by simp [runnable, task_preempt waits]
  cases e with
  | wait q =>
    simp only [step, wait, acquire]
    split
    · split
      · exact waits
      by_cases same : p = q
      · simp [same]
      · simp [same, waits]
    · exact waits
  | signal q =>
    simp only [step, signal]
    split <;> exact waits
  | tryWait q =>
    simp only [step, tryWait, acquire]
    split
    · split <;> exact waits
    · exact waits
  | timer choice =>
    cases choice with simp only [step, timer]
    | none =>
      split
      · exact waits
      · exact task_preempt waits
    | some q =>
      split
      · rename_i awake
        have other : p ≠ q := by
          rintro rfl
          exact asleep awake
        simp [other, task_preempt waits]
      · exact waits

lemma stuck_of_waiting (inside : p ∈ s.inside) (waits : s.task p = .waiting) : s.Stuck p := by
  refine ⟨inside, fun es => ?_⟩
  have still : (es.foldl step s).task p = .waiting := by
    clear inside
    induction es generalizing s with
    | nil => exact waits
    | cons e es ih => exact ih (task_step waits)
  simp [runnable, still]

/-- The scheduler has nothing to do with the semaphore. -/
lemma timer_same (choice : Option P) : (s.timer choice).count = s.count ∧
    (s.timer choice).inside = s.inside ∧ (s.timer choice).signals = s.signals ∧
    (s.timer choice).acquisitions = s.acquisitions := by
  have same : s.preempt.count = s.count ∧ s.preempt.inside = s.inside ∧ s.preempt.signals = s.signals ∧
      s.preempt.acquisitions = s.acquisitions := by
    rw [preempt]
    split
    · exact ⟨rfl, rfl, rfl, rfl⟩
    split <;> exact ⟨rfl, rfl, rfl, rfl⟩
  cases choice with
  | none =>
    rw [timer]
    split
    · exact ⟨rfl, rfl, rfl, rfl⟩
    · exact same
  | some p =>
    rw [timer]
    split
    · exact same
    · exact ⟨rfl, rfl, rfl, rfl⟩

omit [Fintype P] [DecidableEq P] in
lemma bmod_succ (nonnegative : 0 ≤ s.count) (small : s.count < 2 ^ 31) :
    (s.count + 1).bmod (2 ^ 32) = s.count + 1 ↔ s.count < 2 ^ 31 - 1 := by
  rw [Int.bmod_def]
  split <;> omega

namespace Inv

omit [Fintype P] in
lemma start (nonnegative : 0 ≤ initial) (small : initial < 2 ^ 31) (first : P) :
    Inv initial (start initial first) :=
  ⟨by simp [State.start], nonnegative, small, by simp [State.start]⟩

section

variable (inv : Inv initial s)

include inv

omit [Fintype P] in
lemma acquire (positive : 0 < s.count) (p : P) : Inv initial (s.acquire p) := by
  have count := inv.count
  have small := inv.small
  refine ⟨?_, ?_, ?_, fun q inside => ?_⟩
  · simp only [State.acquire]
    omega
  · simp only [State.acquire]
    omega
  · simp only [State.acquire]
    omega
  · have none := (inv.waits q (mem_of_mem_erase inside)).2
    omega

omit [Fintype P] in
lemma wait (p : P) : Inv initial (s.wait p) := by
  rw [State.wait]
  split
  · exact inv.acquire ‹_› p
  refine ⟨inv.count, inv.nonnegative, inv.small, fun q inside => ?_⟩
  have := inv.nonnegative
  have none : s.count = 0 := by omega
  obtain same | inside := mem_insert.mp inside
  · simp [same, none]
  by_cases same : q = p
  · simp [same, none]
  · simp [same, inv.waits q inside]

omit [Fintype P] [DecidableEq P] in
lemma signal (nobody : s.inside = ∅) (room : s.count < 2 ^ 31 - 1) : Inv initial s.signal := by
  have count := inv.count
  have nonnegative := inv.nonnegative
  have raised := (bmod_succ nonnegative inv.small).mpr room
  refine ⟨?_, ?_, ?_, by simp [State.signal, nobody]⟩
  · simp only [State.signal, raised]
    omega
  · simp only [State.signal, raised]
    omega
  · simp only [State.signal, raised]
    omega

lemma step (careful : s.Careful e) : Inv initial (s.step e) := by
  cases e with
  | wait p =>
    simp only [step]
    split
    · exact inv.wait p
    · exact inv
  | signal p =>
    simp only [step]
    split
    · rename_i may
      obtain ⟨nobody, room⟩ := careful p rfl may.1 may.2
      exact inv.signal nobody room
    · exact inv
  | tryWait p =>
    simp only [step, tryWait]
    split
    · split
      · exact inv.acquire ‹_› p
      · exact inv
    · exact inv
  | timer choice =>
    obtain ⟨count, inside, signals, acquisitions⟩ := timer_same (s := s) choice
    simp only [step]
    refine ⟨?_, ?_, ?_, fun q listed => ?_⟩
    · rw [count, signals, acquisitions, inv.count]
    · rw [count]
      exact inv.nonnegative
    · rw [count]
      exact inv.small
    · rw [inside] at listed
      rw [count]
      obtain ⟨waits, none⟩ := inv.waits q listed
      exact ⟨task_step (e := .timer choice) waits, none⟩

lemma fine : s.Fine initial :=
  ⟨inv.count, inv.nonnegative, fun positive _ stuck => by
    have none := (inv.waits _ stuck.1).2
    omega⟩

end

end Inv

lemma fine_step_iff (inv : Inv initial s) : (s.step e).Fine initial ↔ s.Careful e := by
  refine ⟨?_, fun careful => (inv.step careful).fine⟩
  rintro fine p rfl current outside
  have count := inv.count
  have raised : (s.count + 1).bmod (2 ^ 32) = s.count + 1 := by
    have counted := fine.count
    simp only [step, current, outside, not_false_eq_true, and_self, if_true, signal] at counted
    omega
  refine ⟨eq_empty_of_forall_notMem fun q inside => ?_, (bmod_succ inv.nonnegative inv.small).mp raised⟩
  obtain ⟨waits, none⟩ := inv.waits q inside
  have after : s.step (.signal p) = s.signal := by simp [step, current, outside]
  have positive : 0 < (s.step (.signal p)).count := by
    rw [after]
    change 0 < (s.count + 1).bmod (2 ^ 32)
    omega
  exact fine.awake positive q (stuck_of_waiting (by rw [after]; exact inside) (task_step waits))

/-- The semaphore guarantees what it should in every state of a run exactly if it is never signalled while a
    process waits for it, nor when the count is as large as it can be. -/
theorem semaphore_fine_iff (nonnegative : 0 ≤ initial) (small : initial < 2 ^ 31) (first : P)
    (es : List (Op P)) :
    Along step (fun s e => (s.step e).Fine initial) (start initial first) es ↔
      Along step Careful (start initial first) es :=
  Along.congr_inv (fun _ _ inv => fine_step_iff inv) (fun _ _ inv careful => inv.step careful)
    (.start nonnegative small first)

/-- A signal before anyone waits is taken. -/
theorem early_signal_fine : Along step (fun s e => (s.step e).Fine 0) (start 0 (0 : Fin 2))
    [.signal 0, .timer (some 1), .wait 1] := by
  refine (semaphore_fine_iff (by decide) (by decide) 0 _).mpr ⟨fun p _ _ _ => ?_, ?_⟩
  · decide
  · simp [Along, Careful]

/-- One process waits, the other one signals, and the first one will never run again. -/
theorem waiter_stuck : ∃ s : State (Fin 2),
    s = [Op.wait 0, .timer (some 1), .signal 1].foldl step (start 0 0) ∧ s.count = 1 ∧ s.Stuck 0 := by
  refine ⟨_, rfl, by decide, stuck_of_waiting (by decide) (by decide)⟩

lemma waiting_step (waits : ∀ p ∈ s.inside, s.task p = .waiting) (listed : p ∈ (s.step e).inside) :
    (s.step e).task p = .waiting := by
  by_cases before : p ∈ s.inside
  · exact task_step (waits p before)
  cases e with
  | wait q =>
    simp only [step, wait] at listed ⊢
    split_ifs at listed ⊢
    · exact absurd (mem_of_mem_erase listed) before
    · simp [(mem_insert.mp listed).resolve_right before]
    · exact absurd listed before
  | signal q | tryWait q => grind [step, signal, tryWait, acquire]
  | timer choice => exact absurd ((timer_same choice).2.1 ▸ listed) before

/-- In every run, whoever has found the count at 0 never runs again, even after a signal. -/
theorem waiters_stuck (initial : Int) (first : P) (es : List (Op P)) :
    let s := es.foldl step (start initial first)
    ∀ p ∈ s.inside, s.Stuck p := by
  suffices ∀ s : State P, (∀ p ∈ s.inside, s.task p = .waiting) →
      ∀ p ∈ (es.foldl step s).inside, (es.foldl step s).Stuck p from this _ nofun
  induction es with
  | nil => exact fun s waits p listed => stuck_of_waiting listed (waits p listed)
  | cons e es ih => exact fun s waits => ih _ fun p => waiting_step waits

end State

end Znu.Sync.Semaphore
