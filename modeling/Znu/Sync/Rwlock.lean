import Znu.Lib.Along

/-! # The reader-writer lock

Each section of `rwlock.c` under the spinlock is one step. Whoever is in `reading`, `waiting` or
`writing` is one call that has got the lock, or a call of `rwlock_write_lock` that has tried in vain.
Writers and readers keep each other out. But `pending_writers` is raised again on every attempt and
lowered once, so it counts the waiting writers only as long as none of them tries twice.
-/

namespace Znu.Sync.Rwlock

open Lib Finset

structure State (P : Type) where
  readers : Int
  pendingWriters : Nat
  reading : Finset P
  waiting : Finset P
  writing : Finset P

inductive Op where
  | readLock
  | readUnlock
  | writeLock
  | writeUnlock
  deriving DecidableEq

namespace State

variable {P : Type} [DecidableEq P]

def start : State P := ⟨0, 0, ∅, ∅, ∅⟩

def readable (s : State P) : Prop := 0 ≤ s.readers ∧ s.pendingWriters = 0

instance (s : State P) : Decidable s.readable := inferInstanceAs (Decidable (_ ∧ _))

/-- One turn of the loop of `rwlock_read_lock`. -/
def readLock (s : State P) (p : P) : State P :=
  if s.readable then { s with readers := (s.readers + 1).bmod (2 ^ 32), reading := insert p s.reading }
  else s

def readUnlock (s : State P) (p : P) : State P :=
  { s with readers := (s.readers - 1).bmod (2 ^ 32), reading := s.reading.erase p }

/-- One turn of the loop of `rwlock_write_lock`. -/
def writeLock (s : State P) (p : P) : State P :=
  if s.readers = 0 then
    { s with readers := -1, waiting := s.waiting.erase p, writing := insert p s.writing }
  else { s with pendingWriters := (s.pendingWriters + 1) % 2 ^ 32, waiting := insert p s.waiting }

def writeUnlock (s : State P) (p : P) : State P :=
  { s with readers := 0, writing := s.writing.erase p }

/-- Everyone unlocks only what they have locked, and locks only what they have not. -/
def step (s : State P) : P × Op → State P
  | (p, .readLock) => if p ∈ s.reading ∪ s.waiting ∪ s.writing then s else s.readLock p
  | (p, .readUnlock) => if p ∈ s.reading then s.readUnlock p else s
  | (p, .writeLock) => if p ∈ s.reading ∪ s.writing then s else s.writeLock p
  | (p, .writeUnlock) => if p ∈ s.writing then s.writeUnlock p else s

def Exclusive (s : State P) : Prop :=
  s.writing.card ≤ 1 ∧ (s.writing.Nonempty → s.reading = ∅)

/-- What the lock is to guarantee. -/
structure Fine (s : State P) : Prop where
  exclusive : s.Exclusive
  pending : s.pendingWriters = s.waiting.card
  readable : s.writing = ∅ → s.waiting = ∅ → s.readable

/-- No writer tries again. As many as the counters can hold read or wait. -/
structure Careful (s : State P) (e : P × Op) : Prop where
  first : e.2 = .writeLock → e.1 ∉ s.waiting
  waiting : (s.step e).waiting.card < 2 ^ 32
  reading : (s.step e).writing = ∅ → (s.step e).waiting = ∅ → (s.step e).reading.card ≠ 2 ^ 31

/-- `readers` says who has the lock. -/
structure Counts (s : State P) : Prop where
  alone : s.writing.card ≤ 1
  writer : s.writing.Nonempty → s.reading = ∅ ∧ s.readers = -1
  readers : s.writing = ∅ → s.readers = (s.reading.card : Int).bmod (2 ^ 32)
  few : s.reading.card ≤ 2 ^ 31
  apart : ∀ p ∈ s.waiting, p ∉ s.reading ∧ p ∉ s.writing

variable {s : State P} {p : P} {e : P × Op}

lemma bmod_card {n : Nat} (few : n ≤ 2 ^ 31) :
    (n : Int).bmod (2 ^ 32) = if n = 2 ^ 31 then -2 ^ 31 else (n : Int) := by
  rw [Int.bmod_def]
  split <;> split <;> omega

namespace Counts

omit [DecidableEq P] in
lemma start : Counts (State.start : State P) := by
  constructor <;> simp [State.start]

section

variable (counts : s.Counts)

include counts

omit [DecidableEq P] in
lemma exclusive : s.Exclusive :=
  ⟨counts.alone, fun writer => (counts.writer writer).1⟩

/-- Nobody has the lock exactly if `readers` is 0. -/
lemma free (free : s.readers = 0) : s.writing = ∅ ∧ s.reading = ∅ := by
  have unwritten : s.writing = ∅ := by
    by_contra writer
    have locked := (counts.writer (nonempty_iff_ne_empty.mpr writer)).2
    omega
  refine ⟨unwritten, card_eq_zero.mp ?_⟩
  have count := counts.readers unwritten
  rw [bmod_card counts.few, free] at count
  split at count <;> omega

lemma readLock (outside : p ∉ s.reading) (unready : p ∉ s.waiting) : (s.readLock p).Counts := by
  rw [State.readLock]
  split
  · rename_i readable
    have unwritten : s.writing = ∅ := by
      by_contra writer
      have locked := (counts.writer (nonempty_iff_ne_empty.mpr writer)).2
      have := readable.1
      omega
    have count := counts.readers unwritten
    rw [bmod_card counts.few] at count
    have nonnegative := readable.1
    have few := counts.few
    have under : s.reading.card ≠ 2 ^ 31 := by
      intro full
      omega
    rw [if_neg under] at count
    refine ⟨counts.alone, fun writer => ?_, fun _ => ?_, ?_, fun q waits => ?_⟩
    · simp [unwritten] at writer
    · simp [card_insert_of_notMem outside, count]
    · simp only [card_insert_of_notMem outside]
      omega
    · have other : q ≠ p := fun same => unready (same ▸ waits)
      simpa [other] using counts.apart q waits
  · exact counts

lemma readUnlock (inside : p ∈ s.reading) : (s.readUnlock p).Counts := by
  have unwritten : s.writing = ∅ := by
    by_contra writer
    have nobody := (counts.writer (nonempty_iff_ne_empty.mpr writer)).1
    simp [nobody] at inside
  have some_reader : 0 < s.reading.card := card_pos.mpr ⟨p, inside⟩
  have few := counts.few
  refine ⟨counts.alone, fun writer => ?_, fun _ => ?_, ?_, fun q waits => ?_⟩
  · simp [State.readUnlock, unwritten] at writer
  · simp only [State.readUnlock, card_erase_of_mem inside, counts.readers unwritten]
    rw [Int.bmod_sub_bmod]
    congr 1
    omega
  · simp only [State.readUnlock, card_erase_of_mem inside]
    omega
  · obtain ⟨outside, unwriting⟩ := counts.apart q waits
    exact ⟨fun listed => outside (mem_of_mem_erase listed), unwriting⟩

lemma writeLock (outside : p ∉ s.reading) (unwriting : p ∉ s.writing) : (s.writeLock p).Counts := by
  rw [State.writeLock]
  split
  · rename_i free
    obtain ⟨unwritten, unread⟩ := counts.free free
    constructor <;> simp +contextual [unwritten, unread]
  refine ⟨counts.alone, counts.writer, counts.readers, counts.few, fun q waits => ?_⟩
  obtain same | waits := mem_insert.mp waits
  · subst same
    exact ⟨outside, unwriting⟩
  · exact counts.apart q waits

lemma writeUnlock (inside : p ∈ s.writing) : (s.writeUnlock p).Counts := by
  obtain ⟨unread, -⟩ := counts.writer ⟨p, inside⟩
  have unwritten : s.writing.erase p = ∅ := by
    have := counts.alone
    rw [← card_eq_zero, card_erase_of_mem inside]
    omega
  constructor <;> simp [State.writeUnlock, unwritten, unread]

lemma step : (s.step e).Counts := by
  obtain ⟨p, op⟩ := e
  cases op with simp only [State.step]
  | readLock =>
    split
    · exact counts
    rename_i outside
    simp only [mem_union, not_or] at outside
    exact counts.readLock outside.1.1 outside.1.2
  | readUnlock =>
    split
    · exact counts.readUnlock ‹_›
    · exact counts
  | writeLock =>
    split
    · exact counts
    rename_i outside
    rw [mem_union, not_or] at outside
    exact counts.writeLock outside.1 outside.2
  | writeUnlock =>
    split
    · exact counts.writeUnlock ‹_›
    · exact counts

end

end Counts

/-- The invariant of the runs in which no writer tries again. -/
structure Inv (s : State P) : Prop where
  counts : s.Counts
  pending : s.pendingWriters = s.waiting.card
  small : s.pendingWriters < 2 ^ 32

/-- A waiting writer that tries again makes the counter wrong. -/
lemma pending_of_retry (pending : s.pendingWriters = s.waiting.card) (waits : p ∈ s.waiting) :
    (s.writeLock p).pendingWriters ≠ (s.writeLock p).waiting.card := by
  have some_writer : 0 < s.waiting.card := card_pos.mpr ⟨p, waits⟩
  rw [writeLock]
  split
  · simp only [pending, card_erase_of_mem waits]
    omega
  simp only [pending, insert_eq_of_mem waits]
  omega

lemma pending_of_step (pending : s.pendingWriters = s.waiting.card)
    (first : e.2 = .writeLock → e.1 ∉ s.waiting) (few : (s.step e).waiting.card < 2 ^ 32) :
    (s.step e).pendingWriters = (s.step e).waiting.card := by
  obtain ⟨p, op⟩ := e
  cases op with
  | writeLock =>
    have outside := first rfl
    simp only [step, writeLock] at few ⊢
    split at few
    · simp only [*, if_true]
    split at few
    · simp [*]
    simp only [*, if_false, card_insert_of_notMem outside] at few ⊢
    omega
  | readLock =>
    simp only [step, readLock]
    split
    · exact pending
    split <;> exact pending
  | readUnlock =>
    simp only [step, readUnlock]
    split <;> exact pending
  | writeUnlock =>
    simp only [step, writeUnlock]
    split <;> exact pending

omit [DecidableEq P] in
/-- Without a writer, whether one can read depends on the counters. -/
lemma readable_iff (counts : s.Counts) (unwritten : s.writing = ∅) :
    s.readable ↔ s.reading.card ≠ 2 ^ 31 ∧ s.pendingWriters = 0 := by
  have few := counts.few
  rw [readable, counts.readers unwritten, bmod_card few]
  split <;> omega

lemma pending_lt (small : s.pendingWriters < 2 ^ 32) : (s.step e).pendingWriters < 2 ^ 32 := by
  obtain ⟨p, op⟩ := e
  cases op <;> simp only [step, readLock, readUnlock, writeLock, writeUnlock] <;> split <;>
    first | exact small | skip
  · split <;> exact small
  · split
    · exact small
    · exact Nat.mod_lt _ (by decide)

/-- One step from a state in which the counters are right. -/
lemma fine_step_iff (inv : s.Inv) : (s.step e).Fine ↔ s.Careful e := by
  have counts := inv.counts.step (e := e)
  constructor
  · intro fine
    refine ⟨?_, ?_, fun unwritten unwaited => ?_⟩
    · obtain ⟨p, op⟩ := e
      rintro rfl waits
      obtain ⟨outside, unwriting⟩ := inv.counts.apart p waits
      have pending := fine.pending
      rw [step, if_neg (by simp [outside, unwriting])] at pending
      exact pending_of_retry inv.pending waits pending
    · rw [← fine.pending]
      exact pending_lt inv.small
    · exact ((readable_iff counts unwritten).mp (fine.readable unwritten unwaited)).1
  · intro careful
    have pending := pending_of_step inv.pending careful.first careful.waiting
    refine ⟨counts.exclusive, pending, fun unwritten unwaited => ?_⟩
    rw [readable_iff counts unwritten, pending, unwaited]
    exact ⟨careful.reading unwritten unwaited, rfl⟩

/-- The lock guarantees what it should in every state of a run exactly if no writer has to try twice, fewer
    than 2³² writers wait, and 2³¹ readers never meet while no writer is there. -/
theorem rwlock_fine_iff (es : List (P × Op)) :
    Along step (fun s e => (s.step e).Fine) start es ↔ Along step Careful start es := by
  refine Along.congr_inv (I := Inv) (fun s e inv => fine_step_iff inv)
    (fun s e inv careful => ?_) ⟨Counts.start, rfl, Nat.two_pow_pos 32⟩
  exact ⟨inv.counts.step, pending_of_step inv.pending careful.first careful.waiting, pending_lt inv.small⟩

/-- A writer waited for a reader and has got the lock and given it back. No one has it or waits for it, and no
    one can read. -/
theorem readers_locked_out : ∃ s : State (Fin 2),
    s = [(0, Op.readLock), (1, .writeLock), (0, .readUnlock), (1, .writeLock), (1, .writeUnlock)].foldl
      step start ∧ s.writing = ∅ ∧ s.waiting = ∅ ∧ s.pendingWriters = 1 ∧ ¬ s.readable := by
  refine ⟨_, rfl, ?_⟩
  decide

/-- In every run, also where writers try again, `readers` tells who has the lock: one writer alone, or
    that many readers. -/
theorem rwlock_counts (es : List (P × Op)) : (es.foldl step start).Counts := by
  induction es using List.reverseRecOn with
  | nil => exact Counts.start
  | append_singleton es e ih =>
    rw [List.foldl_append]
    exact ih.step

end State

end Znu.Sync.Rwlock
