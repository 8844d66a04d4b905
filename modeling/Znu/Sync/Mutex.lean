import Znu.Lib.Run

/-! # The mutex

Each atomic operation and each plain store of `mutex.c` is one step of one process. The word counts the
process that has the mutex and all that wait for it, and one that waits gets it with a compare-and-swap
from 1 to 1: when it is the only one counted. The queue of waiters and the states of the processes only
decide who runs when; here everyone may run at any time.
-/

namespace Znu.Sync.Mutex

open Lib Finset Function Fintype

/-- The functions that get the mutex. -/
inductive Call where
  | lock
  | trylock
  | lockTimeout
  deriving DecidableEq

/-- Where a process is in the functions of the mutex. -/
inductive Place where
  | outside
  /-- the compare-and-swap has succeeded, `owner_pid` is still to be stored -/
  | acquired
  | owner
  /-- the first compare-and-swap has failed -/
  | contending (timed : Bool)
  | waiting (timed : Bool)
  | expired
  /-- `owner_pid` has been compared -/
  | unlocking
  /-- `owner_pid` is 0 again -/
  | disowned
  | releasing
  /-- the mutex is released, the queue is still to be looked at -/
  | waking
  deriving DecidableEq

/-- From the successful acquisition to the releasing step. -/
def Place.holds : Place → Bool
  | .acquired | .owner | .unlocking | .disowned | .releasing => true
  | _ => false

/-- The word has been raised for the process. -/
def Place.counted : Place → Bool
  | .waiting _ | .expired => true
  | place => place.holds

structure State (P : Type) where
  word : Nat
  ownerPid : Nat
  place : P → Place

inductive Op where
  | acquire (call : Call)
  | own
  | add
  | retry
  | expire
  | compare
  | disown
  | release
  | sub
  | wake
  deriving DecidableEq

variable {P : Type}

namespace State

variable [DecidableEq P]

def start : State P := ⟨0, 0, fun _ => .outside⟩

/-- One process goes on, and the word and the owner become these. -/
def move (s : State P) (p : P) (place : Place) (word ownerPid : Nat) : State P :=
  ⟨word, ownerPid, Function.update s.place p place⟩

def next (pid : P → Nat) (s : State P) (e : P × Op) : Option (State P) :=
  let stay := fun place => some (s.move e.1 place s.word s.ownerPid)
  match s.place e.1, e.2 with
  | .outside, .acquire call =>
      if s.word = 0 then some (s.move e.1 .acquired 1 s.ownerPid)
      else match call with
        | .lock => stay (.contending false)
        | .trylock => some s
        | .lockTimeout => stay (.contending true)
  | .acquired, .own => some (s.move e.1 .owner s.word (pid e.1))
  | .contending timed, .add => some (s.move e.1 (.waiting timed) ((s.word + 1) % 2 ^ 32) s.ownerPid)
  | .waiting _, .retry => if s.word = 1 then some (s.move e.1 .acquired 1 s.ownerPid) else some s
  | .waiting true, .expire => stay .expired
  | .expired, .sub => some (s.move e.1 .outside ((s.word + (2 ^ 32 - 1)) % 2 ^ 32) s.ownerPid)
  | .outside, .compare => if s.ownerPid = pid e.1 then stay .unlocking else some s
  | .owner, .compare => if s.ownerPid = pid e.1 then stay .unlocking else some s
  | .unlocking, .disown => some (s.move e.1 .disowned s.word 0)
  | .disowned, .release =>
      if s.word = 1 then some (s.move e.1 .outside 0 s.ownerPid) else stay .releasing
  | .releasing, .sub => some (s.move e.1 .waking ((s.word + (2 ^ 32 - 1)) % 2 ^ 32) s.ownerPid)
  | .waking, .wake => stay .outside
  | _, _ => none

end State

open State

def Step {P : Type} [DecidableEq P] (pid : P → Nat) (s : State P) (e : P × Op) (s' : State P) : Prop :=
  s.next pid e = some s'

section

variable [Fintype P] [DecidableEq P] {place : P → Place} {p q : P}

/-- The number of the others for which the word has been raised. -/
def others (place : P → Place) (p : P) : Nat := ∑ q ∈ Finset.univ.erase p, (place q).counted.toNat

lemma others_lt : others place p < card P := by
  have small : others place p ≤ (univ.erase p).card • 1 :=
    sum_le_card_nsmul _ _ _ fun q _ => (place q).counted.toNat_le
  rw [smul_eq_mul, mul_one] at small
  exact small.trans_lt (card_erase_lt_of_mem (mem_univ p))

lemma others_update (b : Place) : others (update place p b) p = others place p := by
  refine sum_congr rfl fun q listed => ?_
  rw [update_of_ne (ne_of_mem_erase listed)]

lemma counted_of_holds {b : Place} (holds : b.holds) : b.counted := by
  cases b <;> first | exact holds | rfl

lemma others_eq_zero_iff : others place p = 0 ↔ ∀ q, q ≠ p → (place q).counted = false := by
  simp only [others, sum_eq_zero_iff, mem_erase, mem_univ, and_true, Bool.toNat_eq_zero]

lemma no_holder_of_others (none : others place p = 0) (other : q ≠ p) : (place q).holds = false := by
  have uncounted := others_eq_zero_iff.mp none q other
  by_contra holds
  rw [counted_of_holds (Bool.of_not_eq_false holds)] at uncounted
  cases uncounted

end

/-- What holds in every state: the word counts, at most one process has the mutex, and `owner_pid` is
    the number of a process that has it. -/
structure Inv {P : Type} [Fintype P] [DecidableEq P] (pid : P → Nat) (s : State P) : Prop where
  count : ∀ p, s.word = ((s.place p).counted.toNat + others s.place p) % 2 ^ 32
  alone : ∀ p q, (s.place p).holds → (s.place q).holds → p = q
  owner : ∀ p, s.ownerPid = pid p → s.place p = .owner ∨ s.place p = .unlocking

namespace Inv

variable [Fintype P] [DecidableEq P] {pid : P → Nat} {s s' : State P} {p q : P} {b : Place}
  {word ownerPid : Nat}

lemma start (nonzero : ∀ p, pid p ≠ 0) : Inv pid start :=
  ⟨fun p => by simp [State.start, others, Place.counted, Place.holds], nofun,
    fun p same => absurd same.symm (nonzero p)⟩

lemma total (p q : P) (place : P → Place) :
    (place p).counted.toNat + others place p = (place q).counted.toNat + others place q := by
  have sum := fun r => add_sum_erase _ (fun q => (place q).counted.toNat) (mem_univ r)
  exact (sum p).trans (sum q).symm

section

variable (inv : Inv pid s)

include inv

lemma move (count : word = (b.counted.toNat + others s.place p) % 2 ^ 32)
    (alone : b.holds → ∀ q, q ≠ p → (s.place q).holds = false)
    (mine : ownerPid = pid p → b = .owner ∨ b = .unlocking)
    (theirs : ∀ q, q ≠ p → ownerPid = pid q → s.ownerPid = pid q) :
    Inv pid (s.move p b word ownerPid) := by
  refine ⟨fun q => ?_, fun q r => ?_, fun q => ?_⟩
  · rw [total q p]
    simpa [State.move, others_update] using count
  · simp only [State.move, update_apply]
    split <;> split
    · exact fun _ _ => by simp [*]
    · exact fun holds later => absurd later (by simp [alone holds r ‹_›])
    · exact fun later holds => absurd later (by simp [alone holds q ‹_›])
    · exact inv.alone q r
  · simp only [State.move, update_apply]
    split
    · rename_i same
      exact fun is => mine (same ▸ is)
    · exact fun is => inv.owner q (theirs q ‹_› is)

/-- No one else has the mutex while this process has it. -/
lemma no_other (holds : (s.place p).holds) (other : q ≠ p) : (s.place q).holds = false :=
  Bool.eq_false_iff.mpr fun theirs => other (inv.alone q p theirs holds)

/-- One process goes on and leaves the word and the owner as they are. -/
lemma stay (counted : b.counted = (s.place p).counted)
    (holds : b.holds → (s.place p).holds) (mine : s.ownerPid = pid p → b = .owner ∨ b = .unlocking) :
    Inv pid (s.move p b s.word s.ownerPid) :=
  inv.move (counted ▸ inv.count p) (fun has _ other => inv.no_other (holds has) other) mine fun _ _ is => is

/-- A process that no one else is counted with gets the mutex. -/
lemma acquire (none : others s.place p = 0) (stranger : s.ownerPid ≠ pid p) :
    Inv pid (s.move p .acquired 1 s.ownerPid) := by
  refine inv.move ?_ (fun _ _ other => no_holder_of_others none other) (fun is => absurd is stranger)
    fun _ _ is => is
  rw [none]
  rfl

/-- A process that the word counts is no longer counted. -/
lemma sub (counted : (s.place p).counted)
    (uncounted : b.counted = false) (mine : s.ownerPid ≠ pid p) :
    Inv pid (s.move p b ((s.word + (2 ^ 32 - 1)) % 2 ^ 32) s.ownerPid) := by
  have count := inv.count p
  rw [counted, Bool.toNat_true] at count
  refine inv.move ?_ (fun has => ?_) (fun is => absurd is mine) fun _ _ is => is
  · rw [uncounted, Bool.toNat_false]
    omega
  · rw [counted_of_holds has] at uncounted
    cases uncounted

end

lemma step (few : card P ≤ 2 ^ 32) (distinct : Injective pid)
    (nonzero : ∀ p, pid p ≠ 0) (inv : Inv pid s) {op : Op} (step : Step pid s (p, op) s') :
    Inv pid s' := by
  have count := inv.count p
  have small : others s.place p < 2 ^ 32 := others_lt.trans_le few
  have mine := inv.owner p
  rw [Step, next] at step
  dsimp only at step
  split at step
  next call here =>
    rw [here] at count mine
    have stranger : s.ownerPid ≠ pid p := by simpa using mine
    have join : ∀ timed, Inv pid (s.move p (.contending timed) s.word s.ownerPid) := fun timed =>
      inv.stay (by rw [here]; rfl) nofun fun is => absurd is stranger
    split at step
    · have none : others s.place p = 0 := by
        change s.word = (0 + others s.place p) % 2 ^ 32 at count
        omega
      cases step
      exact inv.acquire none stranger
    · cases call with cases step
      | lock =>
        exact join false
      | trylock =>
        exact inv
      | lockTimeout =>
        exact join true
  next here =>
    cases step
    refine inv.move ?_ (fun _ q other => inv.no_other (by rw [here]; rfl) other) (fun _ => .inl rfl) ?_
    · rw [count, here]
      rfl
    · exact fun q other is => absurd (distinct is).symm other
  next here =>
    rw [here] at count mine
    cases step
    refine inv.move ?_ nofun (fun is => absurd (mine is) (by simp)) fun _ _ is => is
    change s.word = (0 + others s.place p) % 2 ^ 32 at count
    change _ = (1 + others s.place p) % 2 ^ 32
    omega
  next here =>
    rw [here] at count mine
    split at step
    · have none : others s.place p = 0 := by
        change s.word = (1 + others s.place p) % 2 ^ 32 at count
        omega
      cases step
      exact inv.acquire none (by simpa using mine)
    · cases step
      exact inv
  next here =>
    rw [here] at mine
    cases step
    exact inv.stay (by rw [here]; rfl) nofun fun is => absurd is (by simpa using mine)
  next here =>
    rw [here] at mine
    obtain rfl := Option.some.inj step
    exact inv.sub (by rw [here]; rfl) rfl (by simpa using mine)
  next here =>
    rw [here] at mine
    rw [if_neg (by simpa using mine)] at step
    cases step
    exact inv
  next here =>
    split at step
    · cases step
      exact inv.stay (by rw [here]; rfl) (fun _ => by rw [here]; rfl) fun _ => .inr rfl
    cases step
    exact inv
  next here =>
    cases step
    refine inv.move ?_ (fun _ q other => inv.no_other (by rw [here]; rfl) other) ?_ ?_
    · rw [count, here]
      rfl
    · exact fun is => absurd is.symm (nonzero p)
    · exact fun q _ is => absurd is.symm (nonzero q)
  next here =>
    rw [here] at count mine
    have stranger : s.ownerPid ≠ pid p := by simpa using mine
    split at step
    · cases step
      refine inv.move ?_ nofun (fun is => absurd is stranger) fun _ _ is => is
      change s.word = (1 + others s.place p) % 2 ^ 32 at count
      change 0 = (0 + others s.place p) % 2 ^ 32
      omega
    · cases step
      exact inv.stay (by rw [here]; rfl) (fun _ => by rw [here]; rfl) fun is => absurd is stranger
  next here =>
    rw [here] at mine
    obtain rfl := Option.some.inj step
    exact inv.sub (by rw [here]; rfl) rfl (by simpa using mine)
  next here =>
    rw [here] at mine
    cases step
    exact inv.stay (by rw [here]; rfl) nofun fun is => absurd (mine is) (by simp)
  · cases step

end Inv

section

variable [Fintype P] [DecidableEq P] {pid : P → Nat} {s : State P} {es : List (P × Op)}

lemma Inv.of_run (few : card P ≤ 2 ^ 32) (distinct : Injective pid)
    (nonzero : ∀ p, pid p ≠ 0) (run : Run (Step pid) State.start es s) : Inv pid s :=
  run.invariant (fun _ _ _ inv step => inv.step few distinct nonzero step) (Inv.start nonzero)

/-- At most one process has the mutex, and one that does not have it unlocks nothing. -/
theorem mutex_exclusive (few : card P ≤ 2 ^ 32) (distinct : Function.Injective pid)
    (nonzero : ∀ p, pid p ≠ 0) (run : Run (Step pid) State.start es s) :
    (∀ p q, (s.place p).holds → (s.place q).holds → p = q) ∧
      ∀ p s', (s.place p).holds = false → Step pid s (p, .compare) s' → s' = s := by
  have inv := Inv.of_run few distinct nonzero run
  refine ⟨inv.alone, fun p s' without step => ?_⟩
  have stranger : s.ownerPid ≠ pid p := by
    intro is
    cases inv.owner p is with
    | inl owner =>
      rw [owner] at without
      cases without
    | inr unlocking =>
      rw [unlocking] at without
      cases without
  rw [Step, State.next] at step
  split at step <;> simp_all

/-- The processes of a full table, one of which waits while another one has the mutex. -/
theorem table_exclusive : ∃ s : State (Fin 64),
    (s.place 0).holds = true ∧ (s.place 1).counted = true ∧
      ∀ p q, (s.place p).holds → (s.place q).holds → p = q := by
  obtain ⟨s, run, check⟩ := Run.of_check (next fun p : Fin 64 => p.val + 1) (fun _ _ _ is => is)
    start [(0, .acquire .lock), (0, .own), (1, .acquire .lock), (1, .add)]
    (fun s => (s.place 0).holds && (s.place 1).counted) (by decide)
  obtain ⟨holds, counted⟩ := Bool.and_eq_true_iff.mp check
  refine ⟨s, holds, counted, (mutex_exclusive (by decide) ?_ (fun p => p.val.succ_ne_zero) run).1⟩
  exact fun p q same => Fin.ext (Nat.succ.inj same)

/-- While no one has the mutex, a process that waits gets it with its next compare-and-swap exactly if
    the word counts only one. -/
theorem waiter_acquires_iff (few : card P ≤ 2 ^ 32) (distinct : Function.Injective pid)
    (nonzero : ∀ p, pid p ≠ 0) (run : Run (Step pid) State.start es s)
    (free : ∀ p, (s.place p).holds = false) {p : P} {timed : Bool} (waits : s.place p = .waiting timed) :
    (∃ q t s', s.place q = .waiting t ∧ Step pid s (q, .retry) s' ∧ (s'.place q).holds) ↔
      ∀ q, (s.place q).counted → q = p := by
  have inv := Inv.of_run few distinct nonzero run
  have count := inv.count p
  rw [waits] at count
  change s.word = (1 + others s.place p) % 2 ^ 32 at count
  have small : others s.place p < 2 ^ 32 := others_lt.trans_le few
  constructor
  · rintro ⟨q, t, s', waiting, step, holds⟩ r counted
    simp only [Step, State.next, waiting] at step
    split at step
    · have none : others s.place p = 0 := by omega
      by_contra other
      rw [others_eq_zero_iff.mp none r other] at counted
      cases counted
    cases step
    rw [free q] at holds
    cases holds
  · intro only
    have none : others s.place p = 0 := others_eq_zero_iff.mpr fun q other =>
      Bool.eq_false_iff.mpr fun counted => other (only q counted)
    have one : s.word = 1 := by omega
    refine ⟨p, timed, s.move p .acquired 1 s.ownerPid, waits, ?_, ?_⟩
    · simp only [Step, State.next, waits, if_pos one]
    · simp [State.move, Place.holds]

/-- A process that came too late for the first compare-and-swap is alone and gets the mutex. -/
theorem late_waiter_acquires : ∃ s : State (Fin 64), s.place 1 = .waiting false ∧
    ∃ q t s', s.place q = .waiting t ∧ Step (fun p : Fin 64 => p.val + 1) s (q, .retry) s' ∧
      (s'.place q).holds := by
  obtain ⟨s, run, check⟩ := Run.of_check (next fun p : Fin 64 => p.val + 1) (fun _ _ _ is => is)
    start [(0, .acquire .lock), (0, .own), (1, .acquire .lock), (1, .add), (0, .compare),
      (0, .disown), (0, .release), (0, .sub), (0, .wake)]
    (fun s => s.place 1 = .waiting false ∧ (∀ p, (s.place p).holds = false) ∧
      ∀ q, (s.place q).counted → q = 1) (by decide)
  obtain ⟨waits, free, only⟩ := of_decide_eq_true check
  refine ⟨s, waits, (waiter_acquires_iff (by decide) ?_ (fun p => p.val.succ_ne_zero) run free waits).mpr
    only⟩
  exact fun p q same => Fin.ext (Nat.succ.inj same)

/-- Two processes wait, no one has the mutex, and neither will get it. -/
theorem two_waiters_starve : ∃ es, ∃ s : State (Fin 3), Run (Step fun p : Fin 3 => p.val + 1) start es s ∧
    s.place = ![.outside, .waiting false, .waiting false] ∧ s.word = 2 ∧
      ∀ q s', Step (fun p : Fin 3 => p.val + 1) s (q, .retry) s' → s' = s := by
  obtain ⟨s, run, check⟩ := Run.of_check (next fun p : Fin 3 => p.val + 1) (fun _ _ _ is => is)
    start [(0, .acquire .lock), (0, .own), (1, .acquire .lock), (1, .add), (2, .acquire .lock),
      (2, .add), (0, .compare), (0, .disown), (0, .release), (0, .sub), (0, .wake)]
    (fun s => s.place = ![.outside, .waiting false, .waiting false] ∧ s.word = 2) (by decide)
  obtain ⟨places, two⟩ := of_decide_eq_true check
  refine ⟨_, s, run, places, two, fun q s' step => ?_⟩
  simp only [Step, next, two] at step
  split at step <;> simp_all

end

end Znu.Sync.Mutex
