import Mathlib

/-! # A circular buffer with a count

The elements lie in a ring of slots, from the head on. The tail is the slot behind them, and their
number is kept beside it, so that all slots can be used. Putting stops when the slots are full, and
taking when they are empty.
-/

namespace Znu.Lib

open Function List Nat

structure Circular (α : Type) (size : Nat) where
  buf : Nat → α
  head : Nat
  tail : Nat
  count : Nat
  head_lt : head < size
  count_le : count ≤ size
  tail_eq : tail = (head + count) % size

namespace Circular

variable {α : Type} {size : Nat}

def free (r : Circular α size) : Nat := size - r.count

/-- The elements in the order in which they were put. -/
def contents (r : Circular α size) : List α :=
  (range r.count).map fun i => r.buf ((r.head + i) % size)

variable (r : Circular α size)

@[simp] lemma length_contents : r.contents.length = r.count := by
  simp [contents]

/-- The slots, and the tail, after a list has been written from the tail on. -/
def write (size : Nat) : List α → (Nat → α) → Nat → (Nat → α) × Nat
  | [], buf, tail => (buf, tail)
  | x :: xs, buf, tail => write size xs (Function.update buf tail x) ((tail + 1) % size)

/-- The elements from the head on, and the head behind them. -/
def read (size : Nat) (buf : Nat → α) : Nat → Nat → List α × Nat
  | 0, head => ([], head)
  | n + 1, head =>
    let rest := read size buf n ((head + 1) % size)
    (buf head :: rest.1, rest.2)

variable {start tail : Nat}

lemma next_place (place : tail = start % size) : (tail + 1) % size = (start + 1) % size := by
  rw [place, mod_add_mod]

lemma write_tail (xs : List α) (buf : Nat → α) (place : tail = start % size) :
    (write size xs buf tail).2 = (start + xs.length) % size := by
  induction xs generalizing buf start tail with
  | nil => exact place
  | cons x xs ih =>
    have next := next_place place
    rw [write, ih _ next, length_cons]
    congr 1
    omega

variable {head : Nat} {xs : List α}

lemma read_head (buf : Nat → α) (n : Nat) (place : head = start % size) :
    (read size buf n head).2 = (start + n) % size := by
  induction n generalizing start head with
  | zero => exact place
  | succ n ih =>
    have next := next_place place
    rw [read, ih next]
    congr 1
    omega

/-- As many elements as there is room for. -/
def put (r : Circular α size) (xs : List α) : Circular α size where
  buf := (write size (xs.take r.free) r.buf r.tail).1
  head := r.head
  tail := (write size (xs.take r.free) r.buf r.tail).2
  count := r.count + (xs.take r.free).length
  head_lt := r.head_lt
  count_le := by
    have room := r.count_le
    have taken := length_take_le r.free xs
    rw [free] at taken ⊢
    omega
  tail_eq := by rw [write_tail _ _ r.tail_eq, add_assoc]

/-- As many elements as there are, and not more than `n`. -/
def take (r : Circular α size) (n : Nat) : List α × Circular α size :=
  ((read size r.buf (min r.count n) r.head).1,
    { buf := r.buf
      head := (read size r.buf (min r.count n) r.head).2
      tail := r.tail
      count := r.count - min r.count n
      head_lt := by
        rw [read_head _ _ (mod_eq_of_lt r.head_lt).symm]
        exact mod_lt _ (zero_lt_of_lt r.head_lt)
      count_le := (sub_le ..).trans r.count_le
      tail_eq := by
        rw [read_head _ _ (mod_eq_of_lt r.head_lt).symm, mod_add_mod, r.tail_eq]
        congr 1
        omega })

lemma write_of_ne {buf : Nat → α} {x : Nat} (place : tail = start % size)
    (apart : ∀ i < xs.length, (start + i) % size ≠ x) : (write size xs buf tail).1 x = buf x := by
  induction xs generalizing buf start tail with
  | nil => rfl
  | cons y xs ih =>
    have next := next_place place
    rw [write, ih next]
    · rw [update_of_ne]
      intro same
      exact apart 0 (succ_pos _) (by rw [add_zero, ← place, same])
    · intro i inside
      have later := apart (i + 1) (by rw [length_cons]; omega)
      rw [add_assoc, add_comm 1 i]
      exact later

lemma ne_of_lt {i j : Nat} (before : i < j) (small : j < size) : (start + j) % size ≠ (start + i) % size := by
  intro same
  have equal : j ≡ i [MOD size] := Nat.ModEq.add_left_cancel' start same
  have : j = i := Nat.ModEq.eq_of_lt_of_lt equal small (by omega)
  omega

lemma write_range (buf : Nat → α) (place : tail = start % size)
    (room : xs.length ≤ size) :
    (range xs.length).map (fun i => (write size xs buf tail).1 ((start + i) % size)) = xs := by
  induction xs generalizing buf start tail with
  | nil => rfl
  | cons x xs ih =>
    have next := next_place place
    rw [length_cons] at room ⊢
    have later := ih (update buf tail x) next (by omega)
    rw [range_succ_eq_map, map_cons, map_map, write]
    congr 1
    · rw [write_of_ne next]
      · rw [add_zero, ← place, update_self]
      · intro i inside
        rw [add_assoc, add_comm 1 i]
        exact ne_of_lt (succ_pos i) (by omega)
    · refine Eq.trans (map_congr_left fun i _ => ?_) later
      rw [comp_apply, succ_eq_add_one, add_assoc, add_comm 1 i]

lemma contents_put (xs : List α) : (r.put xs).contents = r.contents ++ xs.take r.free := by
  have taken := length_take_le r.free xs
  rw [free] at taken
  have place : r.tail = (r.head + r.count) % size := r.tail_eq
  rw [contents, put]
  dsimp only
  rw [range_add, map_append, map_map]
  congr 1
  · rw [contents]
    refine map_congr_left fun i inside => ?_
    have earlier := mem_range.mp inside
    rw [write_of_ne place]
    intro j small
    rw [add_assoc]
    exact ne_of_lt (by omega) (by rw [free] at small; omega)
  · refine Eq.trans (map_congr_left fun i _ => ?_) (write_range r.buf place ?_)
    · rw [comp_apply, add_assoc]
    · rw [free]
      omega

lemma read_eq (buf : Nat → α) (n : Nat) (place : head = start % size) :
    (read size buf n head).1 = (range n).map fun i => buf ((start + i) % size) := by
  induction n generalizing start head with
  | zero => rfl
  | succ n ih =>
    have next := next_place place
    rw [read]
    rw [ih next, range_succ_eq_map, map_cons, map_map, add_zero start, ← place]
    refine congrArg (buf head :: ·) (map_congr_left fun i _ => ?_)
    rw [comp_apply, succ_eq_add_one, add_assoc, add_comm 1 i]

/-- What is taken and what is left make up the contents. -/
lemma take_append (n : Nat) : (r.take n).1 ++ (r.take n).2.contents = r.contents := by
  have place : r.head = r.head % size := (mod_eq_of_lt r.head_lt).symm
  have all : range r.count = range (min r.count n + (r.count - min r.count n)) := by
    congr 1
    omega
  rw [take, contents, contents]
  dsimp only
  rw [read_eq _ _ place, read_head _ _ place, all, range_add, map_append, map_map]
  congr 1
  refine map_congr_left fun i _ => ?_
  rw [comp_apply, mod_add_mod, add_assoc]

@[simp] lemma count_take (n : Nat) : (r.take n).2.count = r.count - min r.count n := rfl

end Circular

end Znu.Lib
