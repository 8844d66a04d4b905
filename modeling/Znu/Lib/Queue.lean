import Mathlib

/-! # A queue in a ring

The elements lie in a ring of slots, from the tail on and up to the head, where the next one is
put. One slot stays free, so that a full ring is told from an empty one.
-/

namespace Znu.Lib.Queue

open List Function Nat

variable {α : Type} {size head tail : Nat} {buf : Nat → α}

def count (size head tail : Nat) : Nat := (head + size - tail) % size

/-- The elements in the order in which they were put. -/
def contents (size : Nat) (buf : Nat → α) (head tail : Nat) : List α :=
  (List.range (count size head tail)).map fun i => buf ((tail + i) % size)

@[simp] lemma length_contents : (contents size buf head tail).length = count size head tail := by
  simp [contents]

lemma next_eq (inside : head < size) : (head + 1) % size = if head + 1 = size then 0 else head + 1 := by
  split
  next last => rw [last, mod_self]
  · exact mod_eq_of_lt (by omega)

lemma wrap_eq {i : Nat} (inside : tail < size) (small : i < size) :
    (tail + i) % size = if tail + i < size then tail + i else tail + i - size := by
  split
  next before => exact mod_eq_of_lt before
  · rw [mod_eq_sub_mod (by omega)]
    exact mod_eq_of_lt (by omega)

section

variable (head_inside : head < size)

include head_inside

lemma count_eq (tail_inside : tail < size) :
    count size head tail = if tail ≤ head then head - tail else head + size - tail := by
  unfold count
  split
  · have shift : head + size - tail = head - tail + size := by omega
    rw [shift, add_mod_right]
    exact mod_eq_of_lt (by omega)
  · exact mod_eq_of_lt (by omega)

lemma count_lt (tail : Nat) : count size head tail < size :=
  mod_lt _ (by omega)

section

variable (tail_inside : tail < size)

include tail_inside

lemma count_eq_zero : count size head tail = 0 ↔ head = tail := by
  rw [count_eq head_inside tail_inside]
  split <;> omega

lemma full_iff : (head + 1) % size = tail ↔ count size head tail + 1 = size := by
  rw [next_eq head_inside, count_eq head_inside tail_inside]
  split <;> split <;> omega

lemma contents_push (space : (head + 1) % size ≠ tail) (x : α) :
    contents size (update buf head x) ((head + 1) % size) tail = contents size buf head tail ++ [x] := by
  have more : count size ((head + 1) % size) tail = count size head tail + 1 := by
    have next_inside : (head + 1) % size < size := mod_lt _ (by omega)
    rw [count_eq next_inside tail_inside, count_eq head_inside tail_inside]
    rw [next_eq head_inside] at space ⊢
    by_cases last : head + 1 = size
    · rw [if_pos last] at space ⊢
      split <;> split <;> omega
    · rw [if_neg last] at space ⊢
      split <;> split <;> omega
  have bound := count_lt head_inside tail
  have place : (tail + count size head tail) % size = head := by
    rw [wrap_eq tail_inside bound, count_eq head_inside tail_inside]
    split <;> split <;> omega
  unfold contents
  rw [more, range_succ, map_append, map_singleton, place, update_self]
  refine congrArg (· ++ [x]) (map_congr_left fun i member => ?_)
  have earlier : i < count size head tail := mem_range.mp member
  have apart : (tail + i) % size ≠ head := by
    rw [wrap_eq tail_inside (by omega)]
    rw [count_eq head_inside tail_inside] at earlier
    split at earlier <;> split <;> omega
  rw [update_of_ne apart]

lemma contents_pop (some : head ≠ tail) :
    contents size buf head tail = buf tail :: contents size buf head ((tail + 1) % size) := by
  have less : count size head tail = count size head ((tail + 1) % size) + 1 := by
    have next_inside : (tail + 1) % size < size := mod_lt _ (by omega)
    rw [count_eq head_inside next_inside, count_eq head_inside tail_inside, next_eq tail_inside]
    split <;> split <;> split <;> omega
  unfold contents
  rw [less, range_succ_eq_map, map_cons, map_map, add_zero, mod_eq_of_lt tail_inside]
  refine congrArg (buf tail :: ·) (map_congr_left fun i _ => ?_)
  rw [comp_apply, mod_add_mod, succ_eq_add_one, add_assoc, add_comm 1 i]

end

end

end Znu.Lib.Queue
