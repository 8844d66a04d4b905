import Mathlib

/-! # Searching a ring

A list is searched from a cursor on, around its end, for an element with a property. The
cursor then moves behind the one that was found. Searches in this way find the elements
with the property in turn.
-/

namespace Znu.Lib.Ring

open List

variable {α : Type} {ring : List α} {m : α → Bool} {x : α} {cursor i : Nat}

/-- The elements with the property, in the order in which they come round. -/
def round (ring : List α) (m : α → Bool) (cursor : Nat) : List α := (ring.rotate cursor).filter m

lemma find?_eq_head? (ring : List α) (m : α → Bool) (cursor : Nat) :
    (ring.rotate cursor).find? m = (round ring m cursor).head? :=
  (head?_filter ..).symm

lemma mem_round : x ∈ round ring m cursor ↔ x ∈ ring ∧ m x = true := by
  rw [round, mem_filter, mem_rotate]

lemma round_nodup (once : ring.Nodup) (m : α → Bool) (cursor : Nat) : (round ring m cursor).Nodup :=
  (nodup_rotate.mpr once).filter m

/-- From behind the element that was found, it is the last to come round. -/
lemma round_next (once : ring.Nodup) (found : (ring.rotate cursor).find? m = some x)
    (place : ring[i]? = some x) : round ring m (i + 1) = (round ring m cursor).rotate 1 := by
  obtain ⟨chosen, before, after, split, skipped⟩ := find?_eq_some_iff_append.mp found
  have passed : before.filter m = [] := by
    rw [filter_eq_nil_iff]
    intro y earlier
    simpa using skipped y earlier
  have size : ring.length = before.length + (after.length + 1) := by
    have lengths := congrArg length split
    simpa using lengths
  obtain ⟨inside, isX⟩ := List.getElem?_eq_some_iff.mp place
  have same : (before.length + cursor) % ring.length = i := by
    have here : (ring.rotate cursor)[before.length]? = some x := by
      rw [split, getElem?_append_right le_rfl, Nat.sub_self]
      rfl
    rw [getElem?_rotate (by omega)] at here
    obtain ⟨inside', isX'⟩ := List.getElem?_eq_some_iff.mp here
    exact (once.getElem_inj_iff).mp (isX'.trans isX.symm)
  have turned : ring.rotate (i + 1) = after ++ (before ++ [x]) := by
    have shift : ring.rotate (i + 1) = (ring.rotate cursor).rotate (before ++ [x]).length := by
      rw [rotate_rotate, ← rotate_mod, ← rotate_mod ring (cursor + _), ← same]
      congr 1
      rw [length_append, length_singleton, Nat.mod_add_mod]
      congr 1
      omega
    rw [shift, split, append_cons]
    exact rotate_append_length_eq ..
  rw [round, round, turned, split]
  simp only [filter_append, passed, filter_cons, chosen, if_true, filter_nil, nil_append]
  rw [rotate_cons_succ, rotate_zero]

end Znu.Lib.Ring
