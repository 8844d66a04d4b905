import Mathlib

/-! # Linked lists

A list threaded through memory: from a starting point, following `next` leads through
the elements in order and ends at `null`. Such a list is determined by its start, so it
never repeats an element.
-/

namespace Znu.Lib

open List

inductive Linked {A : Type} (null : A) (next : A → A) : A → List A → Prop
  | nil : Linked null next null []
  | cons {a l} (real : a ≠ null) (rest : Linked null next (next a) l) : Linked null next a (a :: l)

namespace Linked

variable {A : Type} {null a b : A} {next next' : A → A} {l l' : List A}

lemma congr (linked : Linked null next a l) (same : ∀ b ∈ l, next' b = next b) : Linked null next' a l := by
  induction linked with
  | nil => exact .nil
  | @cons a l real rest ih =>
    refine .cons real ?_
    rw [same a mem_cons_self]
    exact ih fun b listed => same b (mem_cons_of_mem _ listed)

lemma head (linked : Linked null next a (b :: l)) : a = b ∧ b ≠ null ∧ Linked null next (next b) l := by
  cases linked with
  | cons real rest => exact ⟨rfl, real, rest⟩

lemma of_ne_null (linked : Linked null next a l) (real : a ≠ null) : ∃ tail, l = a :: tail := by
  cases linked with
  | nil => exact absurd rfl real
  | @cons _ tail => exact ⟨tail, rfl⟩

lemma unique (left : Linked null next a l) (right : Linked null next a l') : l = l' := by
  induction left generalizing l' with
  | nil =>
    cases right with
    | nil => rfl
    | cons real => exact absurd rfl real
  | cons real rest ih =>
    cases right with
    | nil => exact absurd rfl real
    | cons _ rest' => rw [ih rest']

/-- The list continues the same way from each of its elements. -/
lemma suffix (linked : Linked null next a l) (listed : b ∈ l) :
    ∃ tail, Linked null next b (b :: tail) ∧ (b :: tail) <:+ l := by
  induction linked with
  | nil => cases listed
  | cons real rest ih =>
    rcases mem_cons.mp listed with rfl | later
    · exact ⟨_, .cons real rest, suffix_rfl⟩
    · obtain ⟨tail, found, above⟩ := ih later
      exact ⟨tail, found, above.trans (suffix_cons _ _)⟩

lemma nodup (linked : Linked null next a l) : l.Nodup := by
  induction linked with
  | nil => exact nodup_nil
  | cons real rest ih =>
    refine nodup_cons.mpr ⟨fun again => ?_, ih⟩
    obtain ⟨tail, found, above⟩ := rest.suffix again
    have same := (Linked.cons real rest).unique found
    have short := above.length_le
    rw [← same, length_cons] at short
    omega

end Linked

end Znu.Lib
