import Mathlib

/-! # Trees of pointers

A table is a place that has, for each index, possibly a pointer to another place.
Starting at a root, a list of indices leads to a place or nowhere. The structure
is a tree on a set of paths when different paths of the set lead to different
places. Then writing one pointer changes what is found below that pointer and
nothing else, although places are shared memory and could in general be reached
in many ways.

Paths are written with the last index first, so that the parent of `i :: p` is
`p`.
-/

namespace Znu.Lib.Radix

open Option List

variable {F I : Type}

def node (child : F → I → Option F) (root : F) : List I → Option F
  | [] => some root
  | i :: p => (node child root p).bind (child · i)

def setChild [DecidableEq F] [DecidableEq I] (child : F → I → Option F) (t : F) (i : I) (v : Option F) :
    F → I → Option F :=
  fun t' i' => if t' = t ∧ i' = i then v else child t' i'

variable {child : F → I → Option F} {p : List I} {root : F}

lemma node_cons {t : F}
    (found : node child root p = some t) (i : I) : node child root (i :: p) = child t i := by
  simp only [node, found, bind_some]

lemma node_below_none {q : List I}
    (missing : node child root p = none) (below : p <:+ q) : node child root q = none := by
  induction q with
  | nil =>
    rw [suffix_nil.mp below] at missing
    exact missing
  | cons j q ih =>
    rcases suffix_cons_iff.mp below with same | deeper
    · exact same ▸ missing
    · simp only [node, ih deeper, bind_none]

/-- `inside` selects the paths on which the pointers form a tree. -/
structure IsTree (child : F → I → Option F) (root : F) (inside : List I → Prop) : Prop where
  closed : ∀ i p, inside (i :: p) → inside p
  injective : ∀ p q f, inside p → inside q →
    node child root p = some f → node child root q = some f → p = q

namespace IsTree

variable {child : F → I → Option F} {root t f : F} {inside : List I → Prop} {i : I} {p q : List I}

variable {child' : F → I → Option F}

/-- Places found along the paths of interest depend only on the pointers of
    places that are inner nodes of these paths. -/
lemma node_congr (closed : ∀ i p, inside (i :: p) → inside p)
    (same : ∀ i p u, inside (i :: p) → node child root p = some u → child' u i = child u i)
    (at_q : inside q) : node child' root q = node child root q := by
  induction q with
  | nil => rfl
  | cons j q ih =>
    simp only [node, ih (closed j q at_q)]
    cases reached : node child root q with
    | none => rfl
    | some u => exact same j q u at_q reached

lemma congr (tree : IsTree child root inside)
    (same : ∀ i p u, inside (i :: p) → node child root p = some u → child' u i = child u i) :
    IsTree child' root inside where
  closed := tree.closed
  injective := by
    intro q r g at_q at_r left right
    rw [node_congr tree.closed same at_q] at left
    rw [node_congr tree.closed same at_r] at right
    exact tree.injective q r g at_q at_r left right

variable [DecidableEq F] [DecidableEq I]

section

variable (tree : IsTree child root inside) (at_p : inside p) (found : node child root p = some t)

include tree at_p found

/-- Only paths through the written pointer are affected. -/
lemma node_setChild_elsewhere (v : Option F) (at_q : inside q) (elsewhere : ¬ (i :: p) <:+ q) :
    node (setChild child t i v) root q = node child root q := by
  induction q with
  | nil => rfl
  | cons j q ih =>
    have at_parent := tree.closed j q at_q
    have parent := ih at_parent fun below => elsewhere (below.trans (suffix_cons j q))
    simp only [node, parent]
    cases reached : node child root q with
    | none => rfl
    | some u =>
      refine if_neg ?_
      rintro ⟨rfl, rfl⟩
      have same := tree.injective p q u at_p at_parent found reached
      exact elsewhere (same ▸ suffix_rfl)

lemma node_setChild_self (v : Option F) : node (setChild child t i v) root (i :: p) = v := by
  have parent : node (setChild child t i v) root p = some t := by
    rw [tree.node_setChild_elsewhere at_p found v at_p, found]
    intro below
    have := below.length_le
    simp at this
  rw [node_cons parent]
  simp [setChild]

lemma node_below_empty (other : f ≠ t) (empty : ∀ j, child f j = none) (below : (i :: p) <:+ q)
    (ne : q ≠ i :: p) : node (setChild child t i (some f)) root q = none := by
  obtain ⟨r, rfl⟩ := below
  rcases eq_nil_or_concat r with rfl | ⟨r, j, rfl⟩
  · exact absurd rfl ne
  have missing : node (setChild child t i (some f)) root (j :: i :: p) = none := by
    rw [node_cons (tree.node_setChild_self at_p found (some f))]
    simp only [setChild, other, false_and, if_false, empty]
  refine node_below_none missing ⟨r, ?_⟩
  simp

end

/-- Attach a place that no path reaches. Either nothing can be below the pointer, or
    nothing was and the new place is empty. -/
lemma attach (tree : IsTree child root inside) (at_child : inside (i :: p))
    (found : node child root p = some t) (fresh : ∀ q, inside q → node child root q ≠ some f)
    (below : (∀ q, inside q → (i :: p) <:+ q → q = i :: p) ∨
      node child root (i :: p) = none ∧ ∀ j, child f j = none) :
    IsTree (setChild child t i (some f)) root inside ∧
      ∀ q, inside q → node (setChild child t i (some f)) root q =
        if q = i :: p then some f else node child root q := by
  have at_p := tree.closed i p at_child
  have value : ∀ q, inside q → node (setChild child t i (some f)) root q =
      if q = i :: p then some f else node child root q := by
    intro q at_q
    by_cases same : q = i :: p
    · rw [if_pos same, same]
      exact tree.node_setChild_self at_p found _
    rw [if_neg same]
    by_cases under : (i :: p) <:+ q
    · rcases below with maximal | ⟨vacant, empty⟩
      · exact absurd (maximal q at_q under) same
      · have other : f ≠ t := fun eq => fresh p at_p (eq ▸ found)
        rw [tree.node_below_empty at_p found other empty under same, node_below_none vacant under]
    · exact tree.node_setChild_elsewhere at_p found _ at_q under
  refine ⟨⟨tree.closed, ?_⟩, value⟩
  intro q r g at_q at_r left right
  rw [value q at_q] at left
  rw [value r at_r] at right
  split at left
  next isQ =>
    split at right
    next isR => rw [isQ, isR]
    · exact absurd (right.trans left.symm) (fresh r at_r)
  · split at right
    · exact absurd (left.trans right.symm) (fresh q at_q)
    · exact tree.injective q r g at_q at_r left right

lemma detach (tree : IsTree child root inside) (at_p : inside p)
    (found : node child root p = some t) (i : I) :
    IsTree (setChild child t i none) root inside ∧
      ∀ q, inside q → ((i :: p) <:+ q → node (setChild child t i none) root q = none) ∧
        (¬ (i :: p) <:+ q → node (setChild child t i none) root q = node child root q) := by
  have value : ∀ q, inside q → ((i :: p) <:+ q → node (setChild child t i none) root q = none) ∧
      (¬ (i :: p) <:+ q → node (setChild child t i none) root q = node child root q) :=
    fun q at_q => ⟨node_below_none (tree.node_setChild_self at_p found none),
      tree.node_setChild_elsewhere at_p found none at_q⟩
  refine ⟨⟨tree.closed, fun q r f at_q at_r left right => ?_⟩, value⟩
  have kept : ∀ q, inside q → node (setChild child t i none) root q = some f →
      node child root q = some f := by
    intro q at_q reached
    by_cases below : (i :: p) <:+ q
    · cases ((value q at_q).1 below).symm.trans reached
    · exact ((value q at_q).2 below).symm.trans reached
  exact tree.injective q r f at_q at_r (kept q at_q left) (kept r at_r right)

end IsTree

end Znu.Lib.Radix
