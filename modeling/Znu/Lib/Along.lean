import Mathlib

/-! # Properties along a run

A system that takes its steps by a function goes through one state after the other. A property of
a state and the step taken from it holds along a run when it holds at each of them.
-/

namespace Znu.Lib

variable {S E : Type} {step : S → E → S} {P Q D : S → E → Prop} {I : S → Prop} {s : S} {es : List E}

def Along (step : S → E → S) (P : S → E → Prop) : S → List E → Prop
  | _, [] => True
  | s, e :: es => P s e ∧ Along step P (step s e) es

instance Along.decidable (step : S → E → S) (P : S → E → Prop) [∀ s e, Decidable (P s e)] :
    (s : S) → (es : List E) → Decidable (Along step P s es)
  | _, [] => .isTrue trivial
  | s, e :: es =>
    have := Along.decidable step P (step s e) es
    inferInstanceAs (Decidable (P s e ∧ Along step P (step s e) es))

/-- Two properties come to the same along every run that starts with the invariant and stays in the
    domain, if they do at each step and the second one keeps the invariant. -/
lemma Along.congr (same : ∀ s e, I s → D s e → (P s e ↔ Q s e))
    (keeps : ∀ s e, I s → D s e → Q s e → I (step s e)) (start : I s)
    (domain : Along step D s es) : Along step P s es ↔ Along step Q s es := by
  induction es generalizing s with
  | nil => exact Iff.rfl
  | cons e es ih =>
    obtain ⟨here, later⟩ := domain
    constructor
    · rintro ⟨first, rest⟩
      have first := (same s e start here).mp first
      exact ⟨first, (ih (keeps s e start here first) later).mp rest⟩
    · rintro ⟨first, rest⟩
      exact ⟨(same s e start here).mpr first, (ih (keeps s e start here first) later).mpr rest⟩

/-- A property follows along every run from another one that keeps an invariant. -/
lemma Along.imp (holds : ∀ s e, I s → Q s e → P s e) (keeps : ∀ s e, I s → Q s e → I (step s e))
    (start : I s) (along : Along step Q s es) : Along step P s es := by
  induction es generalizing s with
  | nil => trivial
  | cons e es ih =>
    obtain ⟨here, later⟩ := along
    exact ⟨holds s e start here, ih (keeps s e start here) later⟩

lemma Along.of_forall (all : ∀ s e, P s e) (s : S) (es : List E) : Along step P s es := by
  induction es generalizing s with
  | nil => trivial
  | cons e es ih => exact ⟨all s e, ih (step s e)⟩

/-- The same without a domain. -/
lemma Along.congr_inv (same : ∀ s e, I s → (P s e ↔ Q s e))
    (keeps : ∀ s e, I s → Q s e → I (step s e)) (start : I s) : Along step P s es ↔ Along step Q s es :=
  Along.congr (D := fun _ _ => True) (fun s e inv _ => same s e inv) (fun s e inv _ => keeps s e inv) start
    (.of_forall (fun _ _ => trivial) s es)

lemma Along.last {e : E} (along : Along step P s (es ++ [e])) : P (es.foldl step s) e := by
  induction es generalizing s with
  | nil => exact along.1
  | cons _ es ih => exact ih along.2

end Znu.Lib
