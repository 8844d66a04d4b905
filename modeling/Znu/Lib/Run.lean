import Mathlib

/-! # Runs of a labelled transition system -/

namespace Znu.Lib

open Option

/-- The states a system goes through while it takes the listed steps. -/
inductive Run {S E : Type} (step : S → E → S → Prop) : S → List E → S → Prop where
  | nil (s) : Run step s [] s
  | cons : step s e s' → Run step s' es s'' → Run step s (e :: es) s''

namespace Run

variable {S E : Type} {step : S → E → S → Prop} {s s' : S} {es : List E}

/-- A property that every step keeps holds at the end of every run. -/
lemma invariant {Inv : S → Prop} (keeps : ∀ s e s', Inv s → step s e s' → Inv s')
    (run : Run step s es s') (start : Inv s) : Inv s' := by
  induction run with
  | nil => exact start
  | cons first _ ih => exact ih (keeps _ _ _ start first)

/-- A run computed by a function that takes the steps. -/
lemma of_foldlM {next : S → E → Option S} (sound : ∀ s e s', next s e = some s' → step s e s')
    (computed : es.foldlM next s = some s') : Run step s es s' := by
  induction es generalizing s with
  | nil =>
    cases computed
    exact .nil _
  | cons e es ih =>
    obtain ⟨s₁, first, rest⟩ := bind_eq_some_iff.mp computed
    exact .cons (sound _ e s₁ first) (ih rest)

/-- A run found by computing it, whose last state passes a test. -/
lemma of_check (next : S → E → Option S) (sound : ∀ s e s', next s e = some s' → step s e s')
    (s : S) (es : List E) (check : S → Bool) (passes : (es.foldlM next s).any check = true) :
    ∃ s', Run step s es s' ∧ check s' = true := by
  obtain ⟨s', computed, passed⟩ := (any_eq_true ..).mp passes
  exact ⟨s', of_foldlM sound computed, passed⟩

end Run

/-- The steps that meet a condition on the state before them. -/
def When {S E : Type} (step : S → E → S → Prop) (C : S → E → Prop) (s : S) (e : E) (s' : S) : Prop :=
  step s e s' ∧ C s e

/-- A run found by computing it, all of whose steps meet a condition. -/
lemma Run.of_check_when {S E : Type} {step : S → E → S → Prop} (next : S → E → Option S)
    (sound : ∀ s e s', next s e = some s' → step s e s') (C : S → E → Prop) [∀ s e, Decidable (C s e)]
    (s : S) (es : List E) (check : S → Bool)
    (passes : (es.foldlM (fun s e => if C s e then next s e else none) s).any check = true) :
    ∃ s', Run (When step C) s es s' ∧ check s' = true := by
  refine of_check _ (fun s e s' computed => ?_) s es check passes
  obtain ⟨meets, computed⟩ := ite_none_right_eq_some.mp computed
  exact ⟨sound s e s' computed, meets⟩

/-- Steps beside which a history is written. -/
def Recorded {S E H : Type} (step : S → E → S → Prop) (record : S → E → H → H)
    (before : S × H) (e : E) (after : S × H) : Prop :=
  step before.1 e after.1 ∧ after.2 = record before.1 e before.2

end Znu.Lib
