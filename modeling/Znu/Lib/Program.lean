import Znu.Lib.Bytes

/-! # Programs that read and write memory

A program is a tree: it ends with a value, or reads a byte and goes on with what it has read, or writes
one. Each access is made through a pointer of some kind. What a program does to a memory is read off the
tree, so a rule about sequences is enough to reason about every program written with `do`.
-/

namespace Znu.Lib

inductive Program (K α : Type) where
  | done (value : α)
  | read (via : K) (addr : Nat) (next : UInt8 → Program K α)
  | write (addr : Nat) (byte : UInt8) (next : Program K α)

namespace Program

variable {K α β : Type}

def bind : Program K α → (α → Program K β) → Program K β
  | .done value, f => f value
  | .read via addr next, f => .read via addr fun byte => (next byte).bind f
  | .write addr byte next, f => .write addr byte (next.bind f)

instance : Monad (Program K) where
  pure := .done
  bind := .bind

/-- The value a program ends with, and the memory then. -/
def run : Program K α → Bytes → α × Bytes
  | .done value, m => (value, m)
  | .read _ addr next, m => (next (m addr)).run m
  | .write addr byte next, m => next.run (Function.update m addr byte)

def value (p : Program K α) (m : Bytes) : α := (p.run m).1

def after (p : Program K α) (m : Bytes) : Bytes := (p.run m).2

variable {m : Bytes} {p q : Program K α} {f : α → Program K β}

@[simp] lemma value_pure (value : α) : (pure value : Program K α).value m = value := rfl

@[simp] lemma after_pure (value : α) : (pure value : Program K α).after m = m := rfl

lemma run_bind : (p >>= f).run m = (f (p.value m)).run (p.after m) := by
  induction p generalizing m with
  | done value => rfl
  | read via addr next ih => exact ih (m addr)
  | write addr byte next ih => exact ih

@[simp] lemma value_bind : (p >>= f).value m = (f (p.value m)).value (p.after m) :=
  congrArg Prod.fst run_bind

@[simp] lemma after_bind : (p >>= f).after m = (f (p.value m)).after (p.after m) :=
  congrArg Prod.snd run_bind

/-- Nothing is ever written, and all is read through one kind of pointer. -/
def Reads (k : K) : Program K α → Prop
  | .done _ => True
  | .read via _ next => via = k ∧ ∀ byte, (next byte).Reads k
  | .write _ _ _ => False

variable {k : K}

@[simp] lemma reads_pure (value : α) : (pure value : Program K α).Reads k := trivial

lemma Reads.bind (first : p.Reads k) (rest : ∀ a, (f a).Reads k) : (p >>= f).Reads k := by
  induction p with
  | done value => exact rest value
  | read via addr next ih => exact ⟨first.1, fun byte => ih byte (first.2 byte)⟩
  | write addr byte next ih => exact first.elim

lemma Reads.ite {c : Prop} [Decidable c] (first : p.Reads k) (second : q.Reads k) :
    (if c then p else q).Reads k := by
  split
  · exact first
  · exact second

lemma Reads.after (reads : p.Reads k) : p.after m = m := by
  induction p with
  | done value => rfl
  | read via addr next ih => exact ih (m addr) (reads.2 (m addr))
  | write addr byte next ih => exact reads.elim

end Program

end Znu.Lib
