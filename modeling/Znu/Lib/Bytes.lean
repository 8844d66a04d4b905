import Mathlib

/-! # Byte memory

A memory is a total map from addresses to bytes. Every write is a range store,
and numbers are read back little-endian, so the only facts needed about either
are whether an address lies in a range.
-/

namespace Znu.Lib

abbrev Bytes := Nat → UInt8

namespace Bytes

/-- The `n` bytes from `a` on are replaced by `src 0`, `src 1` and so on. -/
def store (m : Bytes) (a n : Nat) (src : Nat → UInt8) : Bytes :=
  fun x => if a ≤ x ∧ x < a + n then src (x - a) else m x

/-- The little-endian number in the `n` bytes from `a` on. -/
def word (m : Bytes) (a : Nat) : Nat → Nat
  | 0 => 0
  | n + 1 => (m a).toNat + 256 * word m (a + 1) n

/-- The `i`-th base 256 digit of a number. -/
def digit (v i : Nat) : UInt8 := UInt8.ofNat (v / 256 ^ i)

variable {m : Bytes} {a n x : Nat} {src : Nat → UInt8}

lemma store_inside (lower : a ≤ x) (upper : x < a + n) : m.store a n src x = src (x - a) :=
  if_pos ⟨lower, upper⟩

lemma store_outside (outside : ¬ (a ≤ x ∧ x < a + n)) : m.store a n src x = m x :=
  if_neg outside

variable {b v : Nat} {m' : Bytes}

/-- Equal bytes at two places are equal numbers. -/
lemma word_shift (same : ∀ i < n, m (a + i) = m' (b + i)) : m.word a n = m'.word b n := by
  induction n generalizing a b with
  | zero => rfl
  | succ n ih =>
    have first : m a = m' b := same 0 (by omega)
    have rest : m.word (a + 1) n = m'.word (b + 1) n := by
      refine ih fun i inside => ?_
      rw [Nat.add_assoc, Nat.add_assoc, Nat.add_comm 1 i]
      exact same (i + 1) (by omega)
    simp only [word, first, rest]

lemma word_congr (same : ∀ x, a ≤ x → x < a + n → m x = m' x) : m.word a n = m'.word a n :=
  word_shift fun i inside => same (a + i) (by omega) (by omega)

lemma word_lt (m : Bytes) (a n : Nat) : m.word a n < 256 ^ n := by
  induction n generalizing a with
  | zero => exact Nat.one_pos
  | succ n ih =>
    have head : (m a).toNat < 256 := (m a).toNat_lt
    have tail := ih (a + 1)
    rw [word, pow_succ]
    omega

lemma word_zero (zero : ∀ x, a ≤ x → x < a + n → m x = 0) : m.word a n = 0 := by
  induction n generalizing a with
  | zero => rfl
  | succ n ih =>
    have rest : m.word (a + 1) n = 0 := ih fun x lower upper => zero x (by omega) (by omega)
    rw [word, rest, zero a (by omega) (by omega)]
    rfl

lemma word_digits (digits : ∀ i < n, m (a + i) = digit v i) : m.word a n = v % 256 ^ n := by
  induction n generalizing a v with
  | zero => simp [word, Nat.mod_one]
  | succ n ih =>
    have rest : m.word (a + 1) n = v / 256 % 256 ^ n := by
      refine ih fun i inside => ?_
      have next := digits (i + 1) (by omega)
      rw [digit, pow_succ', ← Nat.div_div_eq_div_mul] at next
      rw [digit, ← next]
      congr 1
      omega
    have head : (m a).toNat = v % 256 := by
      have first := digits 0 (by omega)
      simp only [Nat.add_zero, digit, pow_zero, Nat.div_one] at first
      rw [first]
      exact UInt8.toNat_ofNat'
    rw [word, head, rest, pow_succ', Nat.mod_mul]

lemma word_store_same (fits : v < 256 ^ n) : (m.store a n (digit v)).word a n = v := by
  rw [word_digits (v := v), Nat.mod_eq_of_lt fits]
  intro i inside
  rw [store_inside (by omega) (by omega), Nat.add_sub_cancel_left]

lemma word_store_disjoint {k : Nat} (apart : b + k ≤ a ∨ a + n ≤ b) :
    (m.store a n src).word b k = m.word b k :=
  word_congr fun x lower upper => store_outside (by omega)

end Bytes

end Znu.Lib
