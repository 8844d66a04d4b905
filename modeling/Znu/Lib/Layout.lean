import Znu.Lib.Bytes

/-! # Lists in memory

A list of bytes lies in memory from an address on. What a program has written there so far
grows at its end, one byte at a time, and the rest of the memory stays as it was.
-/

namespace Znu.Lib

open Function Bytes Nat

open Function

open List

def bytesAt (memory : Bytes) (addr n : Nat) : List UInt8 :=
  (List.range n).map fun i => memory (addr + i)

/-- The bytes are in memory from an address on. -/
def Holds (memory : Bytes) : Nat → List UInt8 → Prop
  | _, [] => True
  | addr, b :: bytes => memory addr = b ∧ Holds memory (addr + 1) bytes

instance Holds.decidable (memory : Bytes) : (addr : Nat) → (bytes : List UInt8) →
    Decidable (Holds memory addr bytes)
  | _, [] => .isTrue trivial
  | addr, b :: bytes =>
    have := Holds.decidable memory (addr + 1) bytes
    inferInstanceAs (Decidable (memory addr = b ∧ Holds memory (addr + 1) bytes))

variable {memory before m : Bytes} {addr i n : Nat} {bytes : List UInt8}

lemma holds_append {first second : List UInt8} :
    Holds memory addr (first ++ second) ↔
      Holds memory addr first ∧ Holds memory (addr + first.length) second := by
  induction first generalizing addr with
  | nil => simp [Holds]
  | cons b first ih =>
    have shift : addr + (b :: first).length = addr + 1 + first.length := by
      rw [length_cons]
      omega
    rw [cons_append, Holds, Holds, ih, shift, and_assoc]

lemma bytesAt_of_holds (holds : Holds memory addr bytes) : bytesAt memory addr bytes.length = bytes := by
  induction bytes generalizing addr with
  | nil => rfl
  | cons b bytes ih =>
    obtain ⟨first, rest⟩ := holds
    have later := ih rest
    rw [bytesAt] at later ⊢
    rw [length_cons, range_succ_eq_map, map_cons, map_map, add_zero, first]
    refine congrArg (b :: ·) (Eq.trans (map_congr_left fun i _ => ?_) later)
    rw [comp_apply, succ_eq_add_one, add_assoc, add_comm 1 i]

lemma Holds.get (holds : Holds memory addr bytes) (inside : i < bytes.length) :
    memory (addr + i) = bytes.getD i 0 := by
  induction bytes generalizing addr i with
  | nil => cases inside
  | cons b bytes ih =>
    obtain ⟨first, rest⟩ := holds
    cases i with
    | zero => exact first
    | succ i =>
      have later := ih rest (lt_of_succ_lt_succ inside)
      rw [getD_cons_succ, ← later]
      congr 1
      omega

/-- The little-endian bytes of a number. -/
def littleEndian (n value : Nat) : List UInt8 := (List.range n).map (digit value)

@[simp] lemma length_littleEndian (n value : Nat) : (littleEndian n value).length = n := by
  simp [littleEndian]

lemma word_of_holds {value : Nat} (holds : Holds memory addr (littleEndian n value))
    (fits : value < 256 ^ n) : memory.word addr n = value := by
  rw [word_digits (v := value), mod_eq_of_lt fits]
  intro i inside
  rw [holds.get (by simpa using inside), littleEndian, getD_eq_getElem _ _ (by simpa using inside),
    getElem_map, getElem_range]

/-! ## Writing at the end -/

/-- The list has been written at an address, and nothing else. -/
structure Written (before memory : Bytes) (addr : Nat) (bytes : List UInt8) : Prop where
  holds : Holds memory addr bytes
  rest : ∀ x, x < addr ∨ addr + bytes.length ≤ x → memory x = before x

lemma Written.nil (memory : Bytes) (addr : Nat) : Written memory memory addr [] :=
  ⟨trivial, fun _ _ => rfl⟩

lemma Holds.update {x : Nat} (holds : Holds memory addr bytes) (past : addr + bytes.length ≤ x)
    (b : UInt8) : Holds (update memory x b) addr bytes := by
  induction bytes generalizing addr with
  | nil => trivial
  | cons c bytes ih =>
    obtain ⟨first, rest⟩ := holds
    rw [length_cons] at past
    refine ⟨?_, ih rest (by omega)⟩
    rw [update_of_ne (by omega), first]

lemma Written.concat (written : Written before memory addr bytes) (b : UInt8) :
    Written before (update memory (addr + bytes.length) b) addr (bytes ++ [b]) := by
  constructor
  · refine holds_append.mpr ⟨written.holds.update (le_refl _) b, ?_, trivial⟩
    exact update_self ..
  · intro x outside
    rw [length_append, length_singleton] at outside
    rw [update_of_ne (by omega)]
    exact written.rest x (by omega)

/-! ## Digits of a number in memory -/

lemma Bytes.digit_word (m : Bytes) (a n : Nat) (inside : i < n) : digit (m.word a n) i = m (a + i) := by
  induction n generalizing a i with
  | zero => omega
  | succ n ih =>
    cases i with
    | zero =>
      rw [word, digit, pow_zero, Nat.div_one, Nat.add_zero]
      simp
    | succ i =>
      have later := ih (a + 1) (lt_of_succ_lt_succ inside)
      rw [digit] at later ⊢
      have small : (m a).toNat < 256 := (m a).toNat_lt
      have head : ((m a).toNat + 256 * m.word (a + 1) n) / 256 = m.word (a + 1) n := by omega
      rw [word, pow_succ', ← Nat.div_div_eq_div_mul, head, later]
      congr 1
      omega

lemma Bytes.digit_mod (v : Nat) (inside : i < n) : digit (v % 256 ^ n) i = digit v i := by
  have held : word (digit v) 0 n = v % 256 ^ n :=
    word_digits fun i _ => by rw [zero_add]
  rw [← held, digit_word _ _ _ inside, zero_add]

/-- A number is in memory just if its digits are. -/
lemma Bytes.word_eq_iff {a v : Nat} : m.word a n = v % 256 ^ n ↔ ∀ i < n, m (a + i) = digit v i := by
  constructor
  · intro same i inside
    rw [← digit_word m a n inside, same, digit_mod v inside]
  · exact word_digits

end Znu.Lib
