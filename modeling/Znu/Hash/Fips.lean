import Mathlib

/-! # SHA-256 in the standard

A message is a string of bits. It is padded to whole blocks of 512 bits, and each block, as
sixteen words, is compressed into eight words that begin as fixed constants. The digest is
these words at the end. Sections in comments are those of FIPS 180-4.
-/

namespace Znu.Hash.Fips

open List

abbrev Word := BitVec 32

/-! ## Functions and constants (4.1.2, 4.2.2, 5.3.3) -/

def ch (x y z : Word) : Word := (x &&& y) ^^^ (~~~x &&& z)

def maj (x y z : Word) : Word := (x &&& y) ^^^ (x &&& z) ^^^ (y &&& z)

def bigSigma0 (x : Word) : Word := x.rotateRight 2 ^^^ x.rotateRight 13 ^^^ x.rotateRight 22

def bigSigma1 (x : Word) : Word := x.rotateRight 6 ^^^ x.rotateRight 11 ^^^ x.rotateRight 25

def sigma0 (x : Word) : Word := x.rotateRight 7 ^^^ x.rotateRight 18 ^^^ x >>> 3

def sigma1 (x : Word) : Word := x.rotateRight 17 ^^^ x.rotateRight 19 ^^^ x >>> 10

/-- The first 64 primes. -/
def primes : List Nat := (range 312).filter fun p => 2 ≤ p ∧ ∀ m < p, 2 ≤ m → ¬ m ∣ p

/-- The first 32 bits of the fractional part of a root of a prime. -/
def fraction (degree t : Nat) : Word :=
  BitVec.ofNat 32 (Nat.nthRoot degree (primes.getD t 0 * 2 ^ (32 * degree)))

structure Words where
  a : Word
  b : Word
  c : Word
  d : Word
  e : Word
  f : Word
  g : Word
  h : Word
  deriving DecidableEq

def initial : Words where
  a := fraction 2 0
  b := fraction 2 1
  c := fraction 2 2
  d := fraction 2 3
  e := fraction 2 4
  f := fraction 2 5
  g := fraction 2 6
  h := fraction 2 7

/-! ## Padding and parsing (5.1.1, 5.2.1) -/

/-- The smallest `k` with `l + 1 + k` congruent to 448. -/
def zeros (l : Nat) : Nat :=
  Nat.find (⟨(959 - l % 512) % 512, by omega⟩ : ∃ k, (l + 1 + k) % 512 = 448)

def lengthBits (l : Nat) : List Bool := (range 64).map fun i => l.testBit (63 - i)

def pad (m : List Bool) : List Bool :=
  m ++ true :: (replicate (zeros m.length) false ++ lengthBits m.length)

/-- The bit that comes first is the most significant. -/
def word (bits : List Bool) : Word := BitVec.ofNat 32 (bits.foldl (fun n b => 2 * n + b.toNat) 0)

/-- Word `t` of block `i`. -/
def blockWord (m : List Bool) (i t : Nat) : Word := word ((m.drop (512 * i + 32 * t)).take 32)

/-! ## The computation (6.2.2) -/

def schedule (block : Nat → Word) (t : Nat) : Word :=
  if t < 16 then block t
  else sigma1 (schedule block (t - 2)) + schedule block (t - 7) + sigma0 (schedule block (t - 15)) +
    schedule block (t - 16)
termination_by t

def round (w : Nat → Word) (v : Words) (t : Nat) : Words :=
  let t1 := v.h + bigSigma1 v.e + ch v.e v.f v.g + fraction 3 t + w t
  let t2 := bigSigma0 v.a + maj v.a v.b v.c
  ⟨t1 + t2, v.a, v.b, v.c, v.d + t1, v.e, v.f, v.g⟩

def compress (h : Words) (block : Nat → Word) : Words :=
  let v := (range 64).foldl (round (schedule block)) h
  ⟨v.a + h.a, v.b + h.b, v.c + h.c, v.d + h.d, v.e + h.e, v.f + h.f, v.g + h.g, v.h + h.h⟩

def hash (m : List Bool) : Words :=
  (range ((pad m).length / 512)).foldl (fun h i => compress h (blockWord (pad m) i)) initial

def wordBits (x : Word) : List Bool := (range 32).map fun i => x.getLsbD (31 - i)

def digest (m : List Bool) : List Bool :=
  let h := hash m
  [h.a, h.b, h.c, h.d, h.e, h.f, h.g, h.h].flatMap wordBits

variable {block block' : Nat → Word} {t : Nat}

lemma schedule_first (first : t < 16) : schedule block t = block t := by
  rw [schedule, if_pos first]

lemma schedule_later (later : 16 ≤ t) :
    schedule block t = sigma1 (schedule block (t - 2)) + schedule block (t - 7) +
      sigma0 (schedule block (t - 15)) + schedule block (t - 16) := by
  rw [schedule, if_neg (Nat.not_lt.mpr later)]

lemma schedule_congr (same : ∀ t < 16, block t = block' t) (t : Nat) :
    schedule block t = schedule block' t := by
  induction t using Nat.strongRecOn with
  | ind t ih =>
    by_cases first : t < 16
    · rw [schedule_first first, schedule_first first, same t first]
    have later : 16 ≤ t := Nat.not_lt.mp first
    rw [schedule_later later, schedule_later later, ih (t - 2) (by omega), ih (t - 7) (by omega),
      ih (t - 15) (by omega), ih (t - 16) (by omega)]

lemma compress_congr (same : ∀ t < 16, block t = block' t) (h : Words) :
    compress h block = compress h block' := by
  rw [compress, compress, funext (schedule_congr same)]

end Znu.Hash.Fips
