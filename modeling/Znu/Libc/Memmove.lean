import Znu.Lib.Bytes

/-! # Copies that may overlap -/

namespace Znu.Libc

open Lib Bytes

/-- The loop from the first byte on. -/
def copyUp (dest src : Nat) : Nat → Bytes → Bytes
  | 0, mem => mem
  | i + 1, mem =>
    let mem := copyUp dest src i mem
    Function.update mem (dest + i) (mem (src + i))

/-- The loop from the last byte on. -/
def copyDown (dest src : Nat) : Nat → Bytes → Bytes
  | 0, mem => mem
  | i + 1, mem => copyDown dest src i (Function.update mem (dest + i) (mem (src + i)))

def memmove (mem : Bytes) (dest src n : Nat) : Bytes :=
  if dest < src then copyUp dest src n mem
  else if src < dest then copyDown dest src n mem
  else mem

variable {mem : Bytes} {dest src : Nat} (n : Nat)

/-- The byte that is read lies above all that has been written. -/
lemma copyUp_eq (up : dest < src) : copyUp dest src n mem = mem.store dest n fun i => mem (src + i) := by
  induction n with
  | zero => exact funext fun x => (store_outside (by omega)).symm
  | succ n ih =>
    rw [copyUp, ih]
    funext x
    grind [store]

/-- The byte that is written lies above all that is still to be read. -/
lemma copyDown_eq (down : src < dest) :
    copyDown dest src n mem = mem.store dest n fun i => mem (src + i) := by
  induction n generalizing mem with
  | zero => exact funext fun x => (store_outside (by omega)).symm
  | succ n ih =>
    rw [copyDown, ih]
    funext x
    grind [store]

/-- However the two ranges overlap, the bytes that were in the source are in the destination, and
    nothing else has changed. -/
theorem memmove_moves (mem : Bytes) (dest src n : Nat) :
    memmove mem dest src n = mem.store dest n fun i => mem (src + i) := by
  rw [memmove]
  split
  · exact copyUp_eq n ‹_›
  split
  · exact copyDown_eq n ‹_›
  · funext x
    grind [store]

end Znu.Libc
