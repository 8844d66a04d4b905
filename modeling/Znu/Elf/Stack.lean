import Znu.Elf.Load

/-! # The initial stack

`alloc_user_stack` and `elf_build_stack`: the strings of the environment and the
arguments, the auxiliary vector, and the two arrays of pointers.
-/

namespace Znu.Elf

open Lib Mm

/-- A C string, without its terminating zero. -/
structure CString where
  bytes : List UInt8
  noNul : 0 ∉ bytes

namespace CString

def strlen (c : CString) : Nat := c.bytes.length

/-- The bytes in memory, the terminating zero included. -/
def byte (c : CString) (i : Nat) : UInt8 := c.bytes.getD i 0

/-- The room the string takes on the stack. -/
def size (c : CString) : Nat := (c.strlen + 1 + 7) / 8 * 8

/-- `"x86_64"` -/
def platform : CString := ⟨[0x78, 0x38, 0x36, 0x5F, 0x36, 0x34], by decide⟩

end CString

/-- The room some strings take on the stack. -/
def stringsSize (strs : List CString) : Nat := (strs.map CString.size).sum

@[irreducible] def userStackBase : Nat := 0x7FFFF0000000
def stackPages : Nat := 16
@[irreducible] def stackTop : Nat := userStackBase + stackPages * 4096

def stackFlags (nxSupported stackExec : Bool) : Nat :=
  ptePresent ||| pteWritable ||| pteUser ||| (if nxSupported && !stackExec then pteNx else 0)

def allocUserStack (nxSupported : Bool) (s : Phys) (pml4 : Nat) (stackExec : Bool) : Option Phys :=
  mapFreshPages nxSupported pml4 (stackFlags nxSupported stackExec) stackPages userStackBase s

/-- `a - n` of unsigned 64-bit numbers -/
def sub64 (a n : Nat) : Nat := if n ≤ a then a - n else 2 ^ 64 - (n - a)

section

variable (pml4 : Nat)

/-- `sp -= strlen(str) + 1; sp &= ~7ULL; hhdm_copy_to_user(pml4, sp, str, strlen(str) + 1);` -/
def pushString (str : CString) (s : Phys) (sp : Nat) : Phys × Nat :=
  let sp := sub64 sp (str.strlen + 1) / 8 * 8
  (hhdmCopyToUser s pml4 sp str.byte (str.strlen + 1), sp)

/-- The loops over `envp` and `argv`, which run from the last string to the first
    and return the addresses in order. -/
def pushStrings : List CString → Phys → Nat → Phys × Nat × List Nat
  | [], s, sp => (s, sp, [])
  | str :: rest, s, sp =>
    let (s, sp, ptrs) := pushStrings rest s sp
    let (s, sp) := pushString pml4 str s sp
    (s, sp, sp :: ptrs)

/-- `sp -= 8; hhdm_write64(pml4, sp, w);` for each word. -/
def pushWords : List Nat → Phys → Nat → Phys × Nat
  | [], s, sp => (s, sp)
  | w :: ws, s, sp =>
    let sp := sub64 sp 8
    pushWords ws (hhdmWrite64 s pml4 sp w) sp

def pushExecfn (execfn : Option CString) (s : Phys) (sp : Nat) : Phys × Nat × Nat :=
  match execfn with
  | none => (s, sp, 0)
  | some str =>
    let (s, sp) := pushString pml4 str s sp
    (s, sp, sp)

end

/-- One round of the generator in `push_random_bytes`. -/
def xorshift (seed : Nat) : Nat :=
  let seed := seed ^^^ seed * 2 ^ 13 % 2 ^ 64
  let seed := seed ^^^ seed / 2 ^ 7
  seed ^^^ seed * 2 ^ 17 % 2 ^ 64

/-- Type and value of the auxiliary vector's entries in the order of `PUSH_AUXV`. -/
def auxv (h : Ehdr) (loadBase platform execfn random : Nat) : List (Nat × Nat) :=
  [(0, 0), (15, platform)] ++ (if execfn ≠ 0 then [(31, execfn)] else []) ++
    [(25, random), (23, 0), (14, 0), (13, 0), (12, 0), (11, 0), (17, 100), (8, 0), (7, 0), (16, 0),
      (6, 0x1000), (9, h.eEntry), (4, h.ePhentsize), (5, h.ePhnum), (3, (loadBase + h.ePhoff) % 2 ^ 64)]

/-- `PUSH_AUXV` pushes the value before the type. -/
def auxvWords (entries : List (Nat × Nat)) : List Nat := entries.flatMap fun e => [e.2, e.1]

/-- The stack pointer after the padding that precedes the auxiliary vector. -/
def alignStack (argc envc sp : Nat) : Nat :=
  let totalSlots := 14 + (envc + 1) + (argc + 1) + 1
  let sp := if totalSlots % 2 = 1 then sub64 sp 8 else sp
  sp / 16 * 16

/-- The part of `elf_build_stack` after the platform string at `platform`. -/
def pushVectors (pml4 seed : Nat) (h : Ehdr) (loadBase platform execfn : Nat)
    (uargv uenvp : List Nat) (s : Phys) : Phys × Nat :=
  let r₀ := xorshift seed
  let r₁ := xorshift r₀
  let (s, random) := pushWords pml4 [r₁, r₀] s platform
  pushWords pml4
    (auxvWords (auxv h loadBase platform execfn random) ++ 0 :: uenvp.reverse ++
      0 :: uargv.reverse ++ [uargv.length]) s (alignStack uargv.length uenvp.length random)

/-- Returns the new stack pointer. -/
def elfBuildStack (s : Phys) (pml4 seed : Nat) (argv envp : List CString) (h : Ehdr)
    (loadBase : Nat) (execfn : Option CString) : Phys × Nat :=
  let (s, sp, uenvp) := pushStrings pml4 envp s stackTop
  let (s, sp, uargv) := pushStrings pml4 argv s sp
  let (s, sp, uexecfn) := pushExecfn pml4 execfn s sp
  let (s, platform) := pushString pml4 .platform s sp
  pushVectors pml4 seed h loadBase platform uexecfn uargv uenvp s

end Znu.Elf
