import Znu.Lib.Bytes

/-! # ELF images

An image is the memory that starts at `elf_data`. The headers are read from it as
the C structures `Elf64_Ehdr` and `Elf64_Phdr` lay them out.
-/

namespace Znu.Elf

open Lib

structure Ehdr where
  eType : Nat
  eMachine : Nat
  eEntry : Nat
  ePhoff : Nat
  ePhentsize : Nat
  ePhnum : Nat
  deriving Repr, DecidableEq

structure Phdr where
  pType : Nat
  pFlags : Nat
  pOffset : Nat
  pVaddr : Nat
  pFilesz : Nat
  pMemsz : Nat
  pAlign : Nat
  deriving Repr, DecidableEq

def ehdr (image : Bytes) : Ehdr where
  eType := image.word 16 2
  eMachine := image.word 18 2
  eEntry := image.word 24 8
  ePhoff := image.word 32 8
  ePhentsize := image.word 54 2
  ePhnum := image.word 56 2

def phdrAt (image : Bytes) (a : Nat) : Phdr where
  pType := image.word a 4
  pFlags := image.word (a + 4) 4
  pOffset := image.word (a + 8) 8
  pVaddr := image.word (a + 16) 8
  pFilesz := image.word (a + 32) 8
  pMemsz := image.word (a + 40) 8
  pAlign := image.word (a + 48) 8

/-- `phdr[0]` to `phdr[e_phnum - 1]` -/
def phdrs (image : Bytes) : List Phdr :=
  (List.range (ehdr image).ePhnum).map fun i => phdrAt image ((ehdr image).ePhoff + 56 * i)

def ptLoad : Nat := 1
def ptInterp : Nat := 3
def ptTls : Nat := 7
def ptGnuStack : Nat := 0x6474E551
def ptGnuRelro : Nat := 0x6474E552

def pfX (flags : Nat) : Bool := flags.testBit 0
def pfW (flags : Nat) : Bool := flags.testBit 1

/-- `elf_validate` returned 0. -/
def elfValidate (image : Bytes) : Bool :=
  image 0 == 0x7F && image 1 == 0x45 && image 2 == 0x4C && image 3 == 0x46 &&
    image 4 == 2 && image 5 == 1 && (ehdr image).eMachine == 62 &&
    ((ehdr image).eType == 2 || (ehdr image).eType == 3)

end Znu.Elf
