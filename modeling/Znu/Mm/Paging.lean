import Znu.Lib.Radix
import Znu.Mm.Phys

/-! # Page tables

`map_page` and `vmm_virt_to_phys`, over physical memory. Addresses and entries are
natural numbers below `2 ^ 64`; masking with `~0xFFF` is rounding down to a
multiple of 4096.
-/

namespace Znu.Mm

open Lib Lib.Radix Nat

def ptePresent : Nat := 1
def pteWritable : Nat := 2
def pteUser : Nat := 4
def pteNx : Nat := 2 ^ 63

def present (e : Nat) : Bool := e.testBit 0
def huge (e : Nat) : Bool := e.testBit 7

/-- `a & ~0xFFF` -/
def pageDown (a : Nat) : Nat := a / 4096 * 4096

def pml4Idx (virt : Nat) : Nat := virt / 2 ^ 39 % 512
def pdpIdx (virt : Nat) : Nat := virt / 2 ^ 30 % 512
def pdIdx (virt : Nat) : Nat := virt / 2 ^ 21 % 512
def ptIdx (virt : Nat) : Nat := virt / 2 ^ 12 % 512

/-- One of the three upper levels of `map_page`: allocate the next table if the
    entry is not present, otherwise let user mode through it if need be. -/
def nextTable (s : Phys) (table idx flags : Nat) : Option (Phys × Nat) :=
  let e := s.read64 (table + 8 * idx)
  if present e then
    let e := e ||| flags &&& pteUser
    some (s.write64 (table + 8 * idx) e, pageDown e)
  else
    match s.pallocZero with
    | none => none
    | some (s, frame) =>
      let e := frame ||| ptePresent ||| pteWritable ||| flags &&& pteUser
      some (s.write64 (table + 8 * idx) e, pageDown e)

def finalFlags (nxSupported : Bool) (flags : Nat) : Nat :=
  if nxSupported then flags &&& (pteNx - 1) else flags

def mapPage (nxSupported : Bool) (s : Phys) (pml4 virt phys flags : Nat) : Option Phys :=
  match nextTable s pml4 (pml4Idx virt) flags with
  | none => none
  | some (s, pdp) =>
    match nextTable s pdp (pdpIdx virt) flags with
    | none => none
    | some (s, pd) =>
      match nextTable s pd (pdIdx virt) flags with
      | none => none
      | some (s, pt) =>
        some (s.write64 (pt + 8 * ptIdx virt)
          (pageDown phys ||| finalFlags nxSupported flags ||| ptePresent))

/-- `PTE_HUGE` -/
def pteHuge : Nat := 128

def mapPageHuge (nxSupported : Bool) (s : Phys) (pml4 virt phys flags : Nat) : Option Phys :=
  match nextTable s pml4 (pml4Idx virt) flags with
  | none => none
  | some (s, pdp) =>
    match nextTable s pdp (pdpIdx virt) flags with
    | none => none
    | some (s, pd) =>
      some (s.write64 (pd + 8 * pdIdx virt)
        (phys / 2 ^ 21 * 2 ^ 21 ||| finalFlags nxSupported flags ||| ptePresent ||| pteHuge))

def unmapPage (s : Phys) (pml4 virt : Nat) : Phys :=
  let pml4e := s.read64 (pml4 + 8 * pml4Idx virt)
  if !present pml4e then s else
  let pdpte := s.read64 (pageDown pml4e + 8 * pdpIdx virt)
  if !present pdpte then s else
  let pde := s.read64 (pageDown pdpte + 8 * pdIdx virt)
  if !present pde then s else
  s.write64 (pageDown pde + 8 * ptIdx virt) 0

/-- The result 0 means that the address is not mapped. -/
def vmmVirtToPhys (m : Bytes) (pml4 virt : Nat) : Nat :=
  let pml4e := m.word (pml4 + 8 * pml4Idx virt) 8
  if !present pml4e then 0 else
  let pdpte := m.word (pageDown pml4e + 8 * pdpIdx virt) 8
  if !present pdpte then 0 else
  if huge pdpte then pdpte / 2 ^ 30 * 2 ^ 30 + virt % 2 ^ 30 else
  let pde := m.word (pageDown pdpte + 8 * pdIdx virt) 8
  if !present pde then 0 else
  if huge pde then pde / 2 ^ 21 * 2 ^ 21 + virt % 2 ^ 21 else
  let pte := m.word (pageDown pde + 8 * ptIdx virt) 8
  if !present pte then 0 else
  pageDown pte + virt % 4096

/-! ## Entries -/

lemma entry_split (f : Nat) {flags : Nat} (low : flags < 4096) : f * 4096 ||| flags = f * 4096 + flags := by
  have split := two_pow_add_eq_or_of_lt (i := 12) low f
  rw [mul_comm, ← split]

lemma or_low {a b : Nat} (left : a < 4096) (right : b < 4096) : a ||| b < 4096 :=
  or_lt_two_pow (n := 12) left right

lemma user_low (flags : Nat) : flags &&& pteUser < 4096 :=
  lt_of_le_of_lt and_le_right (by decide)

lemma or_div (e : Nat) {flags : Nat} (low : flags < 4096) : (e ||| flags) / 4096 = e / 4096 := by
  have parts : e = e / 4096 * 4096 ||| e % 4096 := by
    rw [entry_split _ (mod_lt _ (by decide))]
    omega
  have low' : e % 4096 ||| flags < 4096 := or_low (mod_lt _ (by decide)) low
  have merged : e ||| flags = e / 4096 * 4096 + (e % 4096 ||| flags) := by
    conv_lhs => rw [parts]
    rw [Nat.or_assoc, entry_split _ low']
  omega

end Znu.Mm
