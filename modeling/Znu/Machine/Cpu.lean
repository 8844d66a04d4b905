import Mathlib

/-! # The x86-64 core as the entry and exit stubs see it

The stubs in `syscall_entry.S`, `idt_stub.S` and `x86.S` use a handful of
instructions. `Prog` is exactly that fragment: straight-line instructions, a
conditional jump on the zero flag, one call into C, and the two instructions
that leave the kernel. Memory is a map from addresses to the 64-bit word stored
there; every address the stubs touch is a multiple of eight.
-/

namespace Znu.Machine

open Function

abbrev Word := BitVec 64

/-- The sixteen general registers, the stack pointer among them. -/
inductive Reg where
  | rax | rbx | rcx | rdx | rsi | rdi | rbp | rsp
  | r8 | r9 | r10 | r11 | r12 | r13 | r14 | r15
  deriving Repr, DecidableEq

/-- Segment registers the stubs reload by hand. -/
inductive Seg where
  | ds | es
  deriving Repr, DecidableEq

structure Cpu where
  reg : Reg → Word
  seg : Seg → Word
  rip : Word
  rflags : Word
  /-- Set by `test` and `cmp`, read by the conditional jumps. -/
  zero : Bool
  cpl : Nat
  /-- `IA32_GS_BASE`: the base every `[gs:off]` operand uses. -/
  gsBase : Word
  /-- `IA32_KERNEL_GS_BASE`: what `swapgs` exchanges it with. -/
  kernelGsBase : Word
  mem : Word → Word

namespace Cpu

@[simps -fullyApplied mem seg zero gsBase kernelGsBase] def set (c : Cpu) (r : Reg) (v : Word) : Cpu :=
  { c with reg := Function.update c.reg r v }

@[simps -fullyApplied reg mem gsBase kernelGsBase] def setSeg (c : Cpu) (s : Seg) (v : Word) : Cpu :=
  { c with seg := Function.update c.seg s v }

@[simps -fullyApplied reg seg gsBase kernelGsBase] def store (c : Cpu) (a v : Word) : Cpu :=
  { c with mem := Function.update c.mem a v }

def pop (c : Cpu) (r : Reg) : Cpu :=
  (c.set .rsp (c.reg .rsp + 8)).set r (c.mem (c.reg .rsp))

def push (c : Cpu) (v : Word) : Cpu :=
  (c.set .rsp (c.reg .rsp - 8)).store (c.reg .rsp - 8) v

@[simps -fullyApplied] def swapgs (c : Cpu) : Cpu :=
  { c with gsBase := c.kernelGsBase, kernelGsBase := c.gsBase }

section

variable (c : Cpu) (r : Reg) (a v : Word)

@[simp] lemma set_reg_self : (c.set r v).reg r = v := update_self ..
@[simp] lemma set_reg_ne {q : Reg} (ne : q ≠ r) : (c.set r v).reg q = c.reg q :=
  update_of_ne ne ..

@[simp] lemma store_mem_self : (c.store a v).mem a = v := update_self ..
@[simp] lemma store_mem_ne {b : Word} (ne : b ≠ a) : (c.store a v).mem b = c.mem b :=
  update_of_ne ne ..

@[simp] lemma push_reg_rsp : (c.push v).reg .rsp = c.reg .rsp - 8 := by simp [push]
@[simp] lemma push_reg_ne (ne : r ≠ .rsp) : (c.push v).reg r = c.reg r := by
  simp [push, ne]
@[simp] lemma push_mem_ne (ne : a ≠ c.reg .rsp - 8) : (c.push v).mem a = c.mem a :=
  store_mem_ne _ _ _ ne

@[simp] lemma push_gsBase : (c.push v).gsBase = c.gsBase := rfl

end

end Cpu

/-- Bits 47 to 63 agree, as the processor demands of a return address. -/
def canonical (a : Word) : Bool :=
  a.extractLsb' 47 17 == 0 || a.extractLsb' 47 17 == BitVec.allOnes 17

/-- RFLAGS bits `sysret` takes from R11; RF, VM and the reserved bits are
    cleared and bit 1 is set afterwards. -/
def sysretMask : Word := 0x3C7FD7

/-- RFLAGS bits a 64-bit `iretq` at CPL 0 takes from the stack. It restores RF
    as well; VM cannot be set by it. -/
def iretqMask : Word := 0x3D7FD7

inductive Instr where
  | pop (r : Reg)
  | push (r : Reg)
  | pushImm (v : Word)
  /-- `push qword [gs:off]` -/
  | pushGs (off : Word)
  /-- `mov dst, src` between general registers -/
  | mov (dst src : Reg)
  | movImm (dst : Reg) (v : Word)
  /-- `mov dst, [symbol]`, the symbol's address being a link-time constant -/
  | loadAbs (dst : Reg) (addr : Word)
  /-- `mov dst, [base + off]` -/
  | load (dst base : Reg) (off : Word)
  /-- `mov dst, [gs:off]` -/
  | loadGs (dst : Reg) (off : Word)
  /-- `mov [gs:off], src` -/
  | storeGs (off : Word) (src : Reg)
  /-- `mov seg, ax` -/
  | movSeg (s : Seg)
  /-- `mov ax, seg`, which leaves the upper part of RAX alone -/
  | readSeg (s : Seg)
  | addRsp (n : Word)
  | andRsp (mask : Word)
  /-- `test qword [rsp + off], mask` -/
  | testMem (off mask : Word)
  /-- `cmp a, imm` -/
  | cmpImm (a : Reg) (v : Word)
  /-- `cmp a, b` -/
  | cmp (a b : Reg)
  | swapgs
  deriving Repr, DecidableEq

def Instr.exec : Instr → Cpu → Cpu
  | .pop r, c => c.pop r
  | .push r, c => c.push (c.reg r)
  | .pushImm v, c => c.push v
  | .pushGs off, c => c.push (c.mem (c.gsBase + off))
  | .mov dst src, c => c.set dst (c.reg src)
  | .movImm dst v, c => c.set dst v
  | .loadAbs dst addr, c => c.set dst (c.mem addr)
  | .load dst base off, c => c.set dst (c.mem (c.reg base + off))
  | .loadGs dst off, c => c.set dst (c.mem (c.gsBase + off))
  | .storeGs off src, c => c.store (c.gsBase + off) (c.reg src)
  | .movSeg s, c => c.setSeg s (c.reg .rax &&& 0xFFFF)
  | .readSeg s, c => c.set .rax (c.reg .rax &&& ~~~0xFFFF ||| c.seg s &&& 0xFFFF)
  | .addRsp n, c => c.set .rsp (c.reg .rsp + n)
  | .andRsp mask, c => c.set .rsp (c.reg .rsp &&& mask)
  | .testMem off mask, c => { c with zero := c.mem (c.reg .rsp + off) &&& mask == 0 }
  | .cmpImm a v, c => { c with zero := c.reg a == v }
  | .cmp a b, c => { c with zero := c.reg a == c.reg b }
  | .swapgs, c => c.swapgs

def execAll : List Instr → Cpu → Cpu
  | [], c => c
  | i :: is, c => execAll is (i.exec c)

lemma execAll_append (is js : List Instr) (c : Cpu) : execAll (is ++ js) c = execAll js (execAll is c) := by
  induction is generalizing c with
  | nil => rfl
  | cons i is ih => exact ih (i.exec c)

/-- The C functions the stubs call. -/
inductive Callee where
  | syscallHandler | scheduler
  deriving Repr, DecidableEq

/-- Code of a stub. Both ways of a conditional jump are spelled out, so a label
    shared by two paths is shared as a Lean definition. -/
inductive Prog where
  | seq (is : List Instr) (next : Prog)
  /-- `jz taken`, falling through to `next` -/
  | jz (taken next : Prog)
  /-- a call into C; what it does is given when the program is run -/
  | call (callee : Callee) (next : Prog)
  | iretq
  | sysret

/-- `iretq` pops RIP, CS, RFLAGS, RSP and SS. It takes the new privilege level
    from CS and faults on a non-canonical return address. -/
def Cpu.iretq (c : Cpu) : Option Cpu :=
  let sp := c.reg .rsp
  if canonical (c.mem sp) then
    some { c.set .rsp (c.mem (sp + 24)) with
      rip := c.mem sp
      cpl := (c.mem (sp + 8) &&& 3).toNat
      rflags := c.mem (sp + 16) &&& iretqMask ||| 2 }
  else none

/-- `o64 sysret` always returns to ring 3, at RCX with the flags of R11. -/
def Cpu.sysret (c : Cpu) : Option Cpu :=
  if canonical (c.reg .rcx) then
    some { c with
      rip := c.reg .rcx
      cpl := 3
      rflags := c.reg .r11 &&& sysretMask ||| 2 }
  else none

/-- Run a stub to the instruction that leaves the kernel. `none` is a general
    protection fault raised by that instruction. -/
def Prog.run (callee : Callee → Cpu → Cpu) : Prog → Cpu → Option Cpu
  | .seq is next, c => next.run callee (execAll is c)
  | .jz taken next, c => if c.zero then taken.run callee c else next.run callee c
  | .call name next, c => next.run callee (callee name c)
  | .iretq, c => c.iretq
  | .sysret, c => c.sysret

end Znu.Machine
