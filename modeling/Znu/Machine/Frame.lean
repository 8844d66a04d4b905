import Znu.Machine.Cpu

/-! # Saved register frames and the pop sequence that restores them

`Frame` is `registers_t`. Every exit path pops the same fifteen registers in the
same order, so what the pops do is said once here, for an arbitrary list of
registers, and the exit paths only differ in what surrounds them.
-/

namespace Znu.Machine

open List Function

/-- `registers_t`, in the order of its declaration. -/
structure Frame where
  es : Word
  ds : Word
  r15 : Word
  r14 : Word
  r13 : Word
  r12 : Word
  r11 : Word
  r10 : Word
  r9 : Word
  r8 : Word
  rdi : Word
  rsi : Word
  rbp : Word
  rbx : Word
  rdx : Word
  rcx : Word
  rax : Word
  int_no : Word
  err_code : Word
  rip : Word
  cs : Word
  rflags : Word
  rsp : Word
  ss : Word
  deriving Repr, DecidableEq

variable {f : Frame} {p : Word}

namespace Frame

/-- The `k`-th 64-bit word of the frame. -/
def word (f : Frame) : Nat → Word
  | 0 => f.es | 1 => f.ds
  | 2 => f.r15 | 3 => f.r14 | 4 => f.r13 | 5 => f.r12
  | 6 => f.r11 | 7 => f.r10 | 8 => f.r9 | 9 => f.r8
  | 10 => f.rdi | 11 => f.rsi | 12 => f.rbp | 13 => f.rbx
  | 14 => f.rdx | 15 => f.rcx | 16 => f.rax
  | 17 => f.int_no | 18 => f.err_code
  | 19 => f.rip | 20 => f.cs | 21 => f.rflags | 22 => f.rsp | 23 => f.ss
  | _ => 0

/-- The value the frame holds for a register. -/
def reg (f : Frame) : Reg → Word
  | .rax => f.rax | .rbx => f.rbx | .rcx => f.rcx | .rdx => f.rdx
  | .rsi => f.rsi | .rdi => f.rdi | .rbp => f.rbp | .rsp => f.rsp
  | .r8 => f.r8 | .r9 => f.r9 | .r10 => f.r10 | .r11 => f.r11
  | .r12 => f.r12 | .r13 => f.r13 | .r14 => f.r14 | .r15 => f.r15

/-- The frame is stored at `p`, one word after the other. -/
def At (f : Frame) (mem : Word → Word) (p : Word) : Prop :=
  ∀ k < 24, mem (p + BitVec.ofNat 64 (8 * k)) = f.word k

/-- `a` is none of the frame's words. -/
def Apart (p a : Word) : Prop := ∀ k < 24, p + BitVec.ofNat 64 (8 * k) ≠ a

lemma At.store {mem : Word → Word} {a : Word} (stored : f.At mem p)
    (apart : Apart p a) (v : Word) : f.At (update mem a v) p := by
  intro k inside
  rw [update_of_ne (apart k inside)]
  exact stored k inside

end Frame

/-- The registers of `popaq`, in the order they are popped. -/
def poppedRegs : List Reg :=
  [.r15, .r14, .r13, .r12, .r11, .r10, .r9, .r8, .rdi, .rsi, .rbp, .rbx, .rdx, .rcx, .rax]

def popaq : List Instr := poppedRegs.map .pop

/-- Only registers changed, and memory was only read. -/
structure Cpu.SameOutside (c d : Cpu) : Prop where
  mem : d.mem = c.mem
  gsBase : d.gsBase = c.gsBase
  kernelGsBase : d.kernelGsBase = c.kernelGsBase

lemma exec_pops (rs : List Reg) (distinct : rs.Nodup) (noRsp : .rsp ∉ rs) (c : Cpu) :
    let d := execAll (rs.map .pop) c
    d.reg .rsp = c.reg .rsp + BitVec.ofNat 64 (8 * rs.length) ∧
    (∀ k (inside : k < rs.length), d.reg rs[k] = c.mem (c.reg .rsp + BitVec.ofNat 64 (8 * k))) ∧
    (∀ r ∉ rs, r ≠ .rsp → d.reg r = c.reg r) ∧ c.SameOutside d := by
  induction rs generalizing c with
  | nil => exact ⟨by simp [execAll], by simp, fun _ _ _ => rfl, rfl, rfl, rfl⟩
  | cons r rs ih =>
    obtain ⟨fresh, distinct⟩ := nodup_cons.mp distinct
    obtain ⟨notRsp, noRsp⟩ : Reg.rsp ≠ r ∧ Reg.rsp ∉ rs := by simpa using noRsp
    have popSp : (c.pop r).reg .rsp = c.reg .rsp + 8 := by simp [Cpu.pop, notRsp]
    have popMem : (c.pop r).mem = c.mem := rfl
    obtain ⟨sp, popped, kept, same⟩ := ih distinct noRsp (c.pop r)
    simp only [map_cons, execAll, Instr.exec]
    have shift : ∀ k : Nat, c.reg .rsp + 8 + BitVec.ofNat 64 (8 * k) =
        c.reg .rsp + BitVec.ofNat 64 (8 * (k + 1)) := by
      intro k
      rw [BitVec.add_assoc, show (8 : BitVec 64) = BitVec.ofNat 64 8 from rfl, ← BitVec.ofNat_add]
      congr 2
      omega
    refine ⟨?_, ?_, ?_, ?_⟩
    · rw [sp, popSp, length_cons, shift]
    · intro k inside
      cases k with
      | zero =>
        rw [getElem_cons_zero, kept r fresh notRsp.symm]
        simp [Cpu.pop]
      | succ k =>
        rw [getElem_cons_succ, popped k (by simpa using inside), popMem, popSp, shift]
    · intro q outside ne
      obtain ⟨neHead, outside⟩ : q ≠ r ∧ q ∉ rs := by simpa using outside
      rw [kept q outside ne]
      simp [Cpu.pop, neHead, ne]
    · exact ⟨same.mem, same.gsBase, same.kernelGsBase⟩

/-- What `popaq` leaves behind when it runs over a stored frame, past its two
    segment words. -/
lemma exec_popaq {c : Cpu} (stored : f.At c.mem p)
    (sp : c.reg .rsp = p + 16) :
    (execAll popaq c).reg .rsp = p + 136 ∧
    (∀ r, r ≠ .rsp → (execAll popaq c).reg r = f.reg r) ∧ c.SameOutside (execAll popaq c) := by
  obtain ⟨newSp, popped, -, same⟩ := exec_pops poppedRegs (by decide) (by decide) c
  have word : ∀ k (inside : k < 24), c.mem (p + 16 + BitVec.ofNat 64 (8 * k)) =
      c.mem (p + BitVec.ofNat 64 (8 * (k + 2))) := by
    intro k _
    rw [BitVec.add_assoc, show (16 : BitVec 64) = BitVec.ofNat 64 16 from rfl, ← BitVec.ofNat_add]
    congr 3
    omega
  refine ⟨?_, ?_, same⟩
  · rw [show popaq = poppedRegs.map .pop from rfl, newSp, sp, BitVec.add_assoc]
    rfl
  intro r notRsp
  have value : ∀ k (inside : k < poppedRegs.length),
      (execAll popaq c).reg poppedRegs[k] = c.mem (p + BitVec.ofNat 64 (8 * (k + 2))) := by
    intro k inside
    rw [← word k (by simp [poppedRegs] at inside; omega), ← sp]
    exact popped k inside
  have listed : r ∈ poppedRegs := by cases r <;> simp [poppedRegs] at notRsp ⊢
  obtain ⟨k, inside, rfl⟩ := getElem_of_mem listed
  rw [value k inside, stored (k + 2) (by simp [poppedRegs] at inside; omega)]
  simp only [poppedRegs, length_cons, length_nil] at inside
  interval_cases k <;> rfl

/-- An exit path runs some code `pre`, then `popaq` over a stored frame, then
    `post`. The processor between the last two is `d`. -/
lemma exec_restore (pre post : List Instr) (c : Cpu)
    (stored : f.At (execAll pre c).mem p) (sp : (execAll pre c).reg .rsp = p + 16) :
    ∃ d, execAll (pre ++ popaq ++ post) c = execAll post d ∧ d.reg .rsp = p + 136 ∧
      (∀ r, r ≠ .rsp → d.reg r = f.reg r) ∧ f.At d.mem p ∧
      d.gsBase = (execAll pre c).gsBase ∧ d.kernelGsBase = (execAll pre c).kernelGsBase := by
  obtain ⟨newSp, popped, same⟩ := exec_popaq stored sp
  exact ⟨_, by rw [execAll_append, execAll_append], newSp, popped, same.mem ▸ stored,
    same.gsBase, same.kernelGsBase⟩

end Znu.Machine
