import Znu.Machine.Frame

/-! # The three ways back to a task

A task is resumed by the interrupt exit of `isr_stub`, by the syscall exit, or by
`force_context_restore`. Each is transcribed as a `Prog` and summarised by the
`View` of the processor it leaves. The summaries differ in three registers, in
the privilege level and in the GS base.
-/

namespace Znu.Machine

open Cpu BitVec Function

/-- What the resumed task can see of the processor. -/
structure View where
  reg : Reg → Word
  rip : Word
  rflags : Word
  cpl : Nat
  gsBase : Word

def Cpu.view (c : Cpu) : View := ⟨c.reg, c.rip, c.rflags, c.cpl, c.gsBase⟩

def kernelCs : Word := 0x08
def userCs : Word := 0x23

/-- `isr_stub` from the return of `k_exception_handler`, whose result is the
    context to resume. -/
def isrExit : Prog :=
  let noSwapgsBack : Prog := .seq [.addRsp 16] .iretq
  .seq ([.mov .rsp .rax, .pop .rax, .movSeg .es, .pop .rax, .movSeg .ds] ++ popaq ++ [.testMem 24 3])
    (.jz noSwapgsBack (.seq [.swapgs] noSwapgsBack))

/-- `.return_to_user` of `syscall_entry`. -/
def returnToUser : Prog :=
  .seq ([.pop .rax, .movSeg .es, .pop .rax, .movSeg .ds] ++ popaq ++
    [.addRsp 16, .pop .rcx, .addRsp 8, .pop .r11, .pop .rdi, .addRsp 8, .mov .rsp .rdi, .swapgs])
    .sysret

/-- `.switch_to_new_context`. Its parameter is the address of the variable
    `current_process`; offset 48 of `process_t` is `kstack_top`. -/
def switchToNewContext (currentProcess : Word) : Prog :=
  .seq [.mov .rsp .rax, .loadAbs .rdi currentProcess, .load .rsi .rdi 48, .storeGs 0 .rsi] returnToUser

/-- `.block_current_process`, with the call of `scheduler`. -/
def blockCurrentProcess (currentProcess : Word) : Prog :=
  .seq [.mov .rdi .rsp] (.call .scheduler (switchToNewContext currentProcess))

def forceContextRestore (currentProcess : Word) : Prog :=
  .seq ([.mov .rsp .rdi, .loadAbs .rax currentProcess, .load .rdx .rax 48, .storeGs 0 .rdx,
      .pop .rax, .pop .rax, .movImm .rax 0x1B, .movSeg .ds, .movSeg .es] ++ popaq ++
    [.addRsp 16, .swapgs]) .iretq

namespace Frame

/-- The frame restored by `iretq`, with GS base `gs`. -/
def iretqView (f : Frame) (gs : Word) : View where
  reg := f.reg
  rip := f.rip
  rflags := f.rflags &&& iretqMask ||| 2
  cpl := (f.cs &&& 3).toNat
  gsBase := gs

/-- The processor after an interrupt exit. -/
def interruptView (f : Frame) (c : Cpu) : View :=
  f.iretqView (if f.cs &&& 3 = 0 then c.gsBase else c.kernelGsBase)

/-- The processor after a syscall exit: RCX and R11 carry the return address and
    the flags, RDI still holds the stack pointer it was used to load. -/
def sysretView (f : Frame) (c : Cpu) : View where
  reg := Function.update (Function.update (Function.update f.reg .rcx f.rip) .r11 f.rflags) .rdi f.rsp
  rip := f.rip
  rflags := f.rflags &&& sysretMask ||| 2
  cpl := 3
  gsBase := c.kernelGsBase

/-- The processor after `force_context_restore`. -/
def forceView (f : Frame) (c : Cpu) : View := f.iretqView c.kernelGsBase

end Frame

/-- `iretq` over the last five words of a stored frame. -/
lemma iretq_frame {f : Frame} {c : Cpu} {p : Word} (stored : f.At c.mem p)
    (sp : c.reg .rsp = p + 152) :
    c.iretq = if canonical f.rip then
      some { c.set .rsp f.rsp with
        rip := f.rip, cpl := (f.cs &&& 3).toNat, rflags := f.rflags &&& iretqMask ||| 2 }
      else none := by
  have rip : c.mem (p + 152) = f.rip := stored 19 (by decide)
  have cs : c.mem (p + 152 + 8) = f.cs := by
    rw [add_assoc]
    exact stored 20 (by decide)
  have rflags : c.mem (p + 152 + 16) = f.rflags := by
    rw [add_assoc]
    exact stored 21 (by decide)
  have rsp : c.mem (p + 152 + 24) = f.rsp := by
    rw [add_assoc]
    exact stored 22 (by decide)
  simp only [iretq, sp, rip, cs, rflags, rsp]

/-- Loading RSP completes the registers a frame describes. -/
lemma frame_reg {f : Frame} {c : Cpu} (popped : ∀ r, r ≠ .rsp → c.reg r = f.reg r) :
    (c.set .rsp f.rsp).reg = f.reg := by
  funext r
  by_cases isRsp : r = .rsp
  · subst isRsp
    exact set_reg_self ..
  · rw [set_reg_ne _ _ _ isRsp, popped r isRsp]

section

variable {f : Frame} {c : Cpu} {p : Word} (callee : Callee → Cpu → Cpu)

section

variable (stored : f.At c.mem p)

include stored

/-- The common end of the two `iretq` paths: skip the error code and return. -/
lemma leave_iretq (sp : c.reg .rsp = p + 136)
    (popped : ∀ r, r ≠ .rsp → c.reg r = f.reg r) :
    (execAll [.addRsp 16] c).iretq.map view =
      if canonical f.rip then some (f.iretqView c.gsBase) else none := by
  have skipped : ((Instr.addRsp 16).exec c).reg .rsp = p + 152 := by
    simp [Instr.exec, sp, add_assoc]
  have regs : (((Instr.addRsp 16).exec c).set .rsp f.rsp).reg = f.reg :=
    frame_reg fun r ne => by simp [Instr.exec, ne, popped]
  simp only [execAll, iretq_frame (c := (Instr.addRsp 16).exec c) stored skipped]
  split
  · simp only [Option.map_some, view, regs]
    rfl
  · rfl

lemma isrExit_view (pointer : c.reg .rax = p) :
    (isrExit.run callee c).map view =
      if canonical f.rip then some (f.interruptView c) else none := by
  obtain ⟨d, code, sp, popped, kept, gs, kernelGs⟩ := exec_restore (p := p)
    [.mov .rsp .rax, .pop .rax, .movSeg .es, .pop .rax, .movSeg .ds] [.testMem 24 3] c stored
    (by simp [execAll, Instr.exec, pop, pointer, add_assoc])
  have cs : d.mem (p + 136 + 24) = f.cs := by
    rw [add_assoc]
    exact kept 20 (by decide)
  have tested : execAll [.testMem 24 3] d = { d with zero := f.cs &&& 3 == 0 } := by
    simp only [execAll, Instr.exec, sp, cs]
  simp only [isrExit, Prog.run, code, tested]
  by_cases ring : f.cs &&& 3 = 0
  · have base : d.gsBase = c.gsBase := gs
    rw [if_pos (by simpa using ring), Frame.interruptView, if_pos ring, ← base]
    exact leave_iretq (c := { d with zero := f.cs &&& 3 == 0 }) kept sp popped
  have base : d.kernelGsBase = c.kernelGsBase := kernelGs
  rw [if_neg (by simpa using ring), Frame.interruptView, if_neg ring, ← base]
  exact leave_iretq (c := swapgs { d with zero := f.cs &&& 3 == 0 }) kept sp popped

lemma forceContextRestore_view (currentProcess : Word)
    (pointer : c.reg .rdi = p) (apart : Frame.Apart p c.gsBase) :
    ((forceContextRestore currentProcess).run callee c).map view =
      if canonical f.rip then some (f.forceView c) else none := by
  obtain ⟨d, code, sp, popped, kept, -, kernelGs⟩ := exec_restore (p := p)
    [.mov .rsp .rdi, .loadAbs .rax currentProcess, .load .rdx .rax 48, .storeGs 0 .rdx,
      .pop .rax, .pop .rax, .movImm .rax 0x1B, .movSeg .ds, .movSeg .es] [.addRsp 16, .swapgs] c
    (by simpa [execAll, Instr.exec, store, pop] using stored.store apart (c.mem (c.mem currentProcess + 48)))
    (by simp [execAll, Instr.exec, pop, pointer, add_assoc])
  have base : d.kernelGsBase = c.kernelGsBase := kernelGs
  simp only [forceContextRestore, Prog.run, code, Frame.forceView, ← base]
  exact leave_iretq (c := d.swapgs) kept sp popped

/-- The end of the syscall exit, from the error code on. -/
lemma leave_sysret (sp : c.reg .rsp = p + 136)
    (popped : ∀ r, r ≠ .rsp → c.reg r = f.reg r) :
    (execAll [.addRsp 16, .pop .rcx, .addRsp 8, .pop .r11, .pop .rdi, .addRsp 8, .mov .rsp .rdi,
        .swapgs] c).sysret.map view =
      if canonical f.rip then some (f.sysretView c) else none := by
  have rip : c.mem (p + 152) = f.rip := stored 19 (by decide)
  have rflags : c.mem (p + 168) = f.rflags := stored 21 (by decide)
  have rsp : c.mem (p + 176) = f.rsp := stored 22 (by decide)
  obtain ⟨d, isD⟩ : ∃ d, d = execAll [.addRsp 16, .pop .rcx, .addRsp 8, .pop .r11, .pop .rdi,
    .addRsp 8, .mov .rsp .rdi, .swapgs] c := ⟨_, rfl⟩
  have reg : d.reg = (f.sysretView c).reg := by
    funext r
    cases r <;> simp_all [execAll, Instr.exec, pop, add_assoc, Frame.sysretView, Frame.reg]
  have base : d.gsBase = c.kernelGsBase := by rw [isD]; rfl
  have target : d.reg .rcx = f.rip := by rw [reg]; rfl
  have flags : d.reg .r11 = f.rflags := by rw [reg]; rfl
  rw [← isD, sysret, target, flags]
  split
  · simp only [Option.map_some, view, reg, base]
    rfl
  · rfl

lemma returnToUser_view (pointer : c.reg .rsp = p) :
    (returnToUser.run callee c).map view =
      if canonical f.rip then some (f.sysretView c) else none := by
  obtain ⟨d, code, sp, popped, kept, -, kernelGs⟩ := exec_restore (p := p)
    [.pop .rax, .movSeg .es, .pop .rax, .movSeg .ds] [.addRsp 16, .pop .rcx, .addRsp 8, .pop .r11,
      .pop .rdi, .addRsp 8, .mov .rsp .rdi, .swapgs] c stored
    (by simp [execAll, Instr.exec, pop, pointer, add_assoc])
  have base : d.kernelGsBase = c.kernelGsBase := kernelGs
  simp only [returnToUser, Prog.run, code, Frame.sysretView, ← base]
  exact leave_sysret kept sp popped

lemma switchToNewContext_view (currentProcess : Word)
    (pointer : c.reg .rax = p) (apart : Frame.Apart p c.gsBase) :
    ((switchToNewContext currentProcess).run callee c).map view =
      if canonical f.rip then some (f.sysretView c) else none := by
  obtain ⟨d, isD⟩ : ∃ d, d = execAll [.mov .rsp .rax, .loadAbs .rdi currentProcess,
    .load .rsi .rdi 48, .storeGs 0 .rsi] c := ⟨_, rfl⟩
  have sp : d.reg .rsp = p := by simp [isD, execAll, Instr.exec, pointer]
  have kept : f.At d.mem p := by
    simpa [isD, execAll, Instr.exec, store] using stored.store apart (c.mem (c.mem currentProcess + 48))
  have base : d.kernelGsBase = c.kernelGsBase := by rw [isD]; rfl
  simp only [switchToNewContext, Prog.run, ← isD]
  rw [returnToUser_view callee kept sp, Frame.sysretView, base]
  rfl

end

end

end Znu.Machine
