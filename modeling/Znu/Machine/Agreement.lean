import Znu.Machine.Entry

/-! # When the exit paths agree

`scheduler` hands a context to whichever exit path is on the stack at the time.
`Handoff` is that moment: the processor runs in the kernel, the context is stored
in memory, and one register points at it. The interrupt exit is the reference.
The syscall exit agrees with it only for a context it could have saved itself, and
only if that context's RDI happens to equal its RSP.
-/

namespace Znu.Machine

open Option Machine.Frame

/-- A context about to be resumed. -/
structure Handoff where
  cpu : Cpu
  frame : Frame
  ptr : Word
  stored : frame.At cpu.mem ptr
  /-- the per-CPU slot `[gs:0]` is not part of the frame -/
  apart : Frame.Apart ptr cpu.gsBase
  /-- the processor is in the kernel, so the user's base is the hidden one -/
  distinct : cpu.gsBase ≠ cpu.kernelGsBase
  selector : frame.cs = kernelCs ∨ frame.cs = userCs

namespace Handoff

variable (h : Handoff) (currentProcess : Word)

/-- Resume with a given exit path, the context's address being in register `r`. -/
def resume (exit : Prog) (r : Reg) : Option View :=
  (exit.run (fun _ c => c) (h.cpu.set r h.ptr)).map Cpu.view

def interrupted : Option View := h.resume isrExit .rax
def returned : Option View := h.resume returnToUser .rsp
def switched : Option View := h.resume (switchToNewContext currentProcess) .rax
def forced : Option View := h.resume (forceContextRestore currentProcess) .rdi

/-- Every exit path leaves the processor the interrupt exit leaves, and that one
    keeps the kernel's GS base exactly for a ring 0 context. -/
def Agrees : Prop :=
  h.returned = h.interrupted ∧ h.switched currentProcess = h.interrupted ∧
    h.forced currentProcess = h.interrupted ∧
    ∀ v, h.interrupted = some v → (v.gsBase = h.cpu.gsBase ↔ h.frame.cs = kernelCs)

lemma interrupted_eq :
    h.interrupted = if canonical h.frame.rip then some (h.frame.interruptView h.cpu) else none :=
  isrExit_view (c := h.cpu.set .rax h.ptr) _ h.stored (Cpu.set_reg_self ..)

lemma returned_eq : h.returned = if canonical h.frame.rip then some (h.frame.sysretView h.cpu) else none :=
  returnToUser_view (c := h.cpu.set .rsp h.ptr) _ h.stored (Cpu.set_reg_self ..)

lemma switched_eq : h.switched currentProcess =
    if canonical h.frame.rip then some (h.frame.sysretView h.cpu) else none :=
  switchToNewContext_view (c := h.cpu.set .rax h.ptr) _ h.stored _ (Cpu.set_reg_self ..) h.apart

lemma forced_eq : h.forced currentProcess =
    if canonical h.frame.rip then some (h.frame.forceView h.cpu) else none :=
  forceContextRestore_view (c := h.cpu.set .rdi h.ptr) _ h.stored _ (Cpu.set_reg_self ..) h.apart

end Handoff

/-- The contexts on which `sysret` cannot be told from `iretq`. Bit 16 is the
    resume flag, which only `iretq` restores. -/
structure Frame.SysretSafe (f : Frame) : Prop where
  user : f.cs = userCs
  rdi : f.rdi = f.rsp
  rcx : f.rcx = f.rip
  r11 : f.r11 = f.rflags
  resumeFlag : f.rflags &&& 0x10000 = 0

instance (f : Frame) : Decidable f.SysretSafe :=
  decidable_of_iff (f.cs = userCs ∧ f.rdi = f.rsp ∧ f.rcx = f.rip ∧ f.r11 = f.rflags ∧
      f.rflags &&& 0x10000 = 0)
    ⟨fun ⟨user, rdi, rcx, r11, flag⟩ => ⟨user, rdi, rcx, r11, flag⟩,
      fun safe => ⟨safe.user, safe.rdi, safe.rcx, safe.r11, safe.resumeFlag⟩⟩

lemma flags_agree_iff (v : Word) : v &&& sysretMask ||| 2 = v &&& iretqMask ||| 2 ↔ v &&& 0x10000 = 0 := by
  have split : v &&& iretqMask = v &&& sysretMask ||| v &&& 0x10000 := by
    rw [← BitVec.and_or_distrib_left]
    rfl
  constructor
  · intro same
    have masked := congrArg (· &&& (0x10000 : Word)) same
    simp only [BitVec.and_or_distrib_right, BitVec.and_assoc] at masked
    simpa [sysretMask, iretqMask] using masked.symm
  · intro clear
    rw [split, clear]
    simp

lemma sysretView_reg_iff (f : Frame) (c : Cpu) :
    (f.sysretView c).reg = f.reg ↔ f.rdi = f.rsp ∧ f.rcx = f.rip ∧ f.r11 = f.rflags := by
  constructor
  · intro same
    exact ⟨(congrFun same .rdi).symm, (congrFun same .rcx).symm, (congrFun same .r11).symm⟩
  · rintro ⟨rdi, rcx, r11⟩
    funext r
    cases r <;> simp [sysretView, reg, rdi, rcx, r11]

variable {c : Cpu} {f : Frame}

lemma sysretView_agrees_iff
    (selector : f.cs = kernelCs ∨ f.cs = userCs) :
    f.sysretView c = f.interruptView c ↔ f.SysretSafe := by
  constructor
  · intro same
    obtain ⟨rdi, rcx, r11⟩ := (sysretView_reg_iff f c).mp (congrArg View.reg same)
    have flag := (flags_agree_iff f.rflags).mp (congrArg View.rflags same)
    have level : 3 = (f.cs &&& 3).toNat := congrArg View.cpl same
    refine ⟨selector.resolve_left fun kernel => ?_, rdi, rcx, r11, flag⟩
    rw [kernel] at level
    exact absurd level (by decide)
  · intro safe
    have ring : ¬ f.cs &&& 3 = 0 := by rw [safe.user]; decide
    have level : (f.cs &&& 3).toNat = 3 := by rw [safe.user]; rfl
    have reg := (sysretView_reg_iff f c).mpr ⟨safe.rdi, safe.rcx, safe.r11⟩
    have flags := (flags_agree_iff f.rflags).mpr safe.resumeFlag
    simp only [sysretView] at reg
    simp only [sysretView, interruptView, iretqView, reg, flags, level, if_neg ring]

lemma forceView_agrees (c : Cpu) (user : f.cs = userCs) : f.forceView c = f.interruptView c := by
  rw [forceView, interruptView, if_neg (by rw [user]; decide)]

lemma interruptView_gsBase_iff (distinct : c.gsBase ≠ c.kernelGsBase)
    (selector : f.cs = kernelCs ∨ f.cs = userCs) :
    (f.interruptView c).gsBase = c.gsBase ↔ f.cs = kernelCs := by
  rcases selector with kernel | user
  · simp [interruptView, iretqView, kernel, kernelCs]
  · simp [interruptView, iretqView, user, kernelCs, userCs, distinct.symm]

lemma Handoff.agrees_iff (h : Handoff) (currentProcess : Word) :
    h.Agrees currentProcess ↔ (canonical h.frame.rip → h.frame.SysretSafe) := by
  rw [Handoff.Agrees, h.interrupted_eq, h.returned_eq, h.switched_eq, h.forced_eq]
  by_cases valid : canonical h.frame.rip
  · simp only [valid, if_true, some.injEq, true_imp_iff, sysretView_agrees_iff h.selector]
    constructor
    · exact fun agrees => agrees.1
    · intro safe
      refine ⟨safe, safe, forceView_agrees h.cpu safe.user, ?_⟩
      rintro v rfl
      exact interruptView_gsBase_iff h.distinct h.selector
  · simp [valid]

/-- A system call made by a user process and handled without a switch. -/
structure OrdinaryCall where
  user : Cpu
  /-- `IA32_LSTAR` -/
  entry : Word
  callee : Callee → Cpu → Cpu
  aligned : user.kernelStack &&& 0xF = 0
  apart : Frame.Apart user.framePtr (user.kernelGsBase + 8)
  ordinary : Ordinary (callee .syscallHandler) (user.atHandler entry)

namespace OrdinaryCall

variable (s : OrdinaryCall) (currentProcess : Word)

/-- The call returns to its caller with every register but the result and the
    two that `syscall` itself overwrites. -/
def KeepsRegisters : Prop :=
  ∀ d, (syscallEntry currentProcess).run s.callee (s.user.syscall s.entry) = some d →
    ∀ r ∉ [Reg.rax, .rcx, .r11], d.reg r = s.user.reg r

lemma keepsRegisters_iff :
    s.KeepsRegisters currentProcess ↔ (canonical s.user.rip → s.user.reg .rdi = s.user.reg .rsp) := by
  have left := syscallEntry_view currentProcess s.aligned s.apart s.ordinary rfl
  constructor
  · intro keeps valid
    rw [if_pos valid] at left
    obtain ⟨d, ran, view⟩ := map_eq_some_iff.mp left
    have rdi := keeps d ran .rdi (by decide)
    rw [← rdi]
    exact congrFun (congrArg View.reg view) .rdi
  · intro same d ran r other
    rw [ran] at left
    split at left
    next valid =>
      have view := some.inj left
      rw [show d.reg r = _ from congrFun (congrArg View.reg view) r]
      cases r <;> simp_all [sysretView, reg, withRax, saved]
    · cases left

end OrdinaryCall

def preemptedFrame : Frame where
  es := 0x1B
  ds := 0x1B
  r15 := 0
  r14 := 0
  r13 := 0
  r12 := 0
  r11 := 0x202
  r10 := 0
  r9 := 0
  r8 := 0
  rdi := 1
  rsi := 0
  rbp := 0
  rbx := 0
  rdx := 0
  rcx := 0x400000
  rax := 0
  int_no := 32
  err_code := 0
  rip := 0x400000
  cs := userCs
  rflags := 0x202
  rsp := 0x7FFFF000F000
  ss := 0x1B

/-- A user task stopped by the timer with 1 in RDI. -/
def preempted : Handoff where
  cpu :=
    { reg := fun _ => 0, seg := fun _ => 0, rip := 0, rflags := 0, zero := false, cpl := 0
      gsBase := 0xFFFFFFFF80200000, kernelGsBase := 0
      mem := fun a => preemptedFrame.word ((a - 0xFFFF800000100000).toNat / 8) }
  frame := preemptedFrame
  ptr := 0xFFFF800000100000
  stored := by unfold Frame.At; decide
  apart := by unfold Frame.Apart; decide
  distinct := by decide
  selector := .inr rfl

/-- `getpid` called with 1 in RDI. -/
def getpidCall : OrdinaryCall where
  user :=
    { reg := fun r => match r with | .rdi => 1 | .rsp => 0x7FFFF000F000 | _ => 0
      seg := fun _ => 0x1B, rip := 0x400000, rflags := 0x202, zero := false, cpl := 3
      gsBase := 0, kernelGsBase := 0xFFFFFFFF80200000, mem := fun _ => 0xFFFF800000200000 }
  entry := 0xFFFFFFFF80100000
  callee := fun _ => storeResult 7
  aligned := by decide
  apart := by unfold Frame.Apart; decide
  ordinary := storeResult_ordinary 7 _

theorem sysret_exposes_rsp :
    ¬ preempted.Agrees 0xFFFFFFFF80300000 ∧ ¬ getpidCall.KeepsRegisters 0xFFFFFFFF80300000 := by
  rw [Handoff.agrees_iff, OrdinaryCall.keepsRegisters_iff]
  decide

/-- The syscall exit and `force_context_restore` resume a context as the
    interrupt exit does, and an ordinary system call keeps its caller's registers,
    exactly when the context is one that `sysret` restores and when the caller's
    RDI equals its RSP. -/
theorem resume_agrees_iff (currentProcess : Word) :
    (∀ h : Handoff, h.Agrees currentProcess ↔ (canonical h.frame.rip → h.frame.SysretSafe)) ∧
    (∀ s : OrdinaryCall, s.KeepsRegisters currentProcess ↔
      (canonical s.user.rip → s.user.reg .rdi = s.user.reg .rsp)) :=
  ⟨fun h => h.agrees_iff currentProcess, fun s => s.keepsRegisters_iff currentProcess⟩

end Znu.Machine
