import Znu.Machine.Resume

/-! # The way in: `syscall_entry`

The `syscall` instruction and the pushes of `syscall_entry` build a frame on the
kernel stack whose top is the word at `[gs:0]`. An ordinary call of
`syscall_handler` stores its result in the frame's RAX and returns the frame, and
the entry code then goes straight to `.return_to_user`.
-/

namespace Znu.Machine

open List Machine.Frame Nat

open Cpu

/-- `IA32_FMASK` as `syscall_init` programs it. -/
def sfmask : Word := 0x700

/-- The `syscall` instruction. `c.rip` is the address of the instruction after it
    and `entry` the value of `IA32_LSTAR`. -/
def Cpu.syscall (entry : Word) (c : Cpu) : Cpu :=
  { (c.set .rcx c.rip).set .r11 c.rflags with
    rip := entry, rflags := c.rflags &&& ~~~sfmask, cpl := 0 }

/-- From `syscall_entry` to the call of `syscall_handler`. -/
def switchStack : List Instr := [.swapgs, .storeGs 8 .rsp, .loadGs .rsp 0]

/-- The part of the frame an interrupt would have pushed. -/
def pushInterruptFrame : List Instr :=
  [.pushImm 0x1B, .pushGs 8, .push .r11, .pushImm 0x23, .push .rcx, .pushImm 0, .pushImm 0]

def pushaq : List Instr := poppedRegs.reverse.map .push

def pushSegments : List Instr :=
  [.movImm .rax 0, .readSeg .ds, .push .rax, .readSeg .es, .push .rax]

def callHandler : List Instr := [.mov .rdi .rsp, .mov .rbp .rsp, .andRsp (-16)]

def syscallEntry (currentProcess : Word) : Prog :=
  .seq (switchStack ++ pushInterruptFrame ++ pushaq ++ pushSegments ++ callHandler)
    (.call .syscallHandler (.seq [.mov .rsp .rbp, .cmpImm .rax 1]
      (.jz (blockCurrentProcess currentProcess)
        (.seq [.cmp .rax .rsp] (.jz returnToUser (switchToNewContext currentProcess))))))

/-- Push the words one after the other. -/
def Cpu.pushAll : List Word → Cpu → Cpu
  | [], c => c
  | v :: vs, c => pushAll vs (c.push v)

lemma Cpu.pushAll_spec (vs : List Word) (short : 8 * vs.length < 2 ^ 64) (c : Cpu) :
    let d := pushAll vs c
    d.reg .rsp = c.reg .rsp - BitVec.ofNat 64 (8 * vs.length) ∧
    (∀ r, r ≠ .rsp → d.reg r = c.reg r) ∧
    (∀ k (inside : k < vs.length), d.mem (c.reg .rsp - BitVec.ofNat 64 (8 * (k + 1))) = vs[k]) ∧
    (∀ a, (∀ k < vs.length, a ≠ c.reg .rsp - BitVec.ofNat 64 (8 * (k + 1))) → d.mem a = c.mem a) ∧
    d.seg = c.seg ∧ d.gsBase = c.gsBase ∧ d.kernelGsBase = c.kernelGsBase := by
  induction vs generalizing c with
  | nil => exact ⟨by simp [pushAll], fun _ _ => rfl, by simp, fun _ _ => rfl, rfl, rfl, rfl⟩
  | cons v vs ih =>
    simp only [length_cons] at short
    obtain ⟨sp, kept, pushed, outside, seg, gs, kernelGs⟩ := ih (by omega) (c.push v)
    have shift : ∀ k : Nat, c.reg .rsp - 8 - BitVec.ofNat 64 (8 * (k + 1)) =
        c.reg .rsp - BitVec.ofNat 64 (8 * (k + 1 + 1)) := by
      intro k
      rw [mul_add 8 (k + 1) 1, BitVec.ofNat_add]
      generalize BitVec.ofNat 64 (8 * (k + 1)) = x
      bv_omega
    simp only [push_reg_rsp, shift] at sp pushed outside
    refine ⟨?_, ?_, ?_, ?_, seg, gs, kernelGs⟩
    · rw [pushAll, sp, length_cons, mul_add, BitVec.ofNat_add]
      generalize BitVec.ofNat 64 (8 * vs.length) = x
      bv_omega
    · intro r ne
      rw [pushAll, kept r ne, push_reg_ne _ _ _ ne]
    · intro k inside
      cases k with
      | zero =>
        rw [pushAll, outside]
        · exact store_mem_self ..
        · intro k below
          have : (BitVec.ofNat 64 (8 * (k + 1 + 1))).toNat = 8 * (k + 2) := by
            rw [BitVec.toNat_ofNat, mod_eq_of_lt (by omega)]
          generalize BitVec.ofNat 64 (8 * (k + 1 + 1)) = x at this
          bv_omega
      | succ k => exact pushed k (by simpa using inside)
    · intro a away
      rw [pushAll, outside a fun k below => away (k + 1) (by simpa using below)]
      exact store_mem_ne _ _ _ (away 0 (by simp))

lemma Cpu.pushAll_append (vs ws : List Word) (c : Cpu) :
    c.pushAll (vs ++ ws) = (c.pushAll vs).pushAll ws := by
  induction vs generalizing c with
  | nil => rfl
  | cons v vs ih => exact ih (c.push v)

lemma exec_pushRegs (rs : List Reg) (noRsp : .rsp ∉ rs) (c : Cpu) :
    execAll (rs.map .push) c = c.pushAll (rs.map c.reg) := by
  induction rs generalizing c with
  | nil => rfl
  | cons r rs ih =>
    obtain ⟨-, noRsp⟩ : Reg.rsp ≠ r ∧ Reg.rsp ∉ rs := by simpa using noRsp
    have values : rs.map (c.push (c.reg r)).reg = rs.map c.reg :=
      map_congr_left fun q listed => push_reg_ne _ _ _ fun same => noRsp (same ▸ listed)
    simp only [map_cons, execAll, Instr.exec, pushAll, ih noRsp, values]

/-- What `syscall_entry` saves of the user's processor. -/
def Frame.saved (c : Cpu) : Frame where
  es := c.seg .es &&& 0xFFFF
  ds := c.seg .ds &&& 0xFFFF
  r15 := c.reg .r15
  r14 := c.reg .r14
  r13 := c.reg .r13
  r12 := c.reg .r12
  r11 := c.rflags
  r10 := c.reg .r10
  r9 := c.reg .r9
  r8 := c.reg .r8
  rdi := c.reg .rdi
  rsi := c.reg .rsi
  rbp := c.reg .rbp
  rbx := c.reg .rbx
  rdx := c.reg .rdx
  rcx := c.rip
  rax := c.reg .rax
  int_no := 0
  err_code := 0
  rip := c.rip
  cs := userCs
  rflags := c.rflags
  rsp := c.reg .rsp
  ss := 0x1B

/-- The words of a frame in the order they are pushed. -/
def Frame.pushOrder (f : Frame) : List Word :=
  [f.ss, f.rsp, f.rflags, f.cs, f.rip, f.err_code, f.int_no, f.rax, f.rcx, f.rdx, f.rbx, f.rbp,
    f.rsi, f.rdi, f.r8, f.r9, f.r10, f.r11, f.r12, f.r13, f.r14, f.r15, f.ds, f.es]

lemma Cpu.pushAll_frame (f : Frame) (c : Cpu) : f.At (c.pushAll f.pushOrder).mem (c.reg .rsp - 192) := by
  obtain ⟨-, -, pushed, -⟩ := pushAll_spec f.pushOrder (by simp [pushOrder]) c
  intro k inside
  have address : c.reg .rsp - 192 + BitVec.ofNat 64 (8 * k) =
      c.reg .rsp - BitVec.ofNat 64 (8 * (23 - k + 1)) := by
    interval_cases k <;> bv_omega
  rw [address, pushed (23 - k) (by simp [pushOrder]; omega)]
  interval_cases k <;> rfl

section

variable {c : Cpu} (entry : Word)

/-- The kernel stack `syscall_entry` switches to. -/
def Cpu.kernelStack (c : Cpu) : Word := c.mem c.kernelGsBase

/-- The processor when `syscall_handler` is called. -/
def Cpu.atHandler (c : Cpu) (entry : Word) : Cpu :=
  execAll (switchStack ++ pushInterruptFrame ++ pushaq ++ pushSegments ++ callHandler) (c.syscall entry)

/-- Where the entry code builds the frame. -/
def Cpu.framePtr (c : Cpu) : Word := c.kernelStack - 192

/-- The processor after the stack switch: everything but RSP is still the
    user's, and RSP is parked in `[gs:8]`. -/
lemma switchStack_spec (entry : Word) (c : Cpu) :
    let d := execAll switchStack (c.syscall entry)
    d.reg .rsp = c.kernelStack ∧ (∀ r ∉ [Reg.rsp, .rcx, .r11], d.reg r = c.reg r) ∧
      d.reg .rcx = c.rip ∧ d.reg .r11 = c.rflags ∧ d.mem (c.kernelGsBase + 8) = c.reg .rsp ∧
      d.seg = c.seg ∧ d.gsBase = c.kernelGsBase ∧ d.kernelGsBase = c.gsBase := by
  refine ⟨?_, ?_, ?_, ?_, ?_, rfl, rfl, rfl⟩
  · simp [execAll, switchStack, Instr.exec, Cpu.syscall, Cpu.kernelStack]
  · intro r other
    simp only [mem_cons, not_mem_nil, or_false, not_or] at other
    obtain ⟨rsp, rcx, r11⟩ := other
    simp [execAll, switchStack, Instr.exec, Cpu.syscall, rsp, rcx, r11, Cpu.set]
  all_goals simp [execAll, switchStack, Instr.exec, Cpu.syscall, Cpu.set, Cpu.store]

/-- Reading the two segment registers into a cleared AX pushes their values. -/
lemma pushSegments_spec (c : Cpu) :
    let d := execAll pushSegments c
    d.mem = (c.pushAll [c.seg .ds &&& 0xFFFF, c.seg .es &&& 0xFFFF]).mem ∧
      d.reg .rsp = c.reg .rsp - 16 ∧ d.gsBase = c.gsBase ∧ d.kernelGsBase = c.kernelGsBase := by
  have cleared : ∀ x : Word, x &&& 65535#64 &&& 18446744073709486080#64 = 0 := by
    intro x
    rw [BitVec.and_assoc]
    exact BitVec.and_zero
  refine ⟨?_, ?_, rfl, rfl⟩
  · simp [execAll, pushSegments, Instr.exec, pushAll, push, store, cleared]
  · simp [execAll, pushSegments, Instr.exec, BitVec.sub_sub]

lemma atHandler_spec (apart : Frame.Apart c.framePtr (c.kernelGsBase + 8)) :
    let d := c.atHandler entry
    (saved c).At d.mem c.framePtr ∧ d.reg .rdi = c.framePtr ∧ d.reg .rbp = c.framePtr ∧
      d.gsBase = c.kernelGsBase ∧ d.kernelGsBase = c.gsBase := by
  obtain ⟨sp, regs, rcx, r11, parked, seg, gs, kernelGs⟩ := switchStack_spec entry c
  simp only [atHandler, execAll_append]
  generalize execAll switchStack (c.syscall entry) = k at *
  have away : c.kernelGsBase + 8 ≠ k.reg .rsp - 8 := by
    have last := apart 23 (by decide)
    rw [framePtr, ← sp] at last
    bv_omega
  obtain ⟨pushed, isPushed⟩ : ∃ words, words = [0x1B, c.reg .rsp, c.rflags, userCs, c.rip, 0, 0] := ⟨_, rfl⟩
  have interrupt : execAll pushInterruptFrame k = k.pushAll pushed := by
    simp only [isPushed, pushInterruptFrame, execAll, Instr.exec, pushAll, push_gsBase, gs,
      push_mem_ne k _ _ away, parked, userCs]
    simp [rcx, r11]
  have general : execAll pushaq (execAll pushInterruptFrame k) =
      k.pushAll (pushed ++ poppedRegs.reverse.map k.reg) := by
    obtain ⟨-, kept, -⟩ := pushAll_spec pushed (by simp [isPushed]) k
    rw [pushaq, exec_pushRegs _ (by decide), interrupt, pushAll_append]
    refine congrArg (pushAll · _) ?_
    exact map_congr_left fun r listed => kept r (by rintro rfl; revert listed; decide)
  obtain ⟨newSp, -, -, -, keptSeg, keptGs, keptKernelGs⟩ :=
    pushAll_spec (pushed ++ poppedRegs.reverse.map k.reg) (by simp [isPushed, poppedRegs]) k
  have words : pushed ++ poppedRegs.reverse.map k.reg ++
      [c.seg .ds &&& 0xFFFF, c.seg .es &&& 0xFFFF] = (saved c).pushOrder := by
    simp [isPushed, poppedRegs, pushOrder, saved, regs, rcx, r11]
  rw [general]
  obtain ⟨m, isM⟩ : ∃ m, m = k.pushAll (pushed ++ poppedRegs.reverse.map k.reg) := ⟨_, rfl⟩
  rw [← isM] at newSp keptSeg keptGs keptKernelGs ⊢
  obtain ⟨mem, rsp, pushedGs, pushedKernelGs⟩ := pushSegments_spec m
  have built : (execAll pushSegments m).mem = (k.pushAll (saved c).pushOrder).mem := by
    rw [mem, keptSeg, seg, isM, ← pushAll_append, words]
  have ptr : (execAll pushSegments m).reg .rsp = c.framePtr := by
    rw [rsp, newSp, sp, framePtr, BitVec.sub_sub]
    simp [isPushed, poppedRegs]
  have frame : (saved c).At (execAll pushSegments m).mem c.framePtr := by
    rw [built, framePtr, ← sp]
    exact pushAll_frame _ k
  generalize execAll pushSegments m = n at *
  refine ⟨frame, ?_, ?_, ?_, ?_⟩
  · simp [callHandler, execAll, Instr.exec, ptr]
  · simp [callHandler, execAll, Instr.exec, ptr]
  · exact pushedGs.trans (keptGs.trans gs)
  · exact pushedKernelGs.trans (keptKernelGs.trans kernelGs)

/-- What an ordinary system call does to the processor: it may use every
    caller-saved register and all memory outside the frame, changes only RAX of
    the frame, and returns the frame's address. -/
structure Ordinary (handler : Cpu → Cpu) (c : Cpu) : Prop where
  result : (handler c).reg .rax = c.reg .rdi
  rbp : (handler c).reg .rbp = c.reg .rbp
  gsBase : (handler c).gsBase = c.gsBase
  kernelGsBase : (handler c).kernelGsBase = c.kernelGsBase
  words : ∀ k < 24, k ≠ 16 → (handler c).mem (c.reg .rdi + BitVec.ofNat 64 (8 * k)) =
    c.mem (c.reg .rdi + BitVec.ofNat 64 (8 * k))

/-- `regs->rax = v; return regs;` -/
def storeResult (v : Word) (c : Cpu) : Cpu :=
  (c.store (c.reg .rdi + 128) v).set .rax (c.reg .rdi)

lemma storeResult_ordinary (v : Word) (c : Cpu) : Ordinary (storeResult v) c where
  result := set_reg_self ..
  rbp := rfl
  gsBase := rfl
  kernelGsBase := rfl
  words := by
    intro k inside notRax
    refine store_mem_ne _ _ _ fun same => notRax ?_
    have offset : BitVec.ofNat 64 (8 * k) = 128 := BitVec.add_right_inj _ |>.mp same
    have value := congrArg BitVec.toNat offset
    rw [BitVec.toNat_ofNat, mod_eq_of_lt (by omega)] at value
    have : (128 : Word).toNat = 128 := rfl
    omega

def Frame.withRax (f : Frame) (v : Word) : Frame := { f with rax := v }

lemma Frame.At.withRax {f : Frame} {mem : Word → Word} {p : Word}
    (stored : ∀ k < 24, k ≠ 16 → mem (p + BitVec.ofNat 64 (8 * k)) = f.word k) :
    (f.withRax (mem (p + 128))).At mem p := by
  intro k inside
  by_cases isRax : k = 16
  · subst isRax
    rfl
  · rw [stored k inside isRax]
    interval_cases k <;> first | rfl | exact absurd rfl isRax

lemma framePtr_ne_one (aligned : c.kernelStack &&& 0xF = 0) : c.framePtr ≠ 1 := by
  intro one
  have stack : c.kernelStack = 193 := by
    rw [framePtr] at one
    bv_omega
  rw [stack] at aligned
  exact absurd aligned (by decide)

/-- A whole ordinary system call, from the `syscall` instruction back to ring 3. -/
lemma syscallEntry_view (currentProcess : Word) {callee : Callee → Cpu → Cpu} {entry : Word}
    (aligned : c.kernelStack &&& 0xF = 0)
    (apart : Frame.Apart c.framePtr (c.kernelGsBase + 8))
    (ordinary : Ordinary (callee .syscallHandler) (c.atHandler entry)) {done : Cpu}
    (handled : callee .syscallHandler (c.atHandler entry) = done) :
    ((syscallEntry currentProcess).run callee (c.syscall entry)).map Cpu.view =
      if canonical c.rip then
        some (((saved c).withRax (done.mem (c.framePtr + 128))).sysretView done)
      else none := by
  obtain ⟨stored, rdi, rbp, -, -⟩ := atHandler_spec entry apart
  have kept : ((saved c).withRax (done.mem (c.framePtr + 128))).At done.mem c.framePtr := by
    refine Frame.At.withRax fun k inside notRax => ?_
    rw [← stored k inside, ← rdi, ← handled]
    exact ordinary.words k inside notRax
  have result : done.reg .rax = c.framePtr := by rw [← handled, ordinary.result, rdi]
  have base : done.reg .rbp = c.framePtr := by rw [← handled, ordinary.rbp, rbp]
  have compared : execAll [.mov .rsp .rbp, .cmpImm .rax 1] done =
      { done.set .rsp c.framePtr with zero := false } := by
    have notBlocked : done.reg .rax ≠ 1 := result ▸ framePtr_ne_one aligned
    simpa [execAll, Instr.exec, base] using notBlocked
  have same : execAll [.cmp .rax .rsp] { done.set .rsp c.framePtr with zero := false } =
      { done.set .rsp c.framePtr with zero := true } := by
    simp [execAll, Instr.exec, result]
  rw [atHandler] at handled
  have left := returnToUser_view (c := { done.set .rsp c.framePtr with zero := true }) callee kept
    (done.set_reg_self .rsp c.framePtr)
  simp only [syscallEntry, Prog.run, handled, compared, same, Bool.false_eq_true, if_false, if_true]
  rw [left]
  rfl

end

end Znu.Machine
