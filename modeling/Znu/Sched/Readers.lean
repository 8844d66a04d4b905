import Znu.Sched.Processor

/-! # Readers of a terminal

A process that finds the buffer of a terminal empty waits, and the terminal remembers it. It
remembers one process only. So a process that waits is woken by the next input as long as
there is never a second one that waits for the same terminal.
-/

namespace Znu.Sched

open Machine Kernel Lib Function Option State

/-- The terminal an operation is about. -/
def Op.onTty : Op → Option TtyId
  | .ttyBlock t => some t
  | .ttyGet t => some t
  | .ttyInputChar t _ => some t
  | .ttySet t _ _ => some t
  | _ => none

/-- The character makes input available: every one does without `ICANON`, with it the end of a
    line that fits. -/
def Tty.completes (y : Tty) (c : UInt8) : Bool :=
  !y.canonical || decide (y.translate c = 10 ∧ y.lineLen < ttyBufSize - 1)

lemma Tty.put_reader (y : Tty) (c : UInt8) : (y.put c).waitingReader = y.waitingReader := by
  simp only [put]
  split <;> rfl

lemma Tty.putLine_reader (y : Tty) (n i : Nat) : (y.putLine n i).waitingReader = y.waitingReader := by
  induction n generalizing y i with
  | zero => rfl
  | succ n ih =>
    rw [putLine]
    split
    · rfl
    rw [ih, put_reader]

variable {s s' : State} {p : Ptr} {t : TtyId} {e : Op}

namespace State

variable {q : Ptr}

/-- The terminal remembers every process that waits for its input, and has none. -/
def Attended (s : State) : Prop := ∀ t, ∀ p ∈ s.allocated, (s.threads p).Reads t →
  (s.ttys t).waitingReader = some p ∧ s.ttyBufEmpty t

/-- No process begins to wait for a terminal for which another one waits. -/
def BlocksAlone (s : State) (e : Op) : Prop := ∀ t p, e = .ttyBlock t → s.currentProcess = some p →
  ∀ q ∈ s.allocated, q ≠ p → ¬ (s.threads q).Reads t

instance (x : Thread) (t : TtyId) : Decidable (x.Reads t) :=
  decidable_of_iff (x.state = .waiting ∧ x.waitReason = .tty ∧ x.waitChannel = some t)
    ⟨fun ⟨state, reason, channel⟩ => ⟨state, reason, channel⟩,
      fun reads => ⟨reads.state, reads.reason, reads.channel⟩⟩

/-- `BlocksAlone`, computed. -/
def blocksAlone (s : State) : Op → Bool
  | .ttyBlock t => s.currentProcess.all fun p =>
    decide (∀ q ∈ s.allocated, q ≠ p → ¬ (s.threads q).Reads t)
  | _ => true

instance (s : State) (e : Op) : Decidable (s.BlocksAlone e) :=
  decidable_of_iff (s.blocksAlone e = true) (by
    cases e
    case ttyBlock t =>
      simp only [blocksAlone, Option.all_eq_true, decide_eq_true_eq]
      refine ⟨fun alone t' p isBlock => ?_, fun alone p => alone t p rfl⟩
      cases isBlock
      exact alone p
    all_goals exact ⟨fun _ t p isBlock => (by cases isBlock), fun _ => rfl⟩)

/-! ## Input -/

lemma ttyWakeReader_ttys (s : State) (t : TtyId) : (s.ttyWakeReader t).ttys =
    update s.ttys t { s.ttys t with waitingReader := none } := by
  rw [ttyWakeReader]
  split
  next isNone => rw [← isNone, update_eq_self]
  · rfl

lemma ttyWakeReader_wakes (reader : (s.ttys t).waitingReader = some p)
    (reads : (s.threads p).Reads t) : ((s.ttyWakeReader t).threads p).state = .ready := by
  simp only [ttyWakeReader, reader, modify_self]
  exact congrArg (fun x : Thread => x.state)
    (if_pos (show _ ∧ _ ∧ _ from ⟨reads.state, reads.reason, reads.channel⟩))

lemma modifyTty_modifyTty (s : State) (t : TtyId) (f g : Tty → Tty) :
    (s.modifyTty t f).modifyTty t g = s.modifyTty t (g ∘ f) := by
  simp only [modifyTty, update_self, update_idem, comp_apply]

/-- What a character does to the terminal: the reader is woken, or nothing is available. -/
lemma ttyInputChar_cases (s : State) (t : TtyId) (c : UInt8) :
    ((s.ttys t).completes c = true ∧
        ∃ f : Tty → Tty, (f (s.ttys t)).waitingReader = (s.ttys t).waitingReader ∧
          s.ttyInputChar t c = (s.modifyTty t f).ttyWakeReader t) ∨
      ((s.ttys t).completes c = false ∧
        ∃ f : Tty → Tty, (f (s.ttys t)).waitingReader = (s.ttys t).waitingReader ∧
          (f (s.ttys t)).cookedHead = (s.ttys t).cookedHead ∧
          (f (s.ttys t)).cookedTail = (s.ttys t).cookedTail ∧
          s.ttyInputChar t c = s.modifyTty t f) := by
  simp only [ttyInputChar, Tty.completes]
  split
  next raw => exact .inl ⟨by rw [raw, Bool.true_or], _, Tty.put_reader .., rfl⟩
  rename_i cooked
  have canonical : (!(s.ttys t).canonical) = false := Bool.eq_false_of_not_eq_true cooked
  rw [canonical, Bool.false_or]
  split
  next erase =>
    refine .inr ⟨decide_eq_false fun both => ?_, _, rfl, rfl, rfl, rfl⟩
    rw [erase] at both
    cases both.1
  · split
    next long =>
      exact .inr ⟨decide_eq_false fun both => absurd both.2 (not_lt.mpr long), _, rfl, rfl, rfl, rfl⟩
    rename_i short
    split
    next newline =>
      rw [modifyTty_modifyTty]
      exact .inl ⟨decide_eq_true ⟨newline, not_le.mp short⟩, _, Tty.putLine_reader .., rfl⟩
    next other =>
      exact .inr ⟨decide_eq_false fun both => other both.1, _, rfl, rfl, rfl, rfl⟩

lemma Attended.wakes (attended : s.Attended) (inside : p ∈ s.allocated)
    (reads : (s.threads p).Reads t) {c : UInt8} (complete : (s.ttys t).completes c = true) :
    ((s.ttyInputChar t c).threads p).state = .ready := by
  obtain ⟨reader, -⟩ := attended t p inside reads
  rcases ttyInputChar_cases s t c with ⟨-, f, kept, result⟩ | ⟨incomplete, -⟩
  · rw [result]
    refine ttyWakeReader_wakes ?_ reads
    simp only [modifyTty, update_self]
    exact kept.trans reader
  · cases incomplete.symm.trans complete

/-! ## The other operations -/

lemma scheduler_ttys {regs : Option Frame} {frame : Frame}
    (done : s.scheduler regs = some (s', frame)) : s'.ttys = s.ttys := by
  have mildly := Mildly.prepared s regs
  cases schedule_outcome done with
  | nothing | stay | idle | same => exact mildly.ttys
  | switch i next =>
    exact ((congrArg ttys (switchSpace_eq _ next)).trans (saveFpu_kept _).ttys).trans mildly.ttys

variable (s)

lemma addProcess_ttys (p : Ptr) : (s.addProcess p).1.ttys = s.ttys := by
  rcases addProcess_cases s p with same | ⟨i, -, result⟩
  · rw [same]
  · rw [result]

lemma endProcess_ttys (p : Ptr) (code : CInt) : (s.endProcess p code).ttys = s.ttys := by
  obtain ⟨threads, same, -⟩ := endProcess_threads s p code
  rw [same]

lemma doWait_ttys (pid : CInt) (status : Word) : (s.doWait pid status).1.ttys = s.ttys := by
  rw [doWait]
  split
  · rfl
  split
  next child _ =>
    rw [reap_eq]
    rfl
  · split <;> rfl

end State

/-- An operation changes only the terminal it is about. -/
lemma Step.ttys {y : TtyId} (step : Step s e s') (other : e.onTty ≠ some y) : s'.ttys y = s.ttys y := by
  have apart : ∀ t (f : Tty → Tty), t ≠ y → (s.modifyTty t f).ttys y = s.ttys y := fun t f different =>
    update_of_ne different.symm ..
  cases step.stepped with
  | addProcess => rw [addProcess_ttys]
  | @createProcessFromElf p image loaded => cases loaded <;> rfl
  | @startInit p => exact congrFun (addProcess_ttys s p) y
  | kthreadCreate =>
    rw [kthreadCreate, addProcess_ttys]
    rfl
  | @cloneProcess p src regs copy =>
    rw [cloneProcess]
    split
    · rfl
    cases copy with
    | none => rfl
    | some copy =>
      simp only [addProcess_ttys]
      rfl
  | @scheduler tick _ _ _ done => rw [scheduler_ttys done, (State.Mildly.ticked s tick).ttys]
  | doWait => rw [doWait_ttys]
  | doExit _ done => rw [scheduler_ttys done, endProcess_ttys]
  | kthreadSleepMs acts | kthreadExit acts =>
    simp only [kthreadSleepMs, kthreadExit, acts.current]
    split <;> rfl
  | @ttyBlock q t acts =>
    rw [ttyBlock, acts.current]
    exact apart t (fun y => { y with waitingReader := some q }) fun here => other (congrArg some here)
  | ttyGet | ttySet => exact apart _ _ fun here => other (congrArg some here)
  | @ttyInputChar t c =>
    have different : t ≠ y := fun here => other (congrArg some here)
    rcases ttyInputChar_cases s t c with ⟨-, f, -, result⟩ | ⟨-, f, -, -, -, result⟩
    · rw [result, ttyWakeReader_ttys, update_of_ne different.symm]
      exact apart t f different
    · rw [result]
      exact apart t f different
  | exec acts =>
    rw [exec, acts.current]
    rfl
  | setFs =>
    rw [setFs]
    split <;> rfl
  | kthreadWake | raise | compute | scribble => rfl

section

/-- A process that waited before and after an operation is still remembered, unless another
    one has begun to wait. -/
lemma Step.still_attended (attended : s.Attended) (step : Step s e s') (inside : p ∈ s.allocated)
    (before : (s.threads p).Reads t) (after : (s'.threads p).Reads t) (alone : s.BlocksAlone e) :
    (s'.ttys t).waitingReader = some p ∧ s'.ttyBufEmpty t := by
  obtain ⟨reader, empty⟩ := attended t p inside before
  by_cases here : e.onTty = some t
  · cases e <;> simp only [Op.onTty, reduceCtorEq, some.injEq] at here <;> subst here
    case ttyBlock t =>
      cases step.stepped with
      | @ttyBlock q _ acts =>
        have isReader : q = p := by
          by_contra other
          exact alone t q rfl acts.current p inside (Ne.symm other) before
        subst isReader
        simp only [State.ttyBlock, acts.current, State.ttyBufEmpty, State.modify, State.modifyTty,
          update_self]
        exact ⟨trivial, empty⟩
    case ttyGet t =>
      cases step.stepped with
      | ttyGet filled => exact absurd empty filled
    case ttyInputChar t c =>
      cases step.stepped
      cases complete : (s.ttys t).completes c with
      | true =>
        have ready := attended.wakes inside before complete
        cases after.state.symm.trans ready
      | false =>
        rcases ttyInputChar_cases s t c with ⟨isComplete, -⟩ | ⟨-, f, kept, head, tail, result⟩
        · cases complete.symm.trans isComplete
        rw [result, ttyBufEmpty]
        simp only [modifyTty, update_self, kept, head, tail]
        exact ⟨reader, empty⟩
    case ttySet t cIflag cLflag =>
      cases step.stepped
      simp only [ttyBufEmpty, modifyTty, update_self]
      exact ⟨reader, empty⟩
  · rw [ttyBufEmpty, step.ttys here]
    exact ⟨reader, empty⟩

/-- The readers stay attended exactly if the condition is met. -/
lemma Step.attended_iff (inv : s.Inv) (attended : s.Attended) (step : Step s e s') :
    s'.Attended ↔ s.BlocksAlone e := by
  constructor
  · rintro after t p rfl isCurrent q inside other reads
    cases step.stepped
    simp only [State.ttyBlock, isCurrent] at after
    have still := after t q inside (by rw [State.modify_of_ne other]; exact reads)
    simp only [State.modify, State.modifyTty, update_self, some.injEq] at still
    exact other still.1.symm
  · intro alone t p inside reads
    rcases (step.tabled inv).born p inside with old | newborn
    · rcases (step.effect old).reads t reads with before | ⟨isBlock, isCurrent⟩
      · exact step.still_attended attended old before reads alone
      subst isBlock
      cases step.stepped with
      | ttyBlock _ empty =>
        simp only [State.ttyBlock, isCurrent, State.ttyBufEmpty, State.modify, State.modifyTty, update_self]
        exact ⟨trivial, empty⟩
    · cases newborn.state.symm.trans reads.state

end

/-- In every run in which no process begins to wait for a terminal for which another one waits,
    every reader is remembered and woken by the next input, and none waits while there is input.
    Exactly the operations that meet the condition keep it so. -/
theorem readers_attended {s s' : State} {idle : Ptr} {kstack loop : Word} {es : List Op}
    (booted : s.Booted)
    (run : Run (When Step State.BlocksAlone) (s.initScheduler idle kstack loop) es s') :
    s'.Attended ∧
      (∀ t c, ∀ p ∈ s'.allocated, (s'.threads p).Reads t → (s'.ttys t).completes c = true →
        ((s'.ttyInputChar t c).threads p).state = .ready) ∧
      ∀ e s'', Step s' e s'' → (s''.Attended ↔ s'.BlocksAlone e) := by
  have start : (s.initScheduler idle kstack loop).Attended := by
    intro t p inside reads
    simp only [initScheduler, booted.empty, Finset.mem_insert, Finset.notMem_empty, or_false] at inside
    have running := reads.state
    simp only [initScheduler, inside, update_self] at running
    cases running
  obtain ⟨inv, -, attended⟩ := run_invariant (P := State.Attended) booted run
    (fun s e s' inv _ attended step => (step.attended_iff inv attended).mpr) start
  exact ⟨attended, fun t c p inside reads => attended.wakes inside reads,
    fun e s'' step => step.attended_iff inv attended⟩

/-- The first process and its child both wait for the same terminal. -/
def twoReaders (t : TtyId) : List Op :=
  [.createProcessFromElf 2 ⟨0x400000, 0x7fff0000, 0x8000, 0x2000, 0⟩ true, .startInit 2,
    .cloneProcess 2 3 zeroFrame (some ⟨0x3000, 0x10000⟩), .ttyBlock t, .scheduler true zeroFrame,
    .ttyBlock t]

/-- A line comes, and the first process waits on. -/
theorem reader_forgotten : ∃ s, Run Step (blank.initScheduler 1 0x4000 0)
    (twoReaders 0 ++ [.ttyInputChar 0 10]) s ∧
    s.processes 0 = some 2 ∧ (s.threads 2).Reads 0 ∧ ¬ s.ttyBufEmpty 0 ∧
    (s.ttys 0).waitingReader = none := by
  obtain ⟨s, run, passed⟩ := run_of_check (blank.initScheduler 1 0x4000 0)
    (twoReaders 0 ++ [.ttyInputChar 0 10])
    (fun s => decide (s.processes 0 = some 2 ∧ (s.threads 2).Reads 0 ∧ ¬ s.ttyBufEmpty 0 ∧
      (s.ttys 0).waitingReader = none)) (by decide +kernel)
  exact ⟨s, run, of_decide_eq_true passed⟩

theorem one_reader_attended : ∃ s,
    Run (When Step State.BlocksAlone) (blank.initScheduler 1 0x4000 0) ((twoReaders 0).take 5) s ∧
      s.Attended ∧
      (∀ t c, ∀ p ∈ s.allocated, (s.threads p).Reads t → (s.ttys t).completes c = true →
        ((s.ttyInputChar t c).threads p).state = .ready) ∧
      ∀ e s', Step s e s' → (s'.Attended ↔ s.BlocksAlone e) := by
  obtain ⟨s, run, -⟩ := run_when State.BlocksAlone (blank.initScheduler 1 0x4000 0)
    ((twoReaders 0).take 5) (fun _ => true) (by decide +kernel)
  exact ⟨s, run, readers_attended blank_booted run⟩

end Znu.Sched
