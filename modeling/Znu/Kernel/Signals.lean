import Znu.Kernel.Frames
import Znu.Lib.Along

/-! # Delivery of signals

The calls that concern the signals of one process: `kernel_signal_raise`,
`signal_check_and_deliver` and `sys_sigreturn`. Beside the process, what has been raised
since its last delivery and the registers at the entry of the handler are remembered.
-/

namespace Znu.Kernel

open Machine Lib List Bool BitVec

inductive SignalCall where
  | raise (signum : Nat)
  | check (regs : Frame)
  | sigreturn (regs : Frame)

open SignalCall

/-- Signal 0 cannot be raised. -/
def SignalCall.raises (n : Fin 64) : SignalCall → Bool
  | raise signum => 0 < signum && signum == n.val
  | _ => false

namespace Process

/-- The process after the call and the registers it leaves, unless `do_exit` takes over. -/
def call (p : Process) : SignalCall → Process × Option Frame
  | .raise signum => (p.raise signum, none)
  | .check regs =>
    match p.deliver regs with
    | .resume p regs => (p, some regs)
    | .fatal p _ => (p, none)
  | .sigreturn regs =>
    if p.insideSignalHandler then ({ p with insideSignalHandler := false }, some p.savedUserContext)
    else (p, some { regs with rax := -1 })

/-- A call delivers the signal: it is no longer pending. -/
def takes (p p' : Process) (n : Fin 64) : Bool :=
  p.pendingSignals.getLsbD n && !p'.pendingSignals.getLsbD n

/-- The lowest signal that is pending and not blocked. -/
structure Lowest (p : Process) (n : Fin 64) : Prop where
  pending : p.pendingSignals.getLsbD n = true
  unblocked : p.blockedSignals.getLsbD n = false
  least : ∀ m : Fin 64, 0 < m.val → p.pendingSignals.getLsbD m = true →
    p.blockedSignals.getLsbD m = false → n ≤ m

/-- Where a check goes on that has taken the signal: in the handler, with the number of the signal,
    or without one as if there had been no signal, unless it is a fatal one. -/
structure Enters (p : Process) (regs : Frame) (n : Fin 64) : Prop where
  handled : p.signalHandlers n ≠ 0 → (p.call (.check regs)).1.insideSignalHandler = true ∧
    (p.call (.check regs)).2 =
      some { regs with rip := p.signalHandlers n, rdi := BitVec.ofNat 64 n.val, rax := 0 }
  unhandled : p.signalHandlers n = 0 → (p.call (.check regs)).1.insideSignalHandler = false ∧
    (p.call (.check regs)).2 =
      if n.val = sigInt ∨ n.val = sigKill ∨ n.val = sigTerm then none else some regs

/-- A call that delivers nothing, and enters no handler. -/
structure Keeps (p : Process) (e : SignalCall) : Prop where
  pending : ∀ n : Fin 64, (p.call e).1.pendingSignals.getLsbD n =
    (p.pendingSignals.getLsbD n || e.raises n)
  handler : (p.call e).1.insideSignalHandler = true → p.insideSignalHandler = true ∧
    (p.call e).1.savedUserContext = p.savedUserContext
  same : ∀ regs, e = .check regs → p.call e = (p, some regs)

/-- A check that delivers a signal. -/
structure Delivers (p : Process) (regs : Frame) (n : Fin 64) : Prop where
  idle : p.insideSignalHandler = false
  lowest : p.Lowest n
  cleared : (p.call (.check regs)).1.pendingSignals = p.pendingSignals &&& ~~~twoPow 64 n
  saved : (p.call (.check regs)).1.insideSignalHandler = true →
    (p.call (.check regs)).1.savedUserContext = regs
  enters : p.Enters regs n

variable {p : Process} {n : Fin 64}

lemma lowest_of_find (found : (finRange 64).find? (fun (i : Fin 64) =>
    0 < i.val && (p.pendingSignals &&& ~~~p.blockedSignals).getLsbD i.val) = some n) : p.Lowest n := by
  obtain ⟨chosen, before, after, split, skipped⟩ := find?_eq_some_iff_append.mp found
  simp only [getLsbD_and, getLsbD_not, and_eq_true, decide_eq_true_eq, not_eq_true', n.isLt] at chosen
  refine ⟨chosen.2.1, chosen.2.2.2, fun m positive pending unblocked => ?_⟩
  by_contra smaller
  have sorted := split ▸ pairwise_lt_finRange 64
  have member : m ∈ before ++ n :: after := split ▸ mem_finRange m
  rcases mem_append.mp member with early | late
  · have absent := skipped m early
    simp only [getLsbD_and, getLsbD_not, positive, pending, unblocked, m.isLt, decide_true,
      Bool.not_false, Bool.and_self, Bool.not_true, Bool.false_eq_true] at absent
  rcases mem_cons.mp late with rfl | later
  · exact smaller le_rfl
  · exact smaller (rel_of_pairwise_cons (pairwise_append.mp sorted).2.1 later).le

lemma raise_keeps (signum : Nat) : p.Keeps (.raise signum) := by
  refine ⟨fun n => ?_, ?_, nofun⟩
  · simp only [call, raise, raises]
    split
    · grind
    simp only [getLsbD_or, getLsbD_twoPow]
    grind
  · simp only [call, raise]
    grind

/-- A check that changes nothing. -/
lemma keeps_of_same {regs : Frame} (same : p.call (.check regs) = (p, some regs)) :
    p.Keeps (.check regs) := by
  refine ⟨fun n => ?_, fun active => ?_, ?_⟩
  · simp [same, raises]
  · rw [same] at active ⊢
    exact ⟨active, rfl⟩
  · rintro _ ⟨⟩
    exact same

lemma check_cases (regs : Frame) : p.Keeps (.check regs) ∨ ∃ n, p.Delivers regs n := by
  cases active : p.insideSignalHandler with
  | true => exact .inl (keeps_of_same (by simp [call, deliver, active]))
  | false =>
    cases found : (finRange 64).find? fun (i : Fin 64) =>
        0 < i.val && (p.pendingSignals &&& ~~~p.blockedSignals).getLsbD i.val with
    | none =>
      refine .inl (keeps_of_same ?_)
      simp only [call, deliver, active, found, false_eq_true, if_false]
    | some n =>
      refine .inr ⟨n, active, lowest_of_find found, ?_, ?_, fun handler => ?_, fun none => ?_⟩
      · simp only [call, deliver, active, found, false_eq_true, if_false]
        grind
      · simp only [call, deliver, active, found, false_eq_true, if_false]
        grind
      · simp only [call, deliver, active, found, handler, false_eq_true, if_false]
        trivial
      · simp only [call, deliver, active, found, none, false_eq_true, if_false, if_true]
        by_cases fatal : n.val = sigInt ∨ n.val = sigKill ∨ n.val = sigTerm <;> simp [fatal]

lemma sigreturn_keeps (regs : Frame) : p.Keeps (.sigreturn regs) := by
  refine ⟨fun n => ?_, ?_, nofun⟩
  · simp only [call, raises]
    grind
  · simp only [call]
    grind

/-- Clearing one bit delivers that signal only. -/
lemma Delivers.takes_iff {regs : Frame} (delivers : p.Delivers regs n) (m : Fin 64) :
    p.takes (p.call (.check regs)).1 m = true ↔ m = n := by
  have pending := delivers.lowest.pending
  simp only [takes, delivers.cleared, getLsbD_and, getLsbD_not, getLsbD_twoPow]
  grind

lemma Keeps.takes_eq {e : SignalCall} (keeps : p.Keeps e) (m : Fin 64) : p.takes (p.call e).1 m = false := by
  simp only [takes, keeps.pending]
  grind

end Process

/-- A process and the history of its signals. -/
structure Watch where
  process : Process
  /-- raised since its last delivery -/
  raised : Fin 64 → Bool
  /-- the registers when the last handler was entered -/
  entry : Option Frame

open Watch

namespace Watch

def step (w : Watch) (e : SignalCall) : Watch :=
  let p := (w.process.call e).1
  { process := p
    raised := fun n => w.raised n && !w.process.takes p n || e.raises n
    entry := match e with
      | .check regs =>
        if p.insideSignalHandler && !w.process.insideSignalHandler then some regs else w.entry
      | _ => w.entry }

/-- What a call may do. -/
structure Fine (w : Watch) (e : SignalCall) : Prop where
  idle : w.process.insideSignalHandler = true → ∀ n, w.process.takes (w.step e).process n = false
  taken : ∀ n, w.process.takes (w.step e).process n = true → w.raised n = true ∧ w.process.Lowest n ∧
    (w.step e).process.pendingSignals = w.process.pendingSignals &&& ~~~twoPow 64 n ∧
    ∃ regs, e = .check regs ∧ w.process.Enters regs n
  untouched : ∀ regs, e = .check regs → (∀ n, w.process.takes (w.step e).process n = false) →
    w.process.call e = (w.process, some regs)
  entered : w.process.insideSignalHandler = false → (w.step e).process.insideSignalHandler = true →
    ∃ n, w.process.takes (w.step e).process n = true
  restored : ∀ regs, e = .sigreturn regs → w.process.insideSignalHandler = true →
    w.entry.isSome ∧ (w.process.call e).2 = w.entry

structure Inv (w : Watch) : Prop where
  pending : ∀ n : Fin 64, w.process.pendingSignals.getLsbD n = w.raised n
  zero : w.raised 0 = false
  entry : w.process.insideSignalHandler = true → w.entry = some w.process.savedUserContext

variable {w : Watch} {e : SignalCall}

lemma raises_zero : e.raises 0 = false := by
  cases e with
  | raise signum =>
    simp [raises]
    omega
  | check _ | sigreturn _ => rfl

lemma Inv.of_keeps (inv : w.Inv) (keeps : w.process.Keeps e) : (w.step e).Inv ∧ w.Fine e := by
  have kept := keeps.takes_eq
  refine ⟨⟨fun n => ?_, ?_, fun active => ?_⟩, ⟨fun _ => kept, ?_, ?_, ?_, ?_⟩⟩
  · simp only [step, kept, keeps.pending, inv.pending, Bool.not_false, Bool.and_true]
  · simp [step, inv.zero, raises_zero]
  · obtain ⟨before, saved⟩ := keeps.handler active
    have same : (w.step e).entry = w.entry := by cases e <;> simp [step, before]
    rw [same, inv.entry before]
    exact congrArg some saved.symm
  · exact fun n taken => absurd taken (by simp [step, kept])
  · exact fun regs check _ => keeps.same regs check
  · exact fun idle active => absurd (keeps.handler active).1 (by simp [idle])
  · rintro regs rfl active
    simp [Process.call, active, inv.entry active]

lemma Inv.of_delivers {regs : Frame} {n : Fin 64} (inv : w.Inv) (delivers : w.process.Delivers regs n) :
    (w.step (.check regs)).Inv ∧ w.Fine (.check regs) := by
  have taken := delivers.takes_iff
  refine ⟨⟨fun m => ?_, ?_, fun active => ?_⟩, ⟨fun active => ?_, ?_, ?_, ?_, nofun⟩⟩
  · simp only [step, Process.takes, delivers.cleared, ← inv.pending, raises, getLsbD_and]
    grind
  · simp [step, inv.zero, raises_zero]
  · have entered : (w.step (.check regs)).entry = some regs := by
      simp only [step] at active ⊢
      simp [active, delivers.idle]
    exact entered.trans (congrArg some (delivers.saved active).symm)
  · cases delivers.idle.symm.trans active
  · intro m mine
    obtain rfl := (taken m).mp mine
    have raised := (inv.pending m).symm.trans delivers.lowest.pending
    exact ⟨raised, delivers.lowest, delivers.cleared, regs, rfl, delivers.enters⟩
  · exact fun _ _ none => absurd ((taken n).mpr rfl) (by simpa [step] using none n)
  · exact fun _ _ => ⟨n, (taken n).mpr rfl⟩

lemma Inv.call (inv : w.Inv) : (w.step e).Inv ∧ w.Fine e := by
  cases e with
  | raise signum => exact inv.of_keeps (w.process.raise_keeps signum)
  | check regs =>
    rcases w.process.check_cases regs with keeps | ⟨n, delivers⟩
    · exact inv.of_keeps keeps
    · exact inv.of_delivers delivers
  | sigreturn regs => exact inv.of_keeps (w.process.sigreturn_keeps regs)

end Watch

/-- Signals are delivered one at a time, lowest first and to their own handlers, once for the raises
    since the last delivery, and the end of a handler brings back the registers of its entry. -/
theorem signals_delivered_once {p : Process} (quiet : p.pendingSignals = 0)
    (idle : p.insideSignalHandler = false) (calls : List SignalCall) :
    Along step Watch.Fine ⟨p, fun _ => false, none⟩ calls := by
  have start : Watch.Inv ⟨p, fun _ => false, none⟩ :=
    ⟨fun n => by simp [quiet], rfl, fun handler => absurd (idle.symm.trans handler) (by decide)⟩
  have steps : Along step (fun _ _ => True) ⟨p, fun _ => false, none⟩ calls :=
    .of_forall (fun _ _ => trivial) _ _
  exact steps.imp (fun _ _ inv _ => inv.call.2) (fun _ _ inv _ => inv.call.1) start

theorem interrupt_delivered : Along step Watch.Fine ⟨System.idleTask 0 0, fun _ => false, none⟩
    [.raise sigInt, .check zeroFrame, .sigreturn zeroFrame] :=
  signals_delivered_once rfl rfl _

end Znu.Kernel
