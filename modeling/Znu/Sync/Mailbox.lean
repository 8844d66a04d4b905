import Znu.Lib.Along

/-! # The mailboxes of the processors

The load of `task_pending`, each plain store and the final store of `mailbox_send_task` is one step of
one call, and the handler of the target takes its steps in between. Two calls that both find the mailbox
empty fill it both. As long as that does not happen every task is run once, as it was sent.
-/

namespace Znu.Sync.Mailbox

open Lib Function List

/-- Where a call of `mailbox_send_task` is. -/
inductive Place where
  | outside
  /-- `task_pending` was false -/
  | empty
  | storedFunc
  | storedArg
  | returned
  deriving DecidableEq

/-- The call has found the mailbox empty and not yet filled it. -/
def Place.filling : Place → Bool
  | .empty | .storedFunc | .storedArg => true
  | _ => false

/-- Where the target is in `mailbox_handle_task`. -/
inductive Handler (F : Type) where
  | idle
  /-- `task_pending` was true -/
  | found
  | loaded (func : F)
  /-- the task has been run -/
  | ran
  deriving DecidableEq

open Handler

def Handler.hasRun {F : Type} : Handler F → Bool
  | .ran => true
  | _ => false

/-- `J` are the calls, each with a function and an argument. -/
structure State (J F A : Type) where
  func : Option F
  arg : Option A
  pending : Bool
  place : J → Place
  handler : Handler F
  sent : List (F × A)
  executed : List (F × Option A)

inductive Op (J : Type) where
  | load (j : J)
  | storeFunc (j : J)
  | storeArg (j : J)
  | storePending (j : J)
  | check
  | loadFunc
  | run
  | clear
  deriving DecidableEq

namespace State

variable {J F A : Type} [DecidableEq J] (task : J → F × A)

def start : State J F A := ⟨none, none, false, fun _ => .outside, .idle, [], []⟩

/-- A call takes its step if it is at it. -/
def step (s : State J F A) : Op J → State J F A
  | .load j =>
    if s.place j = .outside ∧ s.pending = false then { s with place := update s.place j .empty }
    else s
  | .storeFunc j =>
    if s.place j = .empty then
      { s with func := some (task j).1, place := update s.place j .storedFunc }
    else s
  | .storeArg j =>
    if s.place j = .storedFunc then
      { s with arg := some (task j).2, place := update s.place j .storedArg }
    else s
  | .storePending j =>
    if s.place j = .storedArg then
      { s with
        pending := true
        place := update s.place j .returned
        sent := s.sent ++ [task j] }
    else s
  | .check =>
    match s.handler with
    | .idle => if s.pending then { s with handler := .found } else s
    | _ => s
  | .loadFunc =>
    match s.handler with
    | .found =>
      match s.func with
      | some func => { s with handler := .loaded func }
      | none => { s with handler := .ran }
    | _ => s
  | .run =>
    match s.handler with
    | .loaded func => { s with handler := .ran, executed := s.executed ++ [(func, s.arg)] }
    | _ => s
  | .clear =>
    match s.handler with
    | .ran => { s with handler := .idle, pending := false }
    | _ => s

/-- The task that waits in the mailbox. -/
def due (s : State J F A) : List (F × A) :=
  if s.pending && !s.handler.hasRun then (s.func.bind fun func => s.arg.map (func, ·)).toList else []

/-- The tasks of the calls that have returned are run, each once and as it was sent, and the one that is
    still to be run is in the mailbox. -/
def Fine (s : State J F A) : Prop :=
  s.sent.map (fun t => (t.1, some t.2)) = s.executed ++ s.due.map fun t => (t.1, some t.2)

/-- No call finds the mailbox empty while another one fills it. -/
def Careful (s : State J F A) (e : Op J) : Prop :=
  ∀ j, e = .load j → s.pending = false → ∀ k, (s.place k).filling = false

instance [Fintype J] (s : State J F A) (e : Op J) : Decidable (s.Careful e) :=
  inferInstanceAs (Decidable (∀ _, _ → _ → ∀ _, _))

structure Inv (s : State J F A) : Prop where
  fine : s.Fine
  alone : ∀ j k, (s.place j).filling → (s.place k).filling → j = k
  empty : ∀ j, (s.place j).filling → s.pending = false
  busy : s.handler ≠ .idle → s.pending = true
  func : ∀ j, s.place j = .storedFunc → s.func = some (task j).1
  arg : ∀ j, s.place j = .storedArg → s.func = some (task j).1 ∧ s.arg = some (task j).2
  full : s.pending = true → s.func.isSome ∧ s.arg.isSome
  loaded : ∀ func, s.handler = .loaded func → s.func = some func

variable {task} {s : State J F A} {e : Op J} {j k : J}

omit [DecidableEq J] in
lemma due_of_empty (empty : s.pending = false) : s.due = [] := by
  simp [due, empty]

namespace Inv

omit [DecidableEq J] in
lemma start : Inv task (State.start : State J F A) := by
  constructor <;> simp [State.start, State.Fine, Place.filling, due]

section

variable (inv : Inv task s)

include inv

omit [DecidableEq J] in
/-- While a call fills the mailbox the handler is idle, and no other call is at it. -/
lemma filler (filling : (s.place j).filling) :
    s.pending = false ∧ s.handler = .idle ∧ ∀ k, k ≠ j → (s.place k).filling = false := by
  have empty := inv.empty j filling
  refine ⟨empty, ?_, fun k other => ?_⟩
  · by_contra busy
    rw [inv.busy busy] at empty
    cases empty
  · exact Bool.eq_false_iff.mpr fun too => other (inv.alone k j too filling)

/-- A call that is the only one to fill the mailbox takes a step at it. -/
lemma fill (empty : s.pending = false)
    (others : ∀ k, k ≠ j → (s.place k).filling = false) {place : Place} {func : Option F} {arg : Option A}
    (storedFunc : place = .storedFunc → func = some (task j).1)
    (storedArg : place = .storedArg → func = some (task j).1 ∧ arg = some (task j).2) :
    Inv task { s with func := func, arg := arg, place := update s.place j place } := by
  have idle : s.handler = .idle := by
    by_contra busy
    rw [inv.busy busy] at empty
    cases empty
  have only : ∀ k, (update s.place j place k).filling → k = j := by
    intro k filling
    by_contra other
    rw [update_of_ne other, others k other] at filling
    cases filling
  refine ⟨?_, fun k l first second => ?_, fun _ _ => empty, inv.busy, fun k stored => ?_,
    fun k stored => ?_, fun pending => ?_, fun f loaded => ?_⟩
  · have fine := inv.fine
    rw [Fine, due_of_empty empty] at fine
    exact fine.trans (congrArg _ (by rw [due_of_empty (by exact empty)]))
  · exact (only k first).trans (only l second).symm
  · change update s.place j place k = _ at stored
    obtain rfl := only k (by rw [stored]; rfl)
    exact storedFunc (by simpa using stored)
  · change update s.place j place k = _ at stored
    obtain rfl := only k (by rw [stored]; rfl)
    exact storedArg (by simpa using stored)
  · rw [empty] at pending
    cases pending
  · rw [idle] at loaded
    cases loaded

lemma storePending (here : s.place j = .storedArg) :
    Inv task { s with
      pending := true
      place := update s.place j .returned
      sent := s.sent ++ [task j] } := by
  have filling : (s.place j).filling := by rw [here]; rfl
  obtain ⟨empty, idle, others⟩ := inv.filler filling
  obtain ⟨func, arg⟩ := inv.arg j here
  have none : ∀ k, (update s.place j .returned k).filling = false := by
    intro k
    by_cases same : k = j
    · rw [same, update_self]
      rfl
    · rw [update_of_ne same, others k same]
  have absurdity : ∀ {k : J} {b : Place}, b.filling → update s.place j .returned k ≠ b := by
    rintro k b filling rfl
    rw [none k] at filling
    cases filling
  refine ⟨?_, fun k _ first => ?_, fun k filling => ?_, fun _ => rfl, fun k stored => ?_,
    fun k stored => ?_, fun _ => ?_, fun f loaded => ?_⟩
  · have fine := inv.fine
    rw [Fine, due_of_empty empty, map_nil, append_nil] at fine
    rw [Fine, map_append, fine]
    simp [due, idle, func, arg, hasRun]
  · rw [none k] at first
    cases first
  · rw [none k] at filling
    cases filling
  · exact absurd stored (absurdity rfl)
  · exact absurd stored (absurdity rfl)
  · simp [func, arg]
  · rw [idle] at loaded
    cases loaded

omit [DecidableEq J] in
lemma handle (pending : s.pending = true) {handler : Handler F}
    {executed : List (F × Option A)}
    (fine : Fine { s with handler := handler, executed := executed })
    (loaded : ∀ func, handler = .loaded func → s.func = some func) :
    Inv task { s with handler := handler, executed := executed } :=
  ⟨fine, inv.alone, inv.empty, fun _ => pending, inv.func, inv.arg, inv.full, loaded⟩

lemma step (careful : s.Careful e) : Inv task (s.step task e) := by
  cases e with simp only [State.step]
  | load j =>
    split
    · rename_i here
      exact inv.fill here.2 (fun k _ => careful j rfl here.2 k) nofun nofun
    · exact inv
  | storeFunc j =>
    split
    · rename_i here
      obtain ⟨empty, -, others⟩ := inv.filler (j := j) (by rw [here]; rfl)
      exact inv.fill empty others (fun _ => rfl) nofun
    · exact inv
  | storeArg j =>
    split
    · rename_i here
      obtain ⟨empty, -, others⟩ := inv.filler (j := j) (by rw [here]; rfl)
      exact inv.fill empty others nofun fun _ => ⟨inv.func j here, rfl⟩
    · exact inv
  | storePending j =>
    split
    · exact inv.storePending ‹_›
    · exact inv
  | check =>
    split
    · rename_i idle
      split
      · rename_i pending
        refine inv.handle pending ?_ nofun
        have fine := inv.fine
        simp only [Fine, due, pending, idle, hasRun] at fine ⊢
        exact fine
      · exact inv
    · exact inv
  | loadFunc =>
    split
    · rename_i found
      have pending := inv.busy (by rw [found]; nofun)
      split
      · rename_i func stored
        refine inv.handle pending ?_ fun f loaded => ?_
        · have fine := inv.fine
          simp only [Fine, due, pending, found, hasRun] at fine ⊢
          exact fine
        · cases loaded
          exact stored
      · rename_i missing
        have full := (inv.full pending).1
        rw [missing] at full
        cases full
    · exact inv
  | run =>
    split
    · rename_i func loaded
      have pending := inv.busy (by rw [loaded]; nofun)
      refine inv.handle pending ?_ nofun
      have stored := inv.loaded func loaded
      obtain ⟨arg, given⟩ := Option.isSome_iff_exists.mp (inv.full pending).2
      have fine := inv.fine
      simp only [Fine, due, pending, loaded, stored, given, hasRun] at fine ⊢
      simpa using fine
    · exact inv
  | clear =>
    split
    · rename_i ran
      refine ⟨?_, inv.alone, fun _ _ => rfl, nofun, inv.func, inv.arg, nofun, nofun⟩
      have fine := inv.fine
      simp only [Fine, due, ran, hasRun] at fine ⊢
      simpa using fine
    · exact inv

end

end Inv

/-- Every task is run once and as it was sent, as long as no call finds the mailbox empty while another one
    fills it. -/
theorem tasks_delivered (es : List (Op J)) (careful : Along (step task) Careful start es) :
    Along (step task) (fun s e => (s.step task e).Fine) start es :=
  careful.imp (I := Inv task) (fun _ _ inv careful => (inv.step careful).fine)
    (fun _ _ inv careful => inv.step careful) Inv.start

/-- Two tasks one after the other. -/
theorem two_tasks_delivered : Along (step fun j : Fin 2 => (j.val, j.val + 7))
    (fun s e => (s.step (fun j : Fin 2 => (j.val, j.val + 7)) e).Fine) start
    [.load 0, .storeFunc 0, .storeArg 0, .storePending 0, .load 1, .check, .loadFunc, .run, .clear, .load 1,
      .storeFunc 1, .storeArg 1, .storePending 1, .check, .loadFunc, .run, .clear] :=
  tasks_delivered _ (by decide)

/-- Two calls find the mailbox empty, both return, and only the second task is run. -/
theorem task_lost : ∃ s : State (Fin 2) Nat Nat,
    s = [Op.load 0, .load 1, .storeFunc 0, .storeArg 0, .storePending 0, .storeFunc 1, .storeArg 1,
      .storePending 1, .check, .loadFunc, .run, .clear].foldl (step fun j => (j.val, j.val + 7)) start ∧
    s.sent = [(0, 7), (1, 8)] ∧ s.executed = [(1, some 8)] ∧ s.pending = false := by
  refine ⟨_, rfl, ?_⟩
  decide

end State

end Znu.Sync.Mailbox
