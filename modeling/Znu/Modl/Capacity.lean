import Znu.Modl.Table

/-! # Room in the table

Slots are handed out by a counter. A load raises it, a failure lowers it, and an unload leaves it as
it is. So the table fills up with modules that are gone; and a failure gives the last slot back, which
is not the slot of the module that failed if its init function has loaded another one.
-/

namespace Znu.Modl

open Lib Table List Modl.System Modl.Module

def Module.there (m : Module) : Bool := m.state != .unloaded

/-- The number of modules that are not unloaded. -/
def Table.standing (t : Table) : Nat := ((List.range maxModules).filter (t.has there)).length

/-- A slot in which at most the reference count has changed. -/
def SlotKept (t t' : Table) (k : Nat) : Prop :=
  ∃ r, t'.slots k = (t.slots k).map fun m => { m with refcount := m.refcount + r }

/-- The modules of these slots stay where they are, and `mod_find` still comes to them. -/
def Untouched (t t' : Table) (others : Nat → Prop) : Prop :=
  ∀ k, others k → t.has there k → SlotKept t t' k ∧ (k < t.modCount → k < t'.modCount)

section

variable (kernel : Text → Bool)

/-- A load finds a slot if there are fewer modules than slots, and neither a load nor a failure
    touches another module. -/
def RoomKept (y : System) : Op → Prop
  | .load i =>
    (y.table.standing < maxModules → y.table.modCount < maxModules) ∧
      Untouched y.table (y.step kernel (.load i)).table fun _ => True
  | .initReturns ok =>
    match y.calls with
    | .init s :: _ => Untouched y.table (y.step kernel (.initReturns ok)).table fun k => k ≠ s
    | _ => True
  | .unload _ => True
  | .exitReturns => True

end

/-- A load comes before the counter is at its end, or while all modules are there; a module that
    fails lies in the last slot, or the one in the last slot is gone. -/
def InTurn (y : System) : Op → Prop
  | .load _ => y.table.modCount < maxModules ∨ ∀ k < maxModules, y.table.has there k
  | .initReturns ok =>
    match y.calls with
    | .init s :: _ => ok ∨ y.table.modCount = s + 1 ∨ ¬y.table.has there (y.table.modCount - 1)
    | _ => True
  | .unload _ => True
  | .exitReturns => True

instance : ∀ y op, Decidable (InTurn y op)
  | y, .load _ =>
    inferInstanceAs (Decidable (y.table.modCount < maxModules ∨
      ∀ k < maxModules, y.table.has there k))
  | ⟨t, .init s :: _⟩, .initReturns ok =>
    inferInstanceAs (Decidable (ok ∨ t.modCount = s + 1 ∨ ¬t.has there (t.modCount - 1)))
  | ⟨_, .exit _ :: _⟩, .initReturns _ => .isTrue trivial
  | ⟨_, []⟩, .initReturns _ => .isTrue trivial
  | _, .unload _ => .isTrue trivial
  | _, .exitReturns => .isTrue trivial

/-- The slots of the modules whose init function has not returned. -/
def initSlots : List Call → List Nat
  | [] => []
  | .init s :: calls => s :: initSlots calls
  | .exit _ :: calls => initSlots calls

/-- What holds as long as everything is in turn. -/
structure Ordered (y : System) : Prop where
  room : y.table.modCount ≤ maxModules
  behind : ∀ k, y.table.modCount ≤ k → y.table.has there k = false
  nested : (initSlots y.calls).Pairwise (· > ·)
  inside : ∀ s ∈ initSlots y.calls, s < y.table.modCount

/-! ## What the functions do to a slot -/

variable {kernel : Text → Bool} {t t' u : Table} {y : System} {i : Image} {f : Nat → Int} {k s : Nat}

lemma SlotKept.refl : SlotKept t t k := by
  refine ⟨0, ?_⟩
  simp

lemma SlotKept.of_eq (same : t'.slots k = t.slots k) : SlotKept t t' k := by
  obtain ⟨r, kept⟩ := SlotKept.refl (t := t) (k := k)
  exact ⟨r, same.trans kept⟩

lemma SlotKept.trans (first : SlotKept t t' k) (second : SlotKept t' u k) : SlotKept t u k := by
  obtain ⟨r, first⟩ := first
  obtain ⟨r', second⟩ := second
  refine ⟨r + r', ?_⟩
  rw [second, first, Option.map_map]
  simp only [Function.comp_def, Int.add_assoc]

lemma SlotKept.there (kept : SlotKept t t' k) : t'.has there k = t.has there k := by
  obtain ⟨r, kept⟩ := kept
  rw [has, kept, Option.any_map]
  rfl

lemma slotKept_addRefs : SlotKept t (t.addRefs f) k := ⟨f k, rfl⟩

variable {calls : List Call} {g : Module → Module}

lemma slotKept_update (apart : k ≠ s) : SlotKept t (t.update s g) k :=
  .of_eq (Function.update_of_ne apart ..)

lemma slotKept_putDependencies (ds : List Text) : SlotKept t (putDependencies t ds) k := by
  rw [putDependencies_eq]
  exact slotKept_addRefs

lemma slotKept_failLoad (apart : k ≠ s) : SlotKept t (failLoad t s) k :=
  (slotKept_putDependencies _).trans (slotKept_update apart)

lemma slotKept_takeSlot (apart : k ≠ t.modCount) : SlotKept t (takeSlot t i) k :=
  .of_eq (Function.update_of_ne apart ..)

lemma slotKept_prepare (apart : k ≠ t.modCount) : SlotKept t (prepare kernel t i).1 k := by
  have taken : SlotKept t ((takeSlot t i).addRefs (counts (takenFor kernel t i))) k :=
    (slotKept_takeSlot apart).trans slotKept_addRefs
  rw [prepare_eq]
  split
  · exact taken.trans (slotKept_update apart)
  · exact taken.trans (slotKept_failLoad apart)

lemma there_update (k : Nat) (gone : ∀ m, m.there = false → (g m).there = false)
    (absent : t.has there k = false) : (t.update s g).has there k = false := by
  by_cases here : k = s
  · subst here
    cases held : t.slots k with
    | none => simp [has, update, held]
    | some m => simpa [has, update, held] using gone m (by simpa [has, held] using absent)
  · rwa [(slotKept_update here).there]

lemma there_update_self (gone : ∀ m, (g m).there = false) : (t.update s g).has there s = false := by
  cases held : t.slots s with
  | none => simp [has, update, held]
  | some m => simp [has, update, held, gone]

lemma there_failLoad : (failLoad t s).has there s = false := there_update_self fun _ => rfl

lemma modCount_putDependencies (ds : List Text) : (putDependencies t ds).modCount = t.modCount := by
  rw [putDependencies_eq]
  rfl

lemma modCount_failLoad : (failLoad t s).modCount = t.modCount - 1 :=
  congrArg (· - 1) (modCount_putDependencies _)

lemma modCount_prepare (kernel : Text → Bool) (t : Table) (i : Image) : (prepare kernel t i).1.modCount =
    if (prepare kernel t i).2 then t.modCount + 1 else t.modCount := by
  rw [prepare_eq]
  split
  · rfl
  · exact modCount_failLoad

lemma there_prepare (failed : (prepare kernel t i).2 = false) :
    (prepare kernel t i).1.has there t.modCount = false := by
  rw [prepare_eq] at failed ⊢
  split
  · simp_all
  · exact there_failLoad

/-! ## One step -/

lemma standing_lt : t.standing < maxModules ↔ ¬∀ k < maxModules, t.has there k := by
  have bound : t.standing ≤ maxModules := by
    simpa [standing] using length_filter_le (t.has there) (range maxModules)
  have full : t.standing = maxModules ↔ ∀ k < maxModules, t.has there k := by
    have all := length_filter_eq_length_iff (l := range maxModules) (p := t.has there)
    simpa [standing] using all
  rw [← full]
  omega

lemma Ordered.load_untouched (ordered : Ordered y) :
    Untouched y.table (y.step kernel (.load i)).table fun _ => True := by
  intro k _ there
  rw [step]
  split
  · exact ⟨.refl, id⟩
  have apart : k ≠ y.table.modCount := by
    rintro rfl
    simp [ordered.behind _ (Nat.le_refl _)] at there
  have kept : SlotKept y.table (prepare kernel y.table i).1 k := slotKept_prepare apart
  have counted := modCount_prepare kernel y.table i
  dsimp only
  split
  · rename_i prepared
    refine ⟨kept, fun inside => ?_⟩
    rw [counted, if_pos prepared]
    omega
  rename_i failed
  refine ⟨kept, fun inside => ?_⟩
  rwa [counted, if_neg failed]

lemma slotKept_fail (apart : k ≠ s) : SlotKept t (failLoad (t.setState s .going) s) k :=
  (slotKept_update apart).trans (slotKept_failLoad apart)

lemma modCount_fail : (failLoad (t.setState s .going) s).modCount = t.modCount - 1 := modCount_failLoad

/-- A failure hides the module of the last slot. -/
lemma fail_untouched_iff (inside : s < t.modCount) :
    (Untouched t (failLoad (t.setState s .going) s) fun k => k ≠ s) ↔
      t.modCount = s + 1 ∨ ¬t.has there (t.modCount - 1) := by
  constructor
  · intro untouched
    by_contra other
    obtain ⟨later, there⟩ := not_or.mp other
    have shown := (untouched (t.modCount - 1) (by omega) (not_not.mp there)).2 (by omega)
    rw [modCount_fail] at shown
    omega
  · intro inTurn k apart there
    refine ⟨slotKept_fail apart, fun below => ?_⟩
    rw [modCount_fail]
    by_cases last : k = t.modCount - 1
    · subst last
      cases inTurn with
      | inl own => omega
      | inr gone => exact absurd there gone
    · omega

section

variable (ordered : Ordered y)

include ordered

lemma Ordered.roomKept_iff (op : Op) : RoomKept kernel y op ↔ InTurn y op := by
  cases op with
  | load i =>
    have untouched : Untouched y.table (y.step kernel (.load i)).table fun _ => True :=
      ordered.load_untouched
    simp only [RoomKept, InTurn, untouched, and_true, standing_lt]
    tauto
  | initReturns ok =>
    obtain ⟨t, calls⟩ := y
    cases calls with
    | nil => exact Iff.rfl
    | cons call calls =>
      cases call with
      | exit k => exact Iff.rfl
      | init s =>
        cases ok with
        | true =>
          simp only [RoomKept, InTurn, true_or, iff_true]
          exact fun k apart _ => ⟨slotKept_update apart, id⟩
        | false =>
          simp only [RoomKept, InTurn, Bool.false_eq_true, false_or]
          exact fail_untouched_iff (ordered.inside s (by simp [initSlots]))
  | unload _ | exitReturns => exact Iff.rfl

lemma Ordered.load : Ordered (y.step kernel (.load i)) := by
  rw [step]
  split
  · exact ordered
  rename_i free
  have counted := modCount_prepare kernel y.table i
  have behind : ∀ k, y.table.modCount < k → (prepare kernel y.table i).1.has there k = false := by
    intro k later
    rw [(slotKept_prepare (by omega)).there]
    exact ordered.behind k (by omega)
  dsimp only
  split
  · rename_i prepared
    rw [if_pos prepared] at counted
    exact {
      room := by dsimp only; omega
      behind := fun k later => behind k (by dsimp only at later; omega)
      nested := pairwise_cons.mpr ⟨ordered.inside, ordered.nested⟩
      inside := by
        intro s member
        dsimp only
        cases mem_cons.mp member with
        | inl own => omega
        | inr outer => have := ordered.inside s outer; omega }
  rename_i failed
  rw [if_neg failed] at counted
  exact {
    room := by dsimp only; omega
    behind := by
      intro k later
      dsimp only at later
      by_cases own : k = y.table.modCount
      · subst own
        exact there_prepare (by simpa using failed)
      · exact behind k (by omega)
    nested := ordered.nested
    inside := fun s member => by
      have := ordered.inside s member
      dsimp only
      omega }

omit ordered in
lemma Ordered.initSucceeds (ordered : Ordered ⟨t, .init s :: calls⟩) :
    Ordered ⟨t.setState s .live, calls⟩ where
  room := ordered.room
  behind := by
    intro k later
    have own : s < t.modCount := ordered.inside s (by simp [initSlots])
    have apart : k ≠ s := by
      have later : t.modCount ≤ k := later
      omega
    exact (slotKept_update apart).there.trans (ordered.behind k later)
  nested := (pairwise_cons.mp ordered.nested).2
  inside := fun j member => ordered.inside j (by simp [initSlots, member])

omit ordered in
lemma Ordered.initFails (ordered : Ordered ⟨t, .init s :: calls⟩)
    (inTurn : t.modCount = s + 1 ∨ ¬t.has there (t.modCount - 1)) :
    Ordered ⟨failLoad (t.setState s .going) s, calls⟩ := by
  obtain ⟨outer, nested⟩ := pairwise_cons.mp ordered.nested
  have own : s < t.modCount := ordered.inside s (by simp [initSlots])
  have counted : (failLoad (t.setState s .going) s).modCount = t.modCount - 1 := modCount_fail
  have room : t.modCount ≤ maxModules := ordered.room
  exact {
    room := by
      dsimp only
      omega
    behind := by
      intro k later
      dsimp only at later ⊢
      by_cases failed : k = s
      · subst failed
        exact there_failLoad
      rw [(slotKept_fail failed).there]
      by_cases last : k = t.modCount - 1
      · subst last
        cases inTurn with
        | inl only => omega
        | inr gone => simpa using gone
      · exact ordered.behind k (by dsimp only; omega)
    nested := nested
    inside := by
      intro j member
      have := outer j member
      dsimp only
      omega }

lemma Ordered.initReturns {ok : Bool} (inTurn : InTurn y (.initReturns ok)) :
    Ordered (y.step kernel (.initReturns ok)) := by
  obtain ⟨t, calls⟩ := y
  cases calls with
  | nil => exact ordered
  | cons call calls =>
    cases call with
    | exit k => exact ordered
    | init s =>
      cases ok with
      | true => exact ordered.initSucceeds
      | false => exact ordered.initFails (by simpa [InTurn] using inTurn)

lemma Ordered.unload (k : Nat) : Ordered (y.step kernel (.unload k)) := by
  rw [step]
  split
  · exact ordered
  rename_i m held
  split
  · exact ordered
  rename_i loaded
  split
  · exact ordered
  exact {
    room := ordered.room
    behind := fun j later => by
      have gone := ordered.behind j later
      have apart : j ≠ k := by
        rintro rfl
        simp [has, held, there, loaded] at gone
      exact (slotKept_update apart).there.trans gone
    nested := ordered.nested
    inside := ordered.inside }

lemma Ordered.exitReturns : Ordered (y.step kernel .exitReturns) := by
  obtain ⟨t, calls⟩ := y
  cases calls with
  | nil => exact ordered
  | cons call calls =>
    cases call with
    | init s => exact ordered
    | exit k =>
      have counted := modCount_putDependencies (t := t) ((t.slots k).elim [] depends)
      exact {
        room := counted.trans_le ordered.room
        behind := fun j later => by
          apply there_update j (fun _ _ => rfl)
          have before := ordered.behind j (counted.symm.trans_le later)
          exact (slotKept_putDependencies _).there.trans before
        nested := ordered.nested
        inside := fun s member => (ordered.inside s member).trans_eq counted.symm }

lemma Ordered.step {op : Op} (inTurn : InTurn y op) : Ordered (y.step kernel op) := by
  cases op with
  | load i => exact ordered.load
  | initReturns ok => exact ordered.initReturns inTurn
  | unload k => exact ordered.unload k
  | exitReturns => exact ordered.exitReturns

end

lemma ordered_boot : Ordered boot where
  room := by simp [boot]
  behind := fun _ _ => rfl
  nested := .nil
  inside := by simp [boot, initSlots]

/-! ## Runs -/

/-- Loads find a slot and leave the other modules alone just as long as no load comes after sixteen
    slots have been handed out and one of the modules is gone again, and no module fails while the
    last slot belongs to another one. -/
theorem room_kept_iff (kernel : Text → Bool) (ops : List Op) :
    Along (step kernel) (RoomKept kernel) boot ops ↔ Along (step kernel) InTurn boot ops :=
  Along.congr_inv (I := Ordered) (fun _ op ordered => ordered.roomKept_iff op)
    (fun _ _ ordered inTurn => ordered.step inTurn) ordered_boot

def plain : Image where
  name := [97]
  listed := []
  relocs := []
  exports := []

/-- A module is loaded and unloaded sixteen times. -/
def reloads : List Op :=
  (List.range 16).flatMap fun k => [.load plain, .initReturns true, .unload k, .exitReturns]

/-- An init function loads another module. -/
def nestedLoad : List Op := [.load plain, .load plain, .initReturns true]

example : Along (step fun _ => false) InTurn boot (nestedLoad ++ [.initReturns true]) := by decide

/-- The table is full with no module in it; and an init function that fails takes the slot of the
    module it has loaded. -/
theorem room_not_kept :
    ¬Along (step fun _ => false) (RoomKept fun _ => false) boot (reloads ++ [.load plain]) ∧
      ¬Along (step fun _ => false) (RoomKept fun _ => false) boot
        (nestedLoad ++ [.initReturns false]) := by
  constructor
  · intro kept
    have found := kept.last.1
    revert found
    decide +kernel
  · intro kept
    have shown := (kept.last 1 (by decide) (by decide)).2 (by decide)
    revert shown
    decide

end Znu.Modl
