import Znu.Modl.Accounts

/-! # Who refers to whom

The reference count of a module is meant to be one more than the number of modules that use it: that
list it in `depends=`, or have a relocation resolved to one of its exports. The loader does not keep
what it would need for that. It takes a reference at every relocation and gives back only those of
the names it has kept, and a load that fails gives back references it has not taken.
-/

namespace Znu.Modl

open Lib List Modl.Module Modl.System Table Ledger Nat Int

structure Tracked where
  system : System
  ledger : Ledger

/-- The counts of all live modules are right, with these users. -/
def Counted (t : Table) (l : Ledger) (p : Module → Bool) : Prop :=
  ∀ k m, t.slots k = some m → m.isLive → m.refcount = 1 + (users t l p k).card

/-- All modules that are not unloaded stay as they are in all slots but one, apart from so many
    references. -/
def ChangedBy (t t' : Table) (s : Nat) (f : Nat → Int) : Prop :=
  ∀ k m, k ≠ s → t.slots k = some m → m.there →
    t'.slots k = some { m with refcount := m.refcount + f k }

section

variable (kernel : Text → Bool)

def Tracked.step (g : Tracked) (op : Op) : Tracked where
  system := g.system.step kernel op
  ledger :=
    match op with
    | .load i =>
      if maxModules ≤ g.system.table.modCount then g.ledger else
      g.ledger.record g.system.table.modCount i.listed (importsOf kernel g.system.table i)
    | _ => g.ledger

/-- After the step each count is right: the users are the modules that are not unloaded, and when no
    init or exit function is being called, these are the live ones. A load that comes to its init
    function has found all it lists and has taken one reference to each module it uses; one that fails
    leaves the counts of the others as they were before it. A live module can be unloaded if and only
    if it has no user. -/
def Right (g : Tracked) (op : Op) : Prop :=
  let t := g.system.table
  let l := g.ledger
  let t' := (g.step kernel op).system.table
  let l' := (g.step kernel op).ledger
  Counted t' l' there ∧ ((g.step kernel op).system.calls = [] → Counted t' l' isLive) ∧
    match op with
    | .load i =>
      t.modCount < maxModules →
        if prepares kernel t i then
          (∀ d ∈ i.listed, LiveNamed t d) ∧
            ChangedBy t t' t.modCount fun k => if Uses t' l' t.modCount k then 1 else 0
        else ChangedBy t t' t.modCount fun _ => 0
    | .initReturns ok =>
      match g.system.calls with
      | .init s :: _ =>
        if ok then ∀ d ∈ l.listed s, LiveNamed t d
        else ChangedBy t t' s fun k => -if Uses t l s k then 1 else 0
      | _ => True
    | .unload k =>
      t.live k →
        (t'.live k = false ↔ users t l there k = ∅) ∧
          (g.system.calls = [] → (t'.live k = false ↔ users t l isLive k = ∅))
    | .exitReturns => True

/-- An image lists few names, each short and only once, and no module has its name. If it can be
    loaded, its relocations are resolved to different modules, and to none it lists. If not, none of
    them has been resolved to a module, and from the first name on that is not live none is found. -/
def CarefulLoad (t : Table) (i : Image) : Prop :=
  i.listed.length ≤ 4 ∧ (∀ d ∈ i.listed, d.length < 64) ∧ i.listed.Nodup ∧ modFind t i.name = none ∧
    if prepares kernel t i then
      (importsOf kernel t i).Nodup ∧ ∀ k ∈ importsOf kernel t i, t.has (fun m => !i.listed.contains m.name) k
    else
      importsOf kernel t i = [] ∧
        ∀ d ∈ i.listed.dropWhile fun d => (modFind t d).any t.live, modFind t d = none

/-- The loads are careful. A module that fails, or is unloaded, has not imported anything. One that
    fails lies in the last slot, or the one in the last slot is gone. Only live modules are
    unloaded. -/
def Careful (g : Tracked) : Op → Prop
  | .load i => g.system.table.modCount < maxModules → CarefulLoad kernel g.system.table i
  | .initReturns ok =>
    match g.system.calls with
    | .init s :: _ => ok ∨ g.ledger.imports s = [] ∧ InTurn g.system (.initReturns false)
    | _ => True
  | .unload k =>
    g.system.table.has (fun m => m.there && m.refcount ≤ 1) k →
      g.system.table.live k ∧ g.ledger.imports k = []
  | .exitReturns => True

instance (t : Table) (i : Image) : Decidable (CarefulLoad kernel t i) :=
  inferInstanceAs (Decidable (_ ∧ _ ∧ _ ∧ _ ∧ ite _ _ _))

instance : ∀ g op, Decidable (Careful kernel g op)
  | g, .load i =>
    inferInstanceAs (Decidable (g.system.table.modCount < maxModules → CarefulLoad kernel g.system.table i))
  | ⟨⟨t, .init s :: calls⟩, l⟩, .initReturns ok =>
    inferInstanceAs (Decidable (ok ∨ l.imports s = [] ∧ InTurn ⟨t, .init s :: calls⟩ (.initReturns false)))
  | ⟨⟨_, .exit _ :: _⟩, _⟩, .initReturns _ => .isTrue trivial
  | ⟨⟨_, []⟩, _⟩, .initReturns _ => .isTrue trivial
  | g, .unload k =>
    inferInstanceAs (Decidable (g.system.table.has (fun m => m.there && m.refcount ≤ 1) k →
      g.system.table.live k ∧ g.ledger.imports k = []))
  | _, .exitReturns => .isTrue trivial

end

variable {kernel : Text → Bool} {t t' : Table} {l l' : Ledger} {i : Image} {f : Nat → Int} {k s : Nat}
  {g : Tracked}

lemma Moved.changedBy (moved : Moved t t' s f) : ChangedBy t t' s f := by
  intro k m apart held _
  rw [moved k apart, held]
  rfl

lemma Moved.changedBy_of_eq {g : Nat → Int} (moved : Moved t t' s f)
    (same : ∀ k, k ≠ s → t.has there k → f k = g k) : ChangedBy t t' s g := by
  intro k m apart held there
  rw [moved.changedBy k m apart held there, same k apart ((has_of_slot held).trans there)]

/-! ## Calls that have not returned -/

def exitSlots : List Call → List Nat
  | [] => []
  | .exit s :: calls => s :: exitSlots calls
  | .init _ :: calls => exitSlots calls

/-- The modules that are neither live nor unloaded are those with a call that has not returned. -/
structure Pending (t : Table) (l : Ledger) (calls : List Call) : Prop where
  loading : ∀ k ∈ initSlots calls, t.has (fun m => m.state == .loading) k
  going : ∀ k ∈ exitSlots calls, t.has (fun m => m.state == .going) k ∧ l.imports k = []
  apart : (exitSlots calls).Nodup
  quiet : ∀ k, t.has there k → t.live k ∨ k ∈ initSlots calls ∨ k ∈ exitSlots calls

variable {calls calls' : List Call} {m : Module}

/-- Only one slot changes its state, and calls only come and go for this slot. -/
lemma Pending.replace (pending : Pending t l calls)
    (moved : Moved t t' s f) (imports : ∀ k, k ≠ s → l'.imports k = l.imports k)
    (inits : ∀ k, k ≠ s → (k ∈ initSlots calls' ↔ k ∈ initSlots calls))
    (exits : ∀ k, k ≠ s → (k ∈ exitSlots calls' ↔ k ∈ exitSlots calls))
    (apart : (exitSlots calls').Nodup)
    (loading : s ∈ initSlots calls' → t'.has (fun m => m.state == .loading) s)
    (going : s ∈ exitSlots calls' → t'.has (fun m => m.state == .going) s ∧ l'.imports s = [])
    (quiet : t'.has there s → t'.live s ∨ s ∈ initSlots calls' ∨ s ∈ exitSlots calls') :
    Pending t' l' calls' where
  loading := by
    intro k member
    by_cases own : k = s
    · subst own
      exact loading member
    · rw [moved.has own fun _ _ => rfl]
      exact pending.loading k ((inits k own).mp member)
  going := by
    intro k member
    by_cases own : k = s
    · subst own
      exact going member
    · rw [moved.has own fun _ _ => rfl, imports k own]
      exact pending.going k ((exits k own).mp member)
  apart := apart
  quiet := by
    intro k there
    by_cases own : k = s
    · subst own
      exact quiet there
    rw [live, moved.has own fun _ _ => rfl, inits k own, exits k own]
    rw [moved.has own fun _ _ => rfl] at there
    exact pending.quiet k there

/-- What holds as long as all steps are careful. -/
structure Tidy (g : Tracked) : Prop where
  ordered : Ordered g.system
  accounted : Accounted g.system.table g.ledger
  pending : Pending g.system.table g.ledger g.system.calls

lemma Tidy.counted (tidy : Tidy g) : Counted g.system.table g.ledger there := by
  intro k m held live
  exact tidy.accounted.counted k m held (by simp_all [isLive, there])

lemma Tidy.users_live (tidy : Tidy g) (idle : g.system.calls = []) (k : Nat) :
    users g.system.table g.ledger isLive k = users g.system.table g.ledger there k := by
  apply Finset.filter_congr
  intro j _
  have live : g.system.table.has isLive j ↔ g.system.table.has there j := by
    constructor
    · exact there_of_live
    · intro there
      have quiet := tidy.pending.quiet j there
      simp only [idle, initSlots, exitSlots, not_mem_nil, or_false] at quiet
      exact quiet
  rw [live]

lemma Tidy.counted_live (tidy : Tidy g) (idle : g.system.calls = []) :
    Counted g.system.table g.ledger isLive := by
  intro k m held live
  rw [tidy.users_live idle]
  exact tidy.counted k m held live

/-! ## Loads -/

lemma depends_eq (few : i.listed.length ≤ 4) (short : ∀ d ∈ i.listed, d.length < 64) :
    i.depends = i.listed := by
  rw [Image.depends, filter_eq_self.mpr (by simpa using short), take_of_length_le few]

lemma liveNamed_of_found {d : Text} (live : (modFind t d).any t.live) : LiveNamed t d := by
  cases found : modFind t d with
  | none => simp [found] at live
  | some k => exact LiveNamed.iff.mpr ⟨k, by simpa [found] using live, (modFind_some found).2⟩

lemma dependenciesLive_of_prepares (careful : CarefulLoad kernel t i) (prepared : prepares kernel t i) :
    dependenciesLive t i.listed := by
  simp only [prepares, Bool.and_eq_true, dependenciesLive_takeSlot] at prepared
  rw [← depends_eq careful.1 careful.2.1]
  exact prepared.1

/-- A load takes one reference to each module it uses. -/
lemma counts_takenFor (accounted : Accounted t l) (careful : CarefulLoad kernel t i)
    (prepared : prepares kernel t i) (there : t.has there k) :
    counts (takenFor kernel t i) k =
      if Uses t (l.record t.modCount i.listed (importsOf kernel t i)) t.modCount k then 1 else 0 := by
  have live := dependenciesLive_of_prepares careful prepared
  obtain ⟨few, short, nodup, -, rest⟩ := careful
  rw [if_pos prepared] at rest
  have found := counts_found accounted.distinct accounted.behind nodup there
  have imported : counts (importsOf kernel t i) k = if k ∈ importsOf kernel t i then 1 else 0 := by
    rw [counts, rest.1.count]
    split
    · rfl
    · rfl
  rw [takenFor_eq, depends_eq few short, takenDependencies_of_live live, ← counts_append]
  dsimp only
  rw [found, imported]
  simp only [Uses, record, Function.update_self]
  by_cases member : k ∈ importsOf kernel t i
  · obtain ⟨m, held, unlisted⟩ := has_iff.mp (rest.2 k member)
    simp_all [has_of_slot held]
  · simp [member]

lemma counts_failed (careful : CarefulLoad kernel t i) (failed : prepares kernel t i = false)
    (apart : k ≠ t.modCount) :
    counts (takenFor kernel t i) k - counts (i.depends.filterMap (modFind (takeSlot t i))) k = 0 := by
  obtain ⟨few, short, -, -, rest⟩ := careful
  rw [failed, if_neg Bool.false_ne_true] at rest
  rw [takenFor_eq, rest.1, append_nil, counts_found_takeSlot _ apart, depends_eq few short,
    takenDependencies_of_missing rest.2, sub_self]

lemma Tidy.idle (tidy : Tidy g) : g.system.table.live g.system.table.modCount = false := by
  cases live : g.system.table.live g.system.table.modCount with
  | false => rfl
  | true =>
    have gone := tidy.ordered.behind _ (le_refl g.system.table.modCount)
    simp [there_of_live live] at gone

lemma exitSlots_there (pending : Pending t l calls) (member : k ∈ exitSlots calls) : t.has there k := by
  obtain ⟨m, held, going⟩ := has_iff.mp (pending.going k member).1
  exact has_iff.mpr ⟨m, held, by simp_all [there]⟩

lemma initSlots_there (pending : Pending t l calls) (member : k ∈ initSlots calls) : t.has there k := by
  obtain ⟨m, held, loading⟩ := has_iff.mp (pending.loading k member)
  exact has_iff.mpr ⟨m, held, by simp_all [there]⟩

lemma prepare_snd : (prepare kernel t i).2 = prepares kernel t i := by
  rw [prepare_eq]
  split
  · simp_all
  · simp_all

lemma step_full (full : maxModules ≤ g.system.table.modCount) : g.step kernel (.load i) = g := by
  simp [Tracked.step, step, full]

lemma step_prepared (room : g.system.table.modCount < maxModules)
    (prepared : prepares kernel g.system.table i) :
    g.step kernel (.load i) =
      ⟨⟨(prepare kernel g.system.table i).1, .init g.system.table.modCount :: g.system.calls⟩,
        g.ledger.record g.system.table.modCount i.listed (importsOf kernel g.system.table i)⟩ := by
  simp [Tracked.step, step, room.not_ge, prepare_snd, prepared]

lemma step_failed (room : g.system.table.modCount < maxModules)
    (failed : prepares kernel g.system.table i = false) :
    g.step kernel (.load i) =
      ⟨⟨(prepare kernel g.system.table i).1, g.system.calls⟩,
        g.ledger.record g.system.table.modCount i.listed (importsOf kernel g.system.table i)⟩ := by
  simp [Tracked.step, step, room.not_ge, prepare_snd, failed]

lemma opened_prepared (accounted : Accounted t l) (careful : CarefulLoad kernel t i)
    (prepared : prepares kernel t i) (held : (prepare kernel t i).1.slots t.modCount = some m) :
    Opened t (l.record t.modCount i.listed (importsOf kernel t i)) t.modCount m := by
  have live := dependenciesLive_of_prepares careful prepared
  have untaken : counts (takenFor kernel t i) t.modCount = 0 := by
    rw [takenFor_eq, counts, natCast_eq_zero, count_eq_zero]
    intro taken
    cases mem_append.mp taken with
    | inl dependency =>
      rw [takenDependencies_eq] at dependency
      obtain ⟨d, -, found⟩ := mem_filterMap.mp dependency
      exact absurd (modFind_some found).1 (lt_irrefl _)
    | inr imported => exact (importsOf_live imported).1 rfl
  rw [slots_prepared prepared, untaken, Option.some_inj] at held
  subst held
  obtain ⟨few, short, nodup, free, -⟩ := careful
  exact {
    alone := by
      intro k
      cases named : t.named i.name k with
      | false => rfl
      | true => simp [modFind_of_named accounted.distinct accounted.behind named] at free
    kept := by simp [record, depends_eq few short]
    nodup := by simpa [record] using nodup
    names := by
      intro d listed
      simp only [record, Function.update_self] at listed
      exact liveNamed_of_found (all_eq_true.mp live d listed)
    imports := by
      intro j imported
      simp only [record, Function.update_self] at imported
      exact (importsOf_live imported).2
    one := rfl }

lemma Tidy.prepared (tidy : Tidy g) (room : g.system.table.modCount < maxModules)
    (careful : CarefulLoad kernel g.system.table i) (prepared : prepares kernel g.system.table i) :
    Tidy (g.step kernel (.load i)) := by
  have ordered : Ordered (g.step kernel (.load i)).system := tidy.ordered.load
  have absent := tidy.ordered.behind _ (le_refl g.system.table.modCount)
  have moved := moved_prepared prepared
  have held := slots_prepared prepared
  rw [step_prepared room prepared] at ordered ⊢
  exact {
    ordered := ordered
    accounted := by
      apply tidy.accounted.replace moved room tidy.idle
      · intro k apart
        simp [record, apart]
      · exact ordered.room
      · exact ordered.behind
      · exact fun m held _ => ⟨absent, opened_prepared tidy.accounted careful prepared held⟩
      · intro k _ there
        rw [counts_takenFor tidy.accounted careful prepared there, absent]
        simp [has_of_slot held, Module.there]
    pending := by
      apply tidy.pending.replace moved
      · intro k apart
        simp [record, apart]
      · intro k apart
        simp [initSlots, apart]
      · exact fun k _ => Iff.rfl
      · exact tidy.pending.apart
      · intro _
        rw [has_of_slot held]
        rfl
      · intro member
        simp [exitSlots_there tidy.pending member] at absent
      · simp [initSlots] }

lemma Tidy.failed (tidy : Tidy g) (room : g.system.table.modCount < maxModules)
    (careful : CarefulLoad kernel g.system.table i) (failed : prepares kernel g.system.table i = false) :
    Tidy (g.step kernel (.load i)) := by
  have ordered : Ordered (g.step kernel (.load i)).system := tidy.ordered.load
  have absent := tidy.ordered.behind _ (le_refl g.system.table.modCount)
  have gone := there_prepare (prepare_snd.trans failed)
  have moved := moved_failed failed
  rw [step_failed room failed] at ordered ⊢
  exact {
    ordered := ordered
    accounted := by
      apply tidy.accounted.replace moved room tidy.idle
      · intro k apart
        simp [record, apart]
      · exact ordered.room
      · exact ordered.behind
      · intro m held there
        simp [has_of_slot held, there] at gone
      · intro k apart _
        rw [counts_failed careful failed apart]
        simp [absent, gone]
    pending := by
      apply tidy.pending.replace moved
      · intro k apart
        simp [record, apart]
      · exact fun k _ => Iff.rfl
      · exact fun k _ => Iff.rfl
      · exact tidy.pending.apart
      · intro member
        simp [initSlots_there tidy.pending member] at absent
      · intro member
        simp [exitSlots_there tidy.pending member] at absent
      · intro there
        simp [gone] at there }

/-! ## Modules that come and go -/

/-- A module that has imported nothing gives back one reference to each module it uses. -/
lemma counts_released (accounted : Accounted t l) (held : t.has there s) (none : l.imports s = [])
    (there : t.has there k) :
    counts ((dependsOf t s).filterMap (modFind t)) k = if Uses t l s k then 1 else 0 := by
  have depends : dependsOf t s = l.listed s := by
    obtain ⟨m, slot, standing⟩ := has_iff.mp held
    rw [dependsOf, slot]
    exact accounted.kept s m slot standing
  rw [depends, counts_found accounted.distinct accounted.behind (accounted.nodup s held) there]
  simp [Uses, none]

variable {op : Op} {state : ModState}

lemma modFind_setState (held : t.slots s = some m) (there : m.there)
    (after : state ≠ .unloaded) : modFind (t.setState s state) = modFind t := by
  have same : ∀ name, (t.setState s state).named name = t.named name := by
    intro name
    funext k
    apply has_setState held
    rw [there, Module.there, bne_iff_ne.mpr after]
  funext name
  exact congrArg (find? · _) (same name)

lemma dependsOf_setState : dependsOf (t.setState s state) s = dependsOf t s := by
  cases held : t.slots s with
  | none | some _ => simp [dependsOf, setState, update, held]

/-- The slot at the top of the calls of init functions. -/
lemma Pending.top_loading (pending : Pending t l (.init s :: calls)) :
    ∃ m, t.slots s = some m ∧ m.state = .loading := by
  obtain ⟨m, held, loading⟩ := has_iff.mp (pending.loading s (by simp [initSlots]))
  exact ⟨m, held, by simpa using loading⟩

lemma Pending.top_going (pending : Pending t l (.exit s :: calls)) :
    (∃ m, t.slots s = some m ∧ m.state = .going) ∧ l.imports s = [] := by
  obtain ⟨going, none⟩ := pending.going s (by simp [exitSlots])
  obtain ⟨m, held, going⟩ := has_iff.mp going
  exact ⟨⟨m, held, by simpa using going⟩, none⟩

lemma Pending.loading_not_going (pending : Pending t l calls) (held : t.slots s = some m)
    (loading : m.state ≠ .going) : s ∉ exitSlots calls := by
  intro member
  have going := (pending.going s member).1
  simp [has_of_slot held, loading] at going

lemma Pending.going_not_loading (pending : Pending t l calls) (held : t.slots s = some m)
    (going : m.state ≠ .loading) : s ∉ initSlots calls := by
  intro member
  have loading := pending.loading s member
  simp [has_of_slot held, going] at loading

section

variable (tidy : Tidy ⟨⟨t, .init s :: calls⟩, l⟩)

include tidy

/-- What stays pending when an init function returns. -/
lemma Tidy.pending_rest (moved : Moved t t' s f) (quiet : t'.has there s → t'.live s) :
    Pending t' l calls := by
  obtain ⟨m, held, loading⟩ := tidy.pending.top_loading
  have outer := (pairwise_cons.mp tidy.ordered.nested).1
  apply tidy.pending.replace moved
  · exact fun k _ => rfl
  · intro k apart
    simp [initSlots, apart]
  · exact fun k _ => Iff.rfl
  · exact tidy.pending.apart
  · exact fun member => absurd (outer s member) (lt_irrefl s)
  · exact fun member => absurd member (tidy.pending.loading_not_going held (by simp [loading]))
  · exact fun there => .inl (quiet there)

lemma Tidy.initSucceeds : Tidy ⟨⟨t.setState s .live, calls⟩, l⟩ := by
  have top : ∃ m, t.slots s = some m ∧ m.state = .loading := tidy.pending.top_loading
  obtain ⟨m, held, loading⟩ := top
  exact {
    ordered := tidy.ordered.initSucceeds
    accounted := tidy.accounted.setState held (by simp [there, loading]) (by simp) (.inl rfl)
    pending := tidy.pending_rest moved_update fun _ => by simp [live, has, setState, update, held] }

lemma moved_initFails :
    Moved t (failLoad (t.setState s .going) s) s fun k =>
      -counts ((dependsOf t s).filterMap (modFind t)) k := by
  obtain ⟨m, held, loading⟩ := tidy.pending.top_loading
  have fail := moved_failLoad (t := t.setState s .going) (s := s)
  rw [dependsOf_setState, modFind_setState held (by simp [there, loading]) (by simp)] at fail
  exact (moved_update.trans fail).congr fun k => zero_add _

lemma Tidy.initFails (none : l.imports s = [])
    (inTurn : InTurn ⟨t, .init s :: calls⟩ (.initReturns false)) :
    Tidy ⟨⟨failLoad (t.setState s .going) s, calls⟩, l⟩ := by
  have ordered : Ordered ⟨failLoad (t.setState s .going) s, calls⟩ :=
    tidy.ordered.initFails (by simpa [InTurn] using inTurn)
  obtain ⟨m, held, loading⟩ := tidy.pending.top_loading
  have there : t.has there s := by simp [has_of_slot held, there, loading]
  have gone : (failLoad (t.setState s .going) s).has Module.there s = false := there_failLoad
  exact {
    ordered := ordered
    accounted := by
      apply tidy.accounted.replace (moved_initFails tidy) (tidy.accounted.inside there)
      · simp [live, has_of_slot held, loading]
      · exact fun k _ => ⟨rfl, rfl⟩
      · exact ordered.room
      · exact ordered.behind
      · intro m held there
        simp [has_of_slot held, there] at gone
      · intro k _ standing
        rw [counts_released tidy.accounted there none standing]
        simp [gone, there]
    pending := tidy.pending_rest (moved_initFails tidy) fun there => by simp [gone] at there }

end

/-- The table after an exit function has returned. -/
def afterExit (t : Table) (s : Nat) : Table :=
  (putDependencies t (dependsOf t s)).update s fun m => { m with state := .unloaded, refcount := 0 }

lemma moved_afterExit :
    Moved t (afterExit t s) s fun k => -counts ((dependsOf t s).filterMap (modFind t)) k := by
  have put : Moved t (putDependencies t (dependsOf t s)) s _ := moved_putDependencies (dependsOf t s)
  exact (put.trans moved_update).congr fun k => add_zero _

lemma Tidy.exits (tidy : Tidy ⟨⟨t, .exit s :: calls⟩, l⟩) : Tidy ⟨⟨afterExit t s, calls⟩, l⟩ := by
  have ordered : Ordered (step (fun _ => false) ⟨t, .exit s :: calls⟩ .exitReturns) :=
    tidy.ordered.exitReturns
  have top : (∃ m, t.slots s = some m ∧ m.state = .going) ∧ l.imports s = [] := tidy.pending.top_going
  obtain ⟨⟨m, held, going⟩, none⟩ := top
  have there : t.has there s := by simp [has_of_slot held, there, going]
  have gone : (afterExit t s).has Module.there s = false := there_update_self fun _ => rfl
  obtain ⟨other, apart⟩ := nodup_cons.mp tidy.pending.apart
  exact {
    ordered := ordered
    accounted := by
      apply tidy.accounted.replace moved_afterExit (tidy.accounted.inside there)
      · simp [live, has_of_slot held, going]
      · exact fun k _ => ⟨rfl, rfl⟩
      · exact ordered.room
      · exact ordered.behind
      · intro m held there
        simp [has_of_slot held, there] at gone
      · intro k _ standing
        rw [counts_released tidy.accounted there none standing]
        simp [gone, there]
    pending := by
      apply tidy.pending.replace moved_afterExit
      · exact fun k _ => rfl
      · exact fun k _ => Iff.rfl
      · intro k apart
        simp [exitSlots, apart]
      · exact apart
      · exact fun member => absurd member (tidy.pending.going_not_loading held (by simp [going]))
      · exact fun member => absurd member other
      · intro there
        simp [gone] at there }

section

variable (tidy : Tidy g)

include tidy

/-- A module can be unloaded if and only if nobody uses it. -/
lemma Tidy.refcount_le_one (held : g.system.table.slots k = some m)
    (there : m.there) : m.refcount ≤ 1 ↔ users g.system.table g.ledger Module.there k = ∅ := by
  have counted := tidy.accounted.counted k m held there
  rw [← Finset.card_eq_zero]
  omega

lemma Tidy.unloads (held : g.system.table.slots k = some m) (live : m.isLive)
    (unused : m.refcount ≤ 1) (none : g.ledger.imports k = []) :
    Tidy ⟨⟨g.system.table.setState k .going, .exit k :: g.system.calls⟩, g.ledger⟩ := by
  have state : m.state = .live := by simpa [isLive] using live
  have there : m.there := by simp [there, state]
  have ordered : Ordered (g.system.step (fun _ => false) (.unload k)) := tidy.ordered.unload k
  simp only [step, held, state, reduceCtorEq, if_false, not_lt.mpr unused] at ordered
  exact {
    ordered := ordered
    accounted := tidy.accounted.setState held there (by simp) (.inr ((tidy.refcount_le_one held there).mp unused))
    pending := by
      have idle : k ∉ exitSlots g.system.calls := tidy.pending.loading_not_going held (by simp [state])
      apply tidy.pending.replace moved_update
      · exact fun k _ => rfl
      · exact fun k _ => Iff.rfl
      · intro j apart
        simp [exitSlots, apart]
      · exact nodup_cons.mpr ⟨idle, tidy.pending.apart⟩
      · exact fun member => absurd member (tidy.pending.going_not_loading held (by simp [state]))
      · intro _
        refine ⟨?_, none⟩
        simp [has, update, held]
      · simp [exitSlots] }

/-! ## Runs -/

lemma Tidy.step (careful : Careful kernel g op) : Tidy (g.step kernel op) := by
  cases op with
  | load i =>
    by_cases room : g.system.table.modCount < maxModules
    · cases prepared : prepares kernel g.system.table i with
      | true => exact tidy.prepared room (careful room) prepared
      | false => exact tidy.failed room (careful room) prepared
    · rwa [step_full (not_lt.mp room)]
  | initReturns ok =>
    obtain ⟨⟨t, calls⟩, l⟩ := g
    cases calls with
    | nil => exact tidy
    | cons call calls =>
      cases call with
      | exit k => exact tidy
      | init s =>
        cases ok with
        | true => exact tidy.initSucceeds
        | false =>
          obtain ⟨none, inTurn⟩ := careful.resolve_left Bool.false_ne_true
          exact tidy.initFails none inTurn
  | unload k =>
    change Tidy ⟨g.system.step kernel (.unload k), g.ledger⟩
    rw [System.step]
    split
    · exact tidy
    rename_i m held
    split
    · exact tidy
    rename_i loaded
    split
    · exact tidy
    rename_i unused
    have unused : m.refcount ≤ 1 := not_lt.mp unused
    obtain ⟨live, none⟩ := careful (by simp [has_of_slot held, there, loaded, unused])
    rw [Table.live, has_of_slot held] at live
    exact tidy.unloads held live unused none
  | exitReturns =>
    obtain ⟨⟨t, calls⟩, l⟩ := g
    cases calls with
    | nil => exact tidy
    | cons call calls =>
      cases call with
      | init s => exact tidy
      | exit s => exact tidy.exits

lemma Tidy.load_right (room : g.system.table.modCount < maxModules)
    (careful : CarefulLoad kernel g.system.table i) :
    let after := g.step kernel (.load i)
    if prepares kernel g.system.table i then
      (∀ d ∈ i.listed, LiveNamed g.system.table d) ∧
        ChangedBy g.system.table after.system.table g.system.table.modCount fun k =>
          if Uses after.system.table after.ledger g.system.table.modCount k then 1 else 0
    else ChangedBy g.system.table after.system.table g.system.table.modCount fun _ => 0 := by
  split
  · rename_i prepared
    have live := dependenciesLive_of_prepares careful prepared
    have moved := moved_prepared prepared
    rw [step_prepared room prepared]
    refine ⟨fun d listed => liveNamed_of_found (all_eq_true.mp live d listed), ?_⟩
    apply moved.changedBy_of_eq
    intro k apart there
    rw [counts_takenFor tidy.accounted careful prepared there]
    simp only [moved.uses apart]
  · rename_i failed
    have failed : prepares kernel g.system.table i = false := by simpa using failed
    rw [step_failed room failed]
    exact (moved_failed failed).changedBy_of_eq fun k apart _ => counts_failed careful failed apart

lemma Tidy.unload_right (live : g.system.table.live k) :
    (g.step kernel (.unload k)).system.table.live k = false ↔ users g.system.table g.ledger there k = ∅ := by
  obtain ⟨m, held, live⟩ := has_iff.mp live
  have state : m.state = .live := by simpa using live
  rw [← tidy.refcount_le_one held (by simp [there, state])]
  simp only [Tracked.step, System.step, held, state, reduceCtorEq, if_false]
  split
  · rename_i used
    simp [Table.live, has_of_slot held, state, not_le.mpr used]
  · rename_i unused
    simp [Table.live, Table.has, Table.setState, Table.update, held, not_lt.mp unused]

lemma Tidy.right (careful : Careful kernel g op) : Right kernel g op := by
  have after : Tidy (g.step kernel op) := tidy.step careful
  refine ⟨after.counted, after.counted_live, ?_⟩
  cases op with
  | load i => exact fun room => tidy.load_right room (careful room)
  | initReturns ok =>
    obtain ⟨⟨t, calls⟩, l⟩ := g
    cases calls with
    | nil => trivial
    | cons call calls =>
      cases call with
      | exit k => trivial
      | init s =>
        have there : t.has there s := initSlots_there tidy.pending (by simp [initSlots])
        cases ok with
        | true => exact tidy.accounted.names s there
        | false =>
          obtain ⟨none, -⟩ := careful.resolve_left Bool.false_ne_true
          apply (moved_initFails tidy).changedBy_of_eq
          intro k _ standing
          rw [counts_released tidy.accounted there none standing]
  | unload k =>
    intro live
    refine ⟨tidy.unload_right live, fun idle => ?_⟩
    rw [tidy.users_live idle]
    exact tidy.unload_right live
  | exitReturns => trivial

end

/-- Before the first module nothing is recorded. -/
def start : Tracked := ⟨boot, ⟨fun _ => [], fun _ => []⟩⟩

lemma tidy_start : Tidy start where
  ordered := ordered_boot
  accounted := {
    room := by simp [start, boot]
    behind := fun _ _ => rfl
    distinct := fun _ _ _ named => absurd named Bool.false_ne_true
    kept := fun _ _ held => by simp [start, boot] at held
    nodup := fun _ _ => .nil
    names := fun _ _ _ listed => absurd listed not_mem_nil
    imports := fun _ _ _ imported => absurd imported not_mem_nil
    counted := fun _ _ held => by simp [start, boot] at held }
  pending := {
    loading := fun _ member => absurd member not_mem_nil
    going := fun _ member => absurd member not_mem_nil
    apart := .nil
    quiet := fun _ there => absurd there Bool.false_ne_true }

/-- In every run whose steps are all careful, each count is right after every step. -/
theorem references_right (kernel : Text → Bool) (ops : List Op)
    (careful : Along (Tracked.step kernel) (Careful kernel) start ops) :
    Along (Tracked.step kernel) (Right kernel) start ops :=
  Along.imp (I := Tidy) (fun _ _ tidy careful => tidy.right careful) (fun _ _ tidy careful => tidy.step careful)
    tidy_start careful

/-- A module without dependencies that exports one symbol. -/
def library : Image where
  name := [97]
  listed := []
  relocs := []
  exports := [[120]]

def listing (listed : List Text) : Image where
  name := [98]
  listed := listed
  relocs := []
  exports := []

def importing : Image where
  name := [98]
  listed := []
  relocs := [.external [120]]
  exports := []

def loaded : List Op := [.load library, .initReturns true]

/-- A module that depends on the library comes and goes, and then the library goes. -/
theorem listing_right :
    Along (Tracked.step fun _ => false) (Right fun _ => false) start
      (loaded ++ [.load (listing [[97]]), .initReturns true, .unload 0, .unload 1, .exitReturns, .unload 0,
        .exitReturns]) :=
  references_right _ _ (by decide)

/-- What the modules that have not been unloaded rely on. -/
structure Relies (g : Tracked) : Prop where
  distinct : Distinct g.system.table
  listed : ∀ k, g.system.table.has there k → ∀ d ∈ g.ledger.listed k, LiveNamed g.system.table d
  imports : ∀ k, g.system.table.has there k → ∀ j ∈ g.ledger.imports k, g.system.table.live j

/-- In such a run no module is unloaded that another one lists or imports from. -/
theorem dependencies_live (kernel : Text → Bool) (ops : List Op)
    (careful : Along (Tracked.step kernel) (Careful kernel) start ops) :
    Along (Tracked.step kernel) (fun g op => Relies (g.step kernel op)) start ops := by
  refine Along.imp (I := Tidy) (fun _ _ tidy careful => ?_) (fun _ _ tidy careful => tidy.step careful)
    tidy_start careful
  have after := (tidy.step careful).accounted
  exact ⟨after.distinct, after.names, after.imports⟩

/-- The library cannot be unloaded while the module that lists it is there. -/
theorem library_stays : Along (Tracked.step fun _ => false)
    (fun g op => Relies (g.step (fun _ => false) op)) start
    (loaded ++ [.load (listing [[97]]), .initReturns true, .unload 0]) :=
  dependencies_live _ _ (by decide)

/-- After a module that has imported from the library is gone, the library still counts it; a load that
    fails takes a reference away that it has not taken; and a load succeeds without the fifth module it
    lists. -/
theorem references_not_right :
    ¬Along (Tracked.step fun _ => false) (Right fun _ => false) start
        ((loaded ++ [.load importing, .initReturns true, .unload 1]) ++ [.exitReturns]) ∧
      ¬Along (Tracked.step fun _ => false) (Right fun _ => false) start
        (loaded ++ [.load (listing [[99], [97]])]) ∧
      ¬Along (Tracked.step fun _ => false) (Right fun _ => false) start
        (loaded ++ [.load (listing (List.replicate 4 [97] ++ [[99]]))]) := by
  refine ⟨fun right => ?_, fun right => ?_, fun right => ?_⟩
  · have counted := right.last.2.1 rfl 0 _ rfl rfl
    revert counted
    decide
  · have counted := right.last.2.1 rfl 0 _ rfl rfl
    revert counted
    decide
  · obtain ⟨k, named⟩ := (right.last.2.2 (by decide)).1 [99] (by decide)
    cases k with
    | zero => exact absurd named (by decide)
    | succ k => exact Bool.false_ne_true named

end Znu.Modl
