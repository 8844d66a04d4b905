import Znu.Modl.Capacity

/-! # Accounts of references

What each module lists and imports is recorded here beside the table. The accounts are in order when
the reference count of each module is one more than the number of modules that use it; they stay in
order when a module comes or goes and exactly the references to the modules it uses change.
-/

namespace Znu.Modl

open Lib List Table Modl.Module Bool

/-- What has been listed by the module of a slot, and to which slots its relocations were resolved. -/
structure Ledger where
  listed : Nat → List Text
  imports : Nat → List Nat

def Ledger.record (l : Ledger) (s : Nat) (listed : List Text) (imports : List Nat) : Ledger where
  listed := Function.update l.listed s listed
  imports := Function.update l.imports s imports

def Module.isLive (m : Module) : Bool := m.state == .live

/-- The module of slot `j` lists the one of slot `k`, or imports from it. -/
def Uses (t : Table) (l : Ledger) (j k : Nat) : Prop :=
  t.has (fun m => (l.listed j).contains m.name) k ∨ k ∈ l.imports j

instance (t : Table) (l : Ledger) (j k : Nat) : Decidable (Uses t l j k) :=
  inferInstanceAs (Decidable (_ ∨ _))

/-- The users of a module among some of the modules. -/
def users (t : Table) (l : Ledger) (p : Module → Bool) (k : Nat) : Finset Nat :=
  (Finset.range maxModules).filter fun j => t.has p j ∧ Uses t l j k

def LiveNamed (t : Table) (name : Text) : Prop := ∃ k, t.has (fun m => m.isLive && m.name == name) k

/-! ## Names -/

def Table.named (t : Table) (name : Text) (k : Nat) : Bool := t.has (fun m => m.there && m.name == name) k

def Distinct (t : Table) : Prop := ∀ j k name, t.named name j → t.named name k → j = k

variable {kernel : Text → Bool} {t t' u : Table} {l l' : Ledger} {i : Image} {f : Nat → Int}
  {j k s : Nat} {m m' : Module} {name : Text} {ds : List Text}

variable {g : Nat → Int} {p : Module → Bool} {state : ModState}

lemma has_iff : t.has p k ↔ ∃ m, t.slots k = some m ∧ p m := by
  cases held : t.slots k with
  | none | some _ => simp [has, held]

lemma has_of_slot (held : t.slots k = some m) : t.has p k = p m := by
  simp [has, held]

lemma there_of_named (named : t.named name k) : t.has there k := by
  obtain ⟨m, held, there⟩ := has_iff.mp named
  simp only [and_eq_true] at there
  exact has_iff.mpr ⟨m, held, there.1⟩

lemma modFind_some (found : modFind t name = some k) : k < t.modCount ∧ t.named name k :=
  ⟨mem_range.mp (mem_of_find?_eq_some found), find?_some found⟩

/-- Where names are distinct, the one that is found is the one that has the name. -/
lemma modFind_of_named (distinct : Distinct t) (behind : ∀ k, t.modCount ≤ k → t.has there k = false)
    (named : t.named name k) : modFind t name = some k := by
  have inside : k < t.modCount := by
    by_contra later
    have there := there_of_named named
    simp [behind k (by omega)] at there
  cases found : modFind t name with
  | none =>
    have none := find?_eq_none.mp found k (mem_range.mpr inside)
    exact absurd named none
  | some j => rw [distinct j k name (modFind_some found).2 named]

/-- A list of different names holds one reference to each module it names. -/
lemma counts_found (distinct : Distinct t) (behind : ∀ k, t.modCount ≤ k → t.has there k = false)
    (nodup : ds.Nodup) (there : t.has there k) :
    counts (ds.filterMap (modFind t)) k = if t.has (fun m => ds.contains m.name) k then 1 else 0 := by
  have different : (ds.filterMap (modFind t)).Nodup := by
    apply nodup.filterMap
    intro d d' b first second
    obtain ⟨m, held, one⟩ := has_iff.mp (modFind_some first).2
    obtain ⟨m', held', other⟩ := has_iff.mp (modFind_some second).2
    simp_all
  have member : k ∈ ds.filterMap (modFind t) ↔ t.has (fun m => ds.contains m.name) k := by
    rw [mem_filterMap]
    constructor
    · rintro ⟨d, listed, found⟩
      obtain ⟨m, held, named⟩ := has_iff.mp (modFind_some found).2
      refine has_iff.mpr ⟨m, held, ?_⟩
      simp_all
    · intro listed
      obtain ⟨m, held, listed⟩ := has_iff.mp listed
      refine ⟨m.name, by simpa using listed, modFind_of_named distinct behind ?_⟩
      rw [has_of_slot held] at there
      simp [named, has_of_slot held, there]
  rw [counts, different.count]
  simp [member]

lemma takenDependencies_eq (t : Table) (ds : List Text) :
    takenDependencies t ds = (ds.takeWhile fun d => (modFind t d).any t.live).filterMap (modFind t) := by
  induction ds with
  | nil => rfl
  | cons d ds ih =>
    rw [takenDependencies]
    cases found : modFind t d with
    | none => simp [found]
    | some k =>
      by_cases live : t.live k
      · simp [found, live, ih]
      · simp [found, live]

/-- The new slot is only found by its own name, and after all others. -/
lemma modFind_takeSlot :
    modFind (takeSlot t i) name = (modFind t name).or (if i.name = name then some t.modCount else none) := by
  have before : ∀ k ∈ range t.modCount, (takeSlot t i).named name k = t.named name k := by
    intro k inside
    have apart : k ≠ t.modCount := by simpa using (mem_range.mp inside).ne
    simp [named, has, takeSlot, apart]
  have own : (takeSlot t i).named name t.modCount = (i.name == name) := by
    simp [named, has, takeSlot, there]
  have same : (range t.modCount).find? ((takeSlot t i).named name) = modFind t name :=
    find?_congr before
  change (range (t.modCount + 1)).find? ((takeSlot t i).named name) = _
  rw [range_succ, find?_append, same]
  by_cases here : i.name = name
  · simp [own, here]
  · simp [own, here]

/-! ## The accounts -/

/-- All slots but one only differ in their references. -/
def Moved (t t' : Table) (s : Nat) (f : Nat → Int) : Prop :=
  ∀ k, k ≠ s → t'.slots k = (t.slots k).map fun m => { m with refcount := m.refcount + f k }

lemma Moved.has (moved : Moved t t' s f) (apart : k ≠ s)
    (blind : ∀ m r, p { m with refcount := r } = p m) : t'.has p k = t.has p k := by
  simp only [Table.has, moved k apart, Option.any_map, blind]

/-- What the references of the modules that are not unloaded come to. -/
structure Accounted (t : Table) (l : Ledger) : Prop where
  room : t.modCount ≤ maxModules
  behind : ∀ k, t.modCount ≤ k → t.has there k = false
  distinct : Distinct t
  kept : ∀ k m, t.slots k = some m → m.there → m.depends = l.listed k
  nodup : ∀ k, t.has there k → (l.listed k).Nodup
  names : ∀ k, t.has there k → ∀ d ∈ l.listed k, LiveNamed t d
  imports : ∀ k, t.has there k → ∀ j ∈ l.imports k, t.live j
  counted : ∀ k m, t.slots k = some m → m.there → m.refcount = 1 + (users t l there k).card

lemma Accounted.inside (accounted : Accounted t l) (there : t.has there k) : k < maxModules := by
  have room := accounted.room
  by_contra later
  simp [accounted.behind k (by omega)] at there

lemma there_of_live (live : t.live k) : t.has there k := by
  obtain ⟨m, held, live⟩ := has_iff.mp live
  exact has_iff.mpr ⟨m, held, by simp_all [there]⟩

lemma LiveNamed.iff : LiveNamed t name ↔ ∃ k, t.live k ∧ t.named name k := by
  apply exists_congr
  intro k
  cases held : t.slots k with
  | none => simp [live, named, has, held]
  | some m => cases state : m.state <;> simp [live, named, has, held, isLive,
      there, state]

/-- One more holder counts if it is a user. -/
lemma card_filter_insert {H : Finset Nat} {p : Nat → Prop} [DecidablePred p] (absent : s ∉ H) :
    ((insert s H).filter p).card = (H.filter p).card + if p s then 1 else 0 := by
  rw [Finset.filter_insert]
  split
  · rw [Finset.card_insert_of_notMem (by simp [absent])]
  · rfl

section

variable (moved : Moved t t' s f)

include moved

lemma Moved.uses (apart : k ≠ s) : Uses t' l j k ↔ Uses t l j k := by
  rw [Uses, moved.has apart (fun _ _ => rfl), Uses]

lemma Moved.liveNamed (idle : t.live s = false) (live : LiveNamed t name) : LiveNamed t' name := by
  obtain ⟨k, live, named⟩ := LiveNamed.iff.mp live
  have apart : k ≠ s := by
    rintro rfl
    simp [idle] at live
  refine LiveNamed.iff.mpr ⟨k, ?_, ?_⟩
  · rwa [Table.live, moved.has apart (fun _ _ => rfl)]
  · rwa [Table.named, moved.has apart (fun _ _ => rfl)]

lemma Moved.live (idle : t.live s = false) (live : t.live k) : t'.live k := by
  have apart : k ≠ s := by
    rintro rfl
    simp [idle] at live
  rwa [Table.live, moved.has apart (fun _ _ => rfl)]

lemma Moved.distinct (distinct : Distinct t)
    (own : ∀ k name, k ≠ s → t'.named name s → t.named name k = false) : Distinct t' := by
  have same : ∀ k name, k ≠ s → t'.named name k = t.named name k := fun k name apart =>
    moved.has apart fun _ _ => rfl
  intro j k name first second
  by_cases left : j = s
  · by_cases right : k = s
    · rw [left, right]
    subst left
    rw [same k name right, own k name right first] at second
    cases second
  · rw [same j name left] at first
    by_cases right : k = s
    · subst right
      rw [own j name left second] at first
      cases first
    · rw [same k name right] at second
      exact distinct j k name first second

end

/-- The users of a module, with one slot apart from the others. -/
lemma card_users (inside : s < maxModules) :
    (users t l there k).card =
      (((Finset.range maxModules).erase s).filter fun j => t.has there j ∧ Uses t l j k).card +
        if t.has there s ∧ Uses t l s k then 1 else 0 := by
  have slots : Finset.range maxModules = insert s ((Finset.range maxModules).erase s) :=
    (Finset.insert_erase (Finset.mem_range.mpr inside)).symm
  rw [users, slots, card_filter_insert (Finset.notMem_erase s _), ← slots]

/-- The account of the module in one slot. -/
structure Opened (t : Table) (l : Ledger) (s : Nat) (m : Module) : Prop where
  alone : ∀ k, t.named m.name k = false
  kept : m.depends = l.listed s
  nodup : (l.listed s).Nodup
  names : ∀ d ∈ l.listed s, LiveNamed t d
  imports : ∀ j ∈ l.imports s, t.live j
  one : m.refcount = 1

/-- A slot gets a new module, or loses its own, and the references change accordingly. -/
lemma Accounted.replace (accounted : Accounted t l) (moved : Moved t t' s f)
    (inside : s < maxModules) (idle : t.live s = false)
    (same : ∀ k, k ≠ s → l'.listed k = l.listed k ∧ l'.imports k = l.imports k)
    (room : t'.modCount ≤ maxModules) (behind : ∀ k, t'.modCount ≤ k → t'.has there k = false)
    (opened : ∀ m, t'.slots s = some m → m.there → t.has there s = false ∧ Opened t l' s m)
    (changed : ∀ k, k ≠ s → t.has there k →
      f k = (if t'.has there s ∧ Uses t l' s k then 1 else 0) -
        if t.has there s ∧ Uses t l s k then 1 else 0) :
    Accounted t' l' := by
  have there : ∀ k, k ≠ s → t'.has there k = t.has there k := fun k apart =>
    moved.has apart fun _ _ => rfl
  have slot : ∀ k m, k ≠ s → t'.slots k = some m → ∃ m', t.slots k = some m' ∧
      { m' with refcount := m'.refcount + f k } = m := by
    intro k m apart held
    rw [moved k apart] at held
    exact Option.map_eq_some_iff.mp held
  have names : ∀ k, t'.has Module.there k → ∀ d ∈ l'.listed k, LiveNamed t d := by
    intro k standing d listed
    by_cases own : k = s
    · subst own
      obtain ⟨m, held, standing⟩ := has_iff.mp standing
      exact (opened m held standing).2.names d listed
    · rw [(same k own).1] at listed
      exact accounted.names k (there k own ▸ standing) d listed
  have imports : ∀ k, t'.has Module.there k → ∀ j ∈ l'.imports k, t.live j := by
    intro k standing j imported
    by_cases own : k = s
    · subst own
      obtain ⟨m, held, standing⟩ := has_iff.mp standing
      exact (opened m held standing).2.imports j imported
    · rw [(same k own).2] at imported
      exact accounted.imports k (there k own ▸ standing) j imported
  exact {
    room := room
    behind := behind
    distinct := by
      apply moved.distinct accounted.distinct
      intro k name _ named
      obtain ⟨m, held, named⟩ := has_iff.mp named
      simp only [and_eq_true, beq_iff_eq] at named
      rw [← named.2]
      exact (opened m held named.1).2.alone k
    kept := by
      intro k m held standing
      by_cases own : k = s
      · subst own
        exact (opened m held standing).2.kept
      obtain ⟨m', held', rfl⟩ := slot k m own held
      rw [(same k own).1]
      exact accounted.kept k m' held' standing
    nodup := by
      intro k standing
      by_cases own : k = s
      · subst own
        obtain ⟨m, held, standing⟩ := has_iff.mp standing
        exact (opened m held standing).2.nodup
      · rw [(same k own).1]
        exact accounted.nodup k (there k own ▸ standing)
    names := fun k standing d listed => moved.liveNamed idle (names k standing d listed)
    imports := fun k standing j imported => moved.live idle (imports k standing j imported)
    counted := by
      intro k m held standing
      by_cases own : k = s
      · subst own
        obtain ⟨-, opened⟩ := opened m held standing
        have unused : users t' l' Module.there k = ∅ := by
          apply Finset.filter_eq_empty_iff.mpr
          rintro j _ ⟨standing, listed | imported⟩
          · rw [has_of_slot held, contains_iff_mem] at listed
            obtain ⟨other, -, named⟩ := LiveNamed.iff.mp (names j standing m.name listed)
            simp [opened.alone other] at named
          · simp [imports j standing k imported] at idle
        rw [unused, opened.one]
        rfl
      obtain ⟨m', held', rfl⟩ := slot k m own held
      have old := accounted.counted k m' held' standing
      have others : (((Finset.range maxModules).erase s).filter fun j =>
          t'.has Module.there j ∧ Uses t' l' j k) =
          ((Finset.range maxModules).erase s).filter fun j => t.has Module.there j ∧ Uses t l j k := by
        apply Finset.filter_congr
        intro j member
        have apart : j ≠ s := Finset.ne_of_mem_erase member
        rw [there j apart, moved.uses own, Uses, Uses, (same j apart).1, (same j apart).2]
      have uses : Uses t' l' s k ↔ Uses t l' s k := moved.uses own
      rw [card_users inside] at old
      rw [card_users inside, others, changed k own ((has_of_slot held').trans standing), old]
      simp only [uses]
      push_cast
      ring }

lemma has_setState (held : t.slots s = some m)
    (same : p { m with state := state } = p m) (k : Nat) : (t.setState s state).has p k = t.has p k := by
  by_cases own : k = s
  · subst own
    simp [has, setState, update, held, same]
  · simp [has, setState, update, own]

lemma slots_setState (held : (t.setState s state).slots k = some m') :
    ∃ m, t.slots k = some m ∧ m' = { m with state := if k = s then state else m.state } := by
  by_cases own : k = s
  · subst own
    simp only [setState, update, Function.update_self, Option.map_eq_some_iff] at held
    obtain ⟨m, held, rfl⟩ := held
    exact ⟨m, held, by simp⟩
  · simp only [setState, update, Function.update_of_ne own] at held
    exact ⟨m', held, by simp [own]⟩

/-- A module becomes live, or one that nobody uses ceases to be. -/
lemma Accounted.setState (accounted : Accounted t l) (held : t.slots s = some m)
    (there : m.there) (after : state ≠ .unloaded)
    (unused : state = .live ∨ users t l Module.there s = ∅) : Accounted (t.setState s state) l := by
  have still : Module.there { m with state := state } = m.there := by
    rw [there, Module.there, bne_iff_ne]
    exact after
  have standing : ∀ k, (t.setState s state).has Module.there k = t.has Module.there k :=
    has_setState held still
  have named : ∀ name k, (t.setState s state).named name k = t.named name k := fun name =>
    has_setState held (by rw [still])
  have uses : ∀ j k, Uses (t.setState s state) l j k ↔ Uses t l j k := by
    intro j k
    have same : (t.setState s state).has (fun m => (l.listed j).contains m.name) k =
        t.has (fun m => (l.listed j).contains m.name) k := has_setState held (by rfl) k
    rw [Uses, same, Uses]
  have before : ∀ k m', (t.setState s state).slots k = some m' → m'.there →
      ∃ m, t.slots k = some m ∧ m.there ∧ m'.depends = m.depends ∧ m'.refcount = m.refcount := by
    intro k m' held' there'
    obtain ⟨m, held, rfl⟩ := slots_setState held'
    refine ⟨m, held, ?_, rfl, rfl⟩
    have same := standing k
    rwa [has_of_slot held, has_of_slot held', there', eq_comm] at same
  have live : ∀ j k, t.has Module.there j → Uses t l j k → t.live k → (t.setState s state).live k := by
    intro j k user needed live
    by_cases own : k = s
    · subst own
      cases unused with
      | inl live => simp [Table.live, Table.has, Table.setState, Table.update, held, live]
      | inr none =>
        have none := Finset.filter_eq_empty_iff.mp none (Finset.mem_range.mpr (accounted.inside user))
        exact absurd ⟨user, needed⟩ none
    · simpa [Table.live, Table.has, Table.setState, Table.update, own] using live
  exact {
    room := accounted.room
    behind := fun k later => (standing k).trans (accounted.behind k later)
    distinct := by
      intro j k name
      rw [named, named]
      exact accounted.distinct j k name
    kept := by
      intro k m' held' there'
      obtain ⟨m, held, old, depends, -⟩ := before k m' held' there'
      exact depends.trans (accounted.kept k m held old)
    nodup := by simpa only [standing] using accounted.nodup
    names := by
      intro j there d listed
      rw [standing] at there
      obtain ⟨k, alive, name⟩ := LiveNamed.iff.mp (accounted.names j there d listed)
      have needed : Uses t l j k := by
        obtain ⟨m, held, name⟩ := has_iff.mp name
        left
        simp_all [has_of_slot held]
      exact LiveNamed.iff.mpr ⟨k, live j k there needed alive, by rwa [named]⟩
    imports := by
      intro j there k imported
      rw [standing] at there
      exact live j k there (.inr imported) (accounted.imports j there k imported)
    counted := by
      intro k m' held' there'
      have same : users (t.setState s state) l Module.there k = users t l Module.there k := by
        simp only [users, standing, uses]
      obtain ⟨m, held, old, -, refcount⟩ := before k m' held' there'
      rw [same, refcount]
      exact accounted.counted k m held old }

/-! ## What the functions do to the other modules -/

lemma moved_update {g : Module → Module} : Moved t (t.update s g) s fun _ => 0 := by
  intro k apart
  simp [update, apart]

lemma moved_addRefs : Moved t (t.addRefs f) s f := fun _ _ => rfl

lemma Moved.trans (first : Moved t t' s f) (second : Moved t' u s g) : Moved t u s fun k => f k + g k := by
  intro k apart
  rw [second k apart, first k apart, Option.map_map]
  simp only [Function.comp_def, Int.add_assoc]

lemma Moved.congr (moved : Moved t t' s f) (same : ∀ k, f k = g k) : Moved t t' s g := by
  intro k apart
  rw [moved k apart, same k]

lemma moved_putDependencies (ds : List Text) :
    Moved t (putDependencies t ds) s fun k => -counts (ds.filterMap (modFind t)) k := by
  rw [putDependencies_eq]
  exact moved_addRefs

/-- The names that have been kept for a slot. -/
def dependsOf (t : Table) (s : Nat) : List Text := (t.slots s).elim [] depends

lemma moved_failLoad :
    Moved t (failLoad t s) s fun k => -counts ((dependsOf t s).filterMap (modFind t)) k := by
  have put : Moved t (putDependencies t (dependsOf t s)) s _ := moved_putDependencies (dependsOf t s)
  exact (put.trans moved_update).congr fun k => Int.add_zero _

lemma moved_takeSlot : Moved t (takeSlot t i) t.modCount fun _ => 0 := by
  intro k apart
  simp [takeSlot, apart]

lemma moved_prepared (prepared : prepares kernel t i) :
    Moved t (prepare kernel t i).1 t.modCount (counts (takenFor kernel t i)) := by
  rw [prepare_eq, if_pos prepared]
  exact ((moved_takeSlot.trans moved_addRefs).trans moved_update).congr fun k => by ring

lemma slots_prepared (prepared : prepares kernel t i) :
    (prepare kernel t i).1.slots t.modCount =
      some { name := i.name, state := .loading, refcount := 1 + counts (takenFor kernel t i) t.modCount,
             exports := i.exports, depends := i.depends } := by
  rw [prepare_eq, if_pos prepared]
  simp [update, addRefs, takeSlot]

lemma moved_failed (failed : prepares kernel t i = false) :
    Moved t (prepare kernel t i).1 t.modCount fun k =>
      counts (takenFor kernel t i) k - counts (i.depends.filterMap (modFind (takeSlot t i))) k := by
  have depends : dependsOf ((takeSlot t i).addRefs (counts (takenFor kernel t i))) t.modCount =
      i.depends := by
    simp [dependsOf, addRefs, takeSlot]
  have found : modFind ((takeSlot t i).addRefs (counts (takenFor kernel t i))) = modFind (takeSlot t i) :=
    funext modFind_addRefs
  have fail := moved_failLoad (t := (takeSlot t i).addRefs (counts (takenFor kernel t i))) (s := t.modCount)
  rw [depends, found] at fail
  rw [prepare_eq, failed, if_neg Bool.false_ne_true]
  exact ((moved_takeSlot.trans moved_addRefs).trans fail).congr fun k => by ring

/-! ## What a load finds -/

lemma live_takeSlot : (takeSlot t i).live t.modCount = false := by
  simp [live, has, takeSlot]

lemma live_takeSlot_of_ne (apart : k ≠ t.modCount) : (takeSlot t i).live k = t.live k :=
  moved_takeSlot.has apart fun _ _ => rfl

/-- Taking the slot makes no other name live. -/
lemma foundLive_takeSlot (d : Text) :
    (modFind (takeSlot t i) d).any (takeSlot t i).live = (modFind t d).any t.live := by
  rw [modFind_takeSlot]
  cases found : modFind t d with
  | none =>
    by_cases own : i.name = d
    · simp [own, live_takeSlot]
    · simp [own]
  | some k => simpa using live_takeSlot_of_ne (modFind_some found).1.ne

lemma dependenciesLive_takeSlot (ds : List Text) :
    dependenciesLive (takeSlot t i) ds = dependenciesLive t ds := by
  simp only [dependenciesLive, foundLive_takeSlot]

lemma takenDependencies_takeSlot (ds : List Text) :
    takenDependencies (takeSlot t i) ds = takenDependencies t ds := by
  rw [takenDependencies_eq, takenDependencies_eq]
  simp only [foundLive_takeSlot]
  apply filterMap_congr
  intro d taken
  have live := mem_takeWhile_imp taken
  rw [modFind_takeSlot]
  cases found : modFind t d with
  | none => simp [found] at live
  | some k => simp

lemma counts_found_takeSlot (ds : List Text) (apart : k ≠ t.modCount) :
    counts (ds.filterMap (modFind (takeSlot t i))) k = counts (ds.filterMap (modFind t)) k := by
  induction ds with
  | nil => rfl
  | cons d ds ih =>
    rw [counts, counts, Int.natCast_inj] at ih
    rw [counts, counts, filterMap_cons, filterMap_cons, modFind_takeSlot]
    cases found : modFind t d with
    | some j => simp [count_cons, ih]
    | none =>
      by_cases own : i.name = d
      · simp [own, ih, apart.symm]
      · simp [own, ih]

lemma takenDependencies_of_live (live : dependenciesLive t ds) :
    takenDependencies t ds = ds.filterMap (modFind t) := by
  rw [takenDependencies_eq, takeWhile_eq_self_iff.mpr]
  simpa [dependenciesLive] using live

/-- A load that gives back what it finds has taken it, if nothing is found behind the first name that
    is not live. -/
lemma takenDependencies_of_missing
    (missing : ∀ d ∈ ds.dropWhile fun d => (modFind t d).any t.live, modFind t d = none) :
    takenDependencies t ds = ds.filterMap (modFind t) := by
  have rest : (ds.dropWhile fun d => (modFind t d).any t.live).filterMap (modFind t) = [] :=
    filterMap_eq_nil_iff.mpr missing
  rw [takenDependencies_eq]
  conv_rhs => rw [← takeWhile_append_dropWhile (p := fun d => (modFind t d).any t.live) (l := ds)]
  rw [filterMap_append, rest, append_nil]

lemma takenImports_live {relocs : List Reloc} (taken : k ∈ takenImports kernel t s relocs) :
    k ≠ s ∧ t.live k := by
  induction relocs with
  | nil => simp [takenImports] at taken
  | cons r relocs ih =>
    cases r with
    | inner => exact ih taken
    | bad => simp [takenImports] at taken
    | external symbol =>
      rw [takenImports] at taken
      split at taken
      · exact ih taken
      cases found : findExport t symbol s with
      | none => simp [found] at taken
      | some j =>
        rw [found] at taken
        cases mem_cons.mp taken with
        | inr later => exact ih later
        | inl here =>
          subst here
          have exported := find?_some found
          simp only [and_eq_true, bne_iff_ne] at exported
          obtain ⟨m, held, exported⟩ := has_iff.mp exported.2
          refine ⟨by simp_all, has_iff.mpr ⟨m, held, ?_⟩⟩
          simp_all

/-- The slots to which relocations of an image are resolved. -/
def importsOf (kernel : Text → Bool) (t : Table) (i : Image) : List Nat :=
  if dependenciesLive (takeSlot t i) i.depends then
    takenImports kernel (takeSlot t i) t.modCount i.relocs
  else []

lemma importsOf_live (imported : k ∈ importsOf kernel t i) : k ≠ t.modCount ∧ t.live k := by
  rw [importsOf] at imported
  split at imported
  · obtain ⟨apart, live⟩ := takenImports_live imported
    rw [live_takeSlot_of_ne apart] at live
    exact ⟨apart, live⟩
  · simp at imported

lemma takenFor_eq : takenFor kernel t i = takenDependencies t i.depends ++ importsOf kernel t i := by
  rw [takenFor, takenDependencies_takeSlot, importsOf]

end Znu.Modl
