import Znu.Lib.Along

/-! # The table of kernel modules

`load_kernel_module` takes the next slot of a table for a module, takes references to the modules it
needs, and calls its init function; `unload_kernel_module` calls its exit function and gives the
references back. An init or exit function may itself load and unload modules, so each of the two
functions is cut in front of that call, and the calls that have not returned are kept in a list. An
image stands here for what has been parsed from it; memory does not run out.
-/

namespace Znu.Modl

open Lib Option List

abbrev Text := List UInt8

inductive ModState where
  | loading
  | live
  | going
  | unloaded
  deriving DecidableEq

structure Module where
  name : Text
  state : ModState
  refcount : Int
  exports : List Text
  depends : List Text
  deriving DecidableEq

structure Table where
  /-- a slot that has never been used holds nothing -/
  slots : Nat → Option Module
  modCount : Nat

open Table

/-- What a relocation needs. -/
inductive Reloc where
  /-- nothing outside the module -/
  | inner
  | external (symbol : Text)
  /-- something that is not supported -/
  | bad

open Reloc

structure Image where
  name : Text
  /-- the names in `depends=` -/
  listed : List Text
  relocs : List Reloc
  exports : List Text

/-- The names that are kept: no more than `MAX_MOD_DEPS`, each shorter than `MOD_NAME_LEN`. -/
def Image.depends (i : Image) : List Text := (i.listed.filter fun d => d.length < 64).take 4

def maxModules : Nat := 16

/-! ## The functions -/

def Table.update (t : Table) (k : Nat) (f : Module → Module) : Table :=
  { t with slots := Function.update t.slots k ((t.slots k).map f) }

def Table.setState (t : Table) (k : Nat) (state : ModState) : Table :=
  t.update k fun m => { m with state := state }

def modGet (t : Table) (k : Nat) : Table := t.update k fun m => { m with refcount := m.refcount + 1 }

def modPut (t : Table) (k : Nat) : Table := t.update k fun m => { m with refcount := m.refcount - 1 }

def Table.has (t : Table) (p : Module → Bool) (k : Nat) : Bool := (t.slots k).any p

def Table.live (t : Table) (k : Nat) : Bool := t.has (fun m => m.state == .live) k

def modFind (t : Table) (name : Text) : Option Nat :=
  (List.range t.modCount).find? (t.has fun m => m.state != .unloaded && m.name == name)

/-- The loop of `mod_resolve_symbol` over the modules. -/
def findExport (t : Table) (symbol : Text) (requester : Nat) : Option Nat :=
  (List.range t.modCount).find? fun k =>
    k != requester && t.has (fun m => m.state == .live && m.exports.contains symbol) k

def resolveDependencies : Table → List Text → Table × Bool
  | t, [] => (t, true)
  | t, d :: ds =>
    match modFind t d with
    | none => (t, false)
    | some k => if t.live k then resolveDependencies (modGet t k) ds else (t, false)

section

variable (kernel : Text → Bool)

/-- `mod_resolve_symbol`; nothing where the symbol is not found. -/
def modResolveSymbol (t : Table) (symbol : Text) (requester : Nat) : Option Table :=
  if kernel symbol then some t else (findExport t symbol requester).map (modGet t)

def processRelocations : Table → Nat → List Reloc → Table × Bool
  | t, _, [] => (t, true)
  | t, _, .bad :: _ => (t, false)
  | t, s, .inner :: relocs => processRelocations t s relocs
  | t, s, .external symbol :: relocs =>
    match modResolveSymbol kernel t symbol s with
    | none => (t, false)
    | some t => processRelocations t s relocs

/-- The loop that gives the references back. -/
def putDependencies (t : Table) : List Text → Table
  | [] => t
  | d :: ds =>
    match modFind t d with
    | none => putDependencies t ds
    | some k => putDependencies (modPut t k) ds

/-- The end of `load_kernel_module` from `fail` on. -/
def failLoad (t : Table) (s : Nat) : Table :=
  let t := putDependencies t ((t.slots s).elim [] Module.depends)
  { t.setState s .unloaded with modCount := t.modCount - 1 }

/-- The slot that is taken for an image. -/
def takeSlot (t : Table) (i : Image) : Table where
  slots := Function.update t.slots t.modCount
    (some { name := i.name, state := .loading, refcount := 1, exports := [], depends := i.depends })
  modCount := t.modCount + 1

/-- A call of an init or exit function. -/
inductive Call where
  | init (slot : Nat)
  | exit (slot : Nat)

structure System where
  table : Table
  calls : List Call

inductive Op where
  /-- `load_kernel_module` up to the init function -/
  | load (i : Image)
  /-- the init function that was called last returns 0 or something else -/
  | initReturns (ok : Bool)
  /-- `unload_kernel_module` up to the exit function -/
  | unload (slot : Nat)
  /-- the exit function that was called last returns -/
  | exitReturns

/-- The table when the init function is called, or nothing if the load has failed before. -/
def prepare (t : Table) (i : Image) : Table × Bool :=
  let s := t.modCount
  let resolved := resolveDependencies (takeSlot t i) i.depends
  if resolved.2 then
    let relocated := processRelocations kernel resolved.1 s i.relocs
    if relocated.2 then (relocated.1.update s fun m => { m with exports := i.exports }, true)
    else (failLoad relocated.1 s, false)
  else (failLoad resolved.1 s, false)

def System.step (y : System) : Op → System
  | .load i =>
    if maxModules ≤ y.table.modCount then y else
    let prepared := prepare kernel y.table i
    if prepared.2 then ⟨prepared.1, .init y.table.modCount :: y.calls⟩ else ⟨prepared.1, y.calls⟩
  | .initReturns ok =>
    match y.calls with
    | .init s :: calls =>
      if ok then ⟨y.table.setState s .live, calls⟩
      else ⟨failLoad (y.table.setState s .going) s, calls⟩
    | _ => y
  | .unload k =>
    match y.table.slots k with
    | none => y
    | some m =>
      if m.state = .unloaded then y else
      if 1 < m.refcount then y else
      ⟨y.table.setState k .going, .exit k :: y.calls⟩
  | .exitReturns =>
    match y.calls with
    | .exit k :: calls =>
      let t := putDependencies y.table ((y.table.slots k).elim [] Module.depends)
      ⟨t.update k fun m => { m with state := .unloaded, refcount := 0 }, calls⟩
    | _ => y

/-- Before the first module. -/
def boot : System := ⟨⟨fun _ => none, 0⟩, []⟩

end

/-! ## References -/

/-- The table with other reference counts. -/
def Table.addRefs (t : Table) (f : Nat → Int) : Table :=
  { t with slots := fun k => (t.slots k).map fun m => { m with refcount := m.refcount + f k } }

def counts (l : List Nat) (k : Nat) : Int := l.count k

variable {t : Table} {f g : Nat → Int} {k s : Nat} {kernel : Text → Bool}

lemma addRefs_zero : t.addRefs (fun _ => 0) = t := by
  have same : ∀ m : Module, { m with refcount := m.refcount + 0 } = m := by
    intro m
    rw [Int.add_zero]
  simp only [addRefs, same, Option.map_id_fun', id_eq]

lemma addRefs_addRefs : (t.addRefs f).addRefs g = t.addRefs fun k => f k + g k := by
  simp only [addRefs, Option.map_map, Function.comp_def, Int.add_assoc]

lemma update_eq_addRefs (change : Int) :
    t.update k (fun m => { m with refcount := m.refcount + change }) =
      t.addRefs fun j => if j = k then change else 0 := by
  simp only [update, addRefs]
  congr 1
  funext j
  by_cases here : j = k
  · subst here
    simp
  · simp [here]

lemma modGet_eq : modGet t k = t.addRefs (counts [k]) := by
  rw [modGet, update_eq_addRefs]
  congr 1
  funext j
  by_cases here : j = k
  · simp [counts, here]
  · simp [counts, here, Ne.symm here]

lemma modPut_eq : modPut t k = t.addRefs fun j => -counts [k] j := by
  have minus : modPut t k = t.update k fun m => { m with refcount := m.refcount + -1 } := rfl
  rw [minus, update_eq_addRefs]
  congr 1
  funext j
  by_cases here : j = k
  · simp [counts, here]
  · simp [counts, here, Ne.symm here]

lemma has_addRefs {p : Module → Bool} (blind : ∀ m r, p { m with refcount := r } = p m) :
    (t.addRefs f).has p = t.has p := by
  funext j
  simp only [has, addRefs, Option.any_map, blind]

@[simp] lemma modFind_addRefs (name : Text) : modFind (t.addRefs f) name = modFind t name := by
  rw [modFind, has_addRefs (fun _ _ => rfl)]
  rfl

@[simp] lemma live_addRefs : (t.addRefs f).live k = t.live k := by
  rw [live, has_addRefs (fun _ _ => rfl)]
  rfl

@[simp] lemma findExport_addRefs (symbol : Text) :
    findExport (t.addRefs f) symbol s = findExport t symbol s := by
  rw [findExport, has_addRefs (fun _ _ => rfl)]
  rfl

/-- The modules to which `resolve_dependencies` takes references. -/
def takenDependencies (t : Table) : List Text → List Nat
  | [] => []
  | d :: ds =>
    match modFind t d with
    | none => []
    | some k => if t.live k then k :: takenDependencies t ds else []

def dependenciesLive (t : Table) (ds : List Text) : Bool := ds.all fun d => (modFind t d).any t.live

@[simp] lemma addRefs_nil : t.addRefs (counts []) = t := addRefs_zero

lemma counts_cons (k : Nat) (l : List Nat) : (fun j => counts [k] j + counts l j) = counts (k :: l) := by
  funext j
  simp only [counts, count_cons, count_nil]
  push_cast
  ring

lemma takenDependencies_addRefs (ds : List Text) :
    takenDependencies (t.addRefs f) ds = takenDependencies t ds := by
  induction ds with
  | nil => rfl
  | cons d ds ih => simp only [takenDependencies, modFind_addRefs, live_addRefs, ih]

lemma dependenciesLive_addRefs (ds : List Text) :
    dependenciesLive (t.addRefs f) ds = dependenciesLive t ds := by
  have live : (t.addRefs f).live = t.live := funext fun _ => live_addRefs
  simp only [dependenciesLive, modFind_addRefs, live]

lemma resolveDependencies_eq (t : Table) (ds : List Text) :
    resolveDependencies t ds = (t.addRefs (counts (takenDependencies t ds)), dependenciesLive t ds) := by
  induction ds generalizing t with
  | nil => simp [resolveDependencies, takenDependencies, dependenciesLive]
  | cons d ds ih =>
    rw [resolveDependencies, takenDependencies, dependenciesLive, all_cons]
    cases found : modFind t d with
    | none => simp
    | some k =>
      dsimp only [any_some]
      by_cases live : t.live k
      · rw [if_pos live, if_pos live, live, Bool.true_and, modGet_eq, ih, addRefs_addRefs,
          takenDependencies_addRefs, dependenciesLive_addRefs, counts_cons]
        rfl
      · rw [if_neg live, if_neg live, Bool.eq_false_of_not_eq_true live, Bool.false_and, addRefs_nil]

section

variable (kernel)

/-- The modules to which relocations take references. -/
def takenImports (t : Table) (s : Nat) : List Reloc → List Nat
  | [] => []
  | .bad :: _ => []
  | .inner :: relocs => takenImports t s relocs
  | .external symbol :: relocs =>
    if kernel symbol then takenImports t s relocs else
    match findExport t symbol s with
    | none => []
    | some k => k :: takenImports t s relocs

def Reloc.resolves (t : Table) (s : Nat) : Reloc → Bool
  | .bad => false
  | .inner => true
  | .external symbol => kernel symbol || (findExport t symbol s).isSome

def relocsResolve (t : Table) (s : Nat) (relocs : List Reloc) : Bool :=
  relocs.all (Reloc.resolves kernel t s)

lemma takenImports_addRefs (relocs : List Reloc) :
    takenImports kernel (t.addRefs f) s relocs = takenImports kernel t s relocs := by
  induction relocs with
  | nil => rfl
  | cons r relocs ih =>
    cases r with
    | inner => exact ih
    | bad => rfl
    | external symbol => simp only [takenImports, findExport_addRefs, ih]

lemma relocsResolve_addRefs (relocs : List Reloc) :
    relocsResolve kernel (t.addRefs f) s relocs = relocsResolve kernel t s relocs := by
  have same : resolves kernel (t.addRefs f) s = resolves kernel t s := by
    funext r
    cases r with
    | inner | bad => rfl
    | external symbol => rw [resolves, resolves, findExport_addRefs]
  rw [relocsResolve, same, relocsResolve]

lemma processRelocations_eq (t : Table) (relocs : List Reloc) :
    processRelocations kernel t s relocs =
      (t.addRefs (counts (takenImports kernel t s relocs)), relocsResolve kernel t s relocs) := by
  induction relocs generalizing t with
  | nil => simp [processRelocations, takenImports, relocsResolve]
  | cons r relocs ih =>
    cases r with
    | inner =>
      rw [processRelocations, ih, takenImports]
      rfl
    | bad => simp [processRelocations, takenImports, relocsResolve, resolves]
    | external symbol =>
      rw [processRelocations, modResolveSymbol, takenImports, relocsResolve, all_cons, resolves]
      by_cases own : kernel symbol
      · rw [if_pos own, if_pos own, own, Bool.true_or, Bool.true_and]
        exact ih t
      rw [if_neg own, if_neg own, Bool.eq_false_of_not_eq_true own, Bool.false_or]
      cases found : findExport t symbol s with
      | none => simp
      | some k =>
        rw [map_some, modGet_eq]
        dsimp only
        rw [ih, addRefs_addRefs, takenImports_addRefs, relocsResolve_addRefs, counts_cons,
          isSome_some, Bool.true_and]
        rfl

end

lemma putDependencies_eq (t : Table) (ds : List Text) :
    putDependencies t ds = t.addRefs fun k => -counts (ds.filterMap (modFind t)) k := by
  induction ds generalizing t with
  | nil => simp [putDependencies, counts, addRefs_zero]
  | cons d ds ih =>
    rw [putDependencies]
    cases found : modFind t d with
    | none =>
      rw [filterMap_cons_none found]
      exact ih t
    | some k =>
      have same : (modFind (modPut t k)) = modFind t := by
        funext name
        rw [modPut_eq, modFind_addRefs]
      rw [filterMap_cons_some found, ← counts_cons]
      dsimp only
      rw [ih, same, modPut_eq, addRefs_addRefs]
      congr 1
      funext j
      ring

lemma counts_append (a b : List Nat) : (fun j => counts a j + counts b j) = counts (a ++ b) := by
  funext j
  simp only [counts, count_append]
  rfl

section

variable (kernel : Text → Bool) (t : Table) (i : Image)

/-- The modules to which a load takes references. -/
def takenFor : List Nat :=
  takenDependencies (takeSlot t i) i.depends ++
    if dependenciesLive (takeSlot t i) i.depends then
      takenImports kernel (takeSlot t i) t.modCount i.relocs
    else []

/-- The load comes to the init function. -/
def prepares : Bool :=
  dependenciesLive (takeSlot t i) i.depends && relocsResolve kernel (takeSlot t i) t.modCount i.relocs

lemma prepare_eq :
    prepare kernel t i =
      if prepares kernel t i then
        (((takeSlot t i).addRefs (counts (takenFor kernel t i))).update t.modCount fun m =>
          { m with exports := i.exports }, true)
      else (failLoad ((takeSlot t i).addRefs (counts (takenFor kernel t i))) t.modCount, false) := by
  rw [prepare, resolveDependencies_eq, prepares, takenFor]
  by_cases live : dependenciesLive (takeSlot t i) i.depends
  · rw [if_pos live, if_pos live, live, Bool.true_and, processRelocations_eq, takenImports_addRefs,
      relocsResolve_addRefs, addRefs_addRefs, counts_append]
  · rw [if_neg live, if_neg live, Bool.eq_false_of_not_eq_true live, Bool.false_and, append_nil,
      if_neg Bool.false_ne_true]

end

end Znu.Modl
