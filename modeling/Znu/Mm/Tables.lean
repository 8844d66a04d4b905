import Znu.Mm.UserTree

/-! # Page tables with pages of every size

The tables of an address space form a radix tree of depth three. Its entries are
pointers to further tables, or leaves: pages of 4 KiB at the last level and large
pages above it. `leaf` collects the leaves as a partial function on paths, and a
translation depends on nothing else. Nothing is assumed about the mapped frames, so
one frame may be mapped at several places.

`half` selects the entries of the root that are considered: all of them, or those of
one half of the address space.
-/

namespace Znu.Mm

open Lib Lib.Radix Option List Phys Bytes Nat

def Phys.entry (s : Phys) (t : Nat) (i : Fin 512) : Nat := s.read64 (t * 4096 + 8 * i)

def isTable (e : Nat) : Bool := present e && !huge e

/-- The table that slot `i` of the table in frame `t` points to. -/
def tableChild (m : Bytes) (t : Nat) (i : Fin 512) : Option Nat :=
  let e := m.word (t * 4096 + 8 * i) 8
  if isTable e then some (e / 4096) else none

def Phys.table (s : Phys) (root : Nat) (p : List (Fin 512)) : Option Nat :=
  node (tableChild s.mem) root p

def Phys.live (s : Phys) (root : Nat) : List (Fin 512) → Option Nat
  | [] => none
  | i :: p => ((s.table root p).map (s.entry · i)).filter present

def Phys.leaf (s : Phys) (root : Nat) (q : List (Fin 512)) : Option Nat :=
  (s.live root q).filter fun e => q.length == 4 || huge e

variable {e flags g t : Nat} {i j : Fin 512} {p q r : List (Fin 512)}

lemma tableChild_congr {m m' : Bytes} (same : ∀ x, x / 4096 = t → m' x = m x)
    (i : Fin 512) : tableChild m' t i = tableChild m t i := by
  have word : m'.word (t * 4096 + 8 * i) 8 = m.word (t * 4096 + 8 * i) 8 :=
    word_congr fun x lower upper => same x (by omega)
  simp only [tableChild, word]

lemma entry_write_same (s : Phys) (t : Nat) (i : Fin 512) (fits : e < 2 ^ 64) :
    (s.write64 (t * 4096 + 8 * i) e).entry t i = e :=
  word_store_same (by simpa using fits)

lemma entry_write_other (s : Phys) {u : Nat} (e : Nat)
    (other : ¬ (u = t ∧ j = i)) : (s.write64 (t * 4096 + 8 * i) e).entry u j = s.entry u j := by
  refine word_store_disjoint ?_
  by_cases frame : u = t
  · omega
  · omega

lemma tableChild_write (s : Phys) (t : Nat) (i : Fin 512) (fits : e < 2 ^ 64) :
    tableChild (s.write64 (t * 4096 + 8 * i) e).mem =
      setChild (tableChild s.mem) t i (if isTable e then some (e / 4096) else none) := by
  funext u j
  simp only [tableChild, write64_mem, word_entry _ _ _ _ _ fits, setChild]
  split
  · rfl
  · rfl

variable {root : Nat} {s : Phys}

section

variable (half : Fin 512 → Prop)

/-- Paths to tables, through the chosen entries of the root. -/
def TablePath (p : List (Fin 512)) : Prop := p.length ≤ 3 ∧ ∀ i ∈ p.getLast?, half i

def EntryPath (q : List (Fin 512)) : Prop := 0 < q.length ∧ q.length ≤ 4 ∧ ∀ i ∈ q.getLast?, half i

variable {half}

lemma tablePath_nil : TablePath half [] := ⟨by simp, by simp⟩

lemma tablePath_of_cons (i : Fin 512) (p : List (Fin 512)) (at_q : EntryPath half (i :: p)) :
    TablePath half p := by
  obtain ⟨-, short, top⟩ := at_q
  refine ⟨by simp at short; omega, ?_⟩
  cases p with
  | nil => simp
  | cons j p => simpa using top

lemma entryPath_of_table (at_p : TablePath half (i :: p)) :
    EntryPath half (i :: p) := ⟨by simp, at_p.1.trans (by decide), at_p.2⟩

lemma tablePath_tail (i : Fin 512) (p : List (Fin 512)) (at_p : TablePath half (i :: p)) :
    TablePath half p := tablePath_of_cons i p (entryPath_of_table at_p)

lemma entryPath_suffix (at_q : EntryPath half q) (above : r <:+ q)
    (nonempty : r ≠ []) : EntryPath half r := by
  refine ⟨length_pos_iff.mpr nonempty, above.length_le.trans at_q.2.1, ?_⟩
  obtain ⟨l, rfl⟩ := above
  rw [← getLast?_append_of_ne_nil l nonempty]
  exact at_q.2.2

lemma tablePath_suffix (at_q : TablePath half q) (above : r <:+ q) : TablePath half r := by
  by_cases empty : r = []
  · rw [empty]
    exact tablePath_nil
  refine ⟨above.length_le.trans at_q.1, ?_⟩
  obtain ⟨l, rfl⟩ := above
  rw [← getLast?_append_of_ne_nil l empty]
  exact at_q.2

structure Tables (half : Fin 512 → Prop) (root : Nat) (s : Phys) : Prop where
  tree : IsTree (tableChild s.mem) root (TablePath half)
  used : ∀ p t, TablePath half p → s.table root p = some t → t ∉ s.free
  upper : ∀ i, half i → present (s.entry root i) = true → huge (s.entry root i) = false
  valid : ∀ f ∈ s.free, f < 2 ^ 52
  nodup : s.free.Nodup

namespace Tables

variable {s' : Phys}

variable {a : Nat}

lemma table_unique (inv : Tables half root s) (at_p : TablePath half p)
    (at_q : TablePath half q) (left : s.table root p = some t) (right : s.table root q = some t) :
    p = q :=
  inv.tree.injective p q t at_p at_q left right

/-! ## Writing one entry -/

section

section

variable (inv : Tables half root s) (at_q : EntryPath half (i :: p)) (found : s.table root p = some t)
   (fits : e < 2 ^ 64)

include inv at_q found fits

lemma live_write (at_r : EntryPath half (j :: r))
    (same : (s.write64 (t * 4096 + 8 * i) e).table root r = s.table root r) :
    (s.write64 (t * 4096 + 8 * i) e).live root (j :: r) =
      if j :: r = i :: p then (some e).filter present else s.live root (j :: r) := by
  rw [live, live, same]
  by_cases here : j :: r = i :: p
  · obtain ⟨rfl, rfl⟩ := cons.inj here
    rw [if_pos rfl, found, map_some, entry_write_same s t j fits]
  rw [if_neg here]
  cases reached : s.table root r with
  | none => rw [map_none, map_none]
  | some u =>
    have other : ¬ (u = t ∧ j = i) := by
      rintro ⟨isT, isI⟩
      have path := inv.table_unique (tablePath_of_cons _ _ at_r) (tablePath_of_cons _ _ at_q)
        (isT ▸ reached) found
      exact here (by rw [isI, path])
    rw [map_some, map_some, entry_write_other s e other]

/-- Entries of the root stay small when the written one is. -/
lemma upper_write (top : p = [] → present e = true → huge e = false) (j : Fin 512)
    (chosen : half j) (there : present ((s.write64 (t * 4096 + 8 * i) e).entry root j) = true) :
    huge ((s.write64 (t * 4096 + 8 * i) e).entry root j) = false := by
  by_cases same : root = t ∧ j = i
  · obtain ⟨rfl, rfl⟩ := same
    rw [entry_write_same s root j fits] at there ⊢
    exact top (inv.table_unique (tablePath_of_cons _ _ at_q) tablePath_nil found rfl) there
  · rw [entry_write_other s e same] at there ⊢
    exact inv.upper j chosen there

/-- A write that leaves the tree as it is: of a leaf, or of the flags of an entry. -/
lemma rewrite
    (same : p.length = 3 ∨ (if isTable e then some (e / 4096) else none) = tableChild s.mem t i)
    (top : p = [] → present e = true → huge e = false) :
    Tables half root (s.write64 (t * 4096 + 8 * i) e) ∧
      (∀ q, TablePath half q → (s.write64 (t * 4096 + 8 * i) e).table root q = s.table root q) ∧
      ∀ q, EntryPath half q → (s.write64 (t * 4096 + 8 * i) e).live root q =
        if q = i :: p then (some e).filter present else s.live root q := by
  have pointers : ∀ j r u, TablePath half (j :: r) → node (tableChild s.mem) root r = some u →
      tableChild (s.write64 (t * 4096 + 8 * i) e).mem u j = tableChild s.mem u j := by
    intro j r u at_r reached
    rw [tableChild_write s t i fits]
    simp only [setChild]
    split
    next here =>
      obtain ⟨rfl, rfl⟩ := here
      rcases same with full | same
      · have path := inv.table_unique (tablePath_tail _ _ at_r) (tablePath_of_cons _ _ at_q) reached found
        have short := at_r.1
        rw [length_cons, path, full] at short
        omega
      · exact same
    · rfl
  have tables : ∀ q, TablePath half q → (s.write64 (t * 4096 + 8 * i) e).table root q = s.table root q :=
    fun q at_q => IsTree.node_congr tablePath_tail pointers at_q
  refine ⟨⟨inv.tree.congr pointers, ?_, inv.upper_write at_q found fits top, inv.valid, inv.nodup⟩,
    tables, ?_⟩
  · intro q u at_q reached
    exact inv.used q u at_q ((tables q at_q).symm.trans reached)
  · intro q at_r
    cases q with
    | nil => exact absurd at_r.1 (by simp)
    | cons j r => exact inv.live_write at_q found fits at_r (tables r (tablePath_of_cons j r at_r))

end

lemma attach (inv : Tables half root s) (at_child : TablePath half (i :: p))
    (found : s.table root p = some t) (fits : e < 2 ^ 64) (pointer : isTable e = true)
    (fresh : ∀ q, TablePath half q → s.table root q ≠ some (e / 4096)) (used : e / 4096 ∉ s.free)
    (vacant : s.table root (i :: p) = none) (zero : ∀ x, x / 4096 = e / 4096 → s.mem x = 0) :
    Tables half root (s.write64 (t * 4096 + 8 * i) e) ∧
      (∀ q, TablePath half q → (s.write64 (t * 4096 + 8 * i) e).table root q =
        if q = i :: p then some (e / 4096) else s.table root q) ∧
      ∀ q, EntryPath half q → (s.write64 (t * 4096 + 8 * i) e).live root q =
        if q = i :: p then some e else s.live root q := by
  have at_q := entryPath_of_table at_child
  obtain ⟨there, small⟩ := Bool.and_eq_true_iff.mp pointer
  have small : huge e = false := by simpa using small
  have empty : ∀ j, s.entry (e / 4096) j = 0 := fun j =>
    word_zero fun x lower upper => zero x (by omega)
  have pointers : tableChild (s.write64 (t * 4096 + 8 * i) e).mem =
      setChild (tableChild s.mem) t i (some (e / 4096)) := by
    rw [tableChild_write s t i fits, if_pos pointer]
  obtain ⟨tree, walks⟩ := inv.tree.attach at_child found fresh (.inr ⟨vacant, fun j => by
    have word := empty j
    rw [entry, read64] at word
    simp [tableChild, word, isTable, present]⟩)
  rw [← pointers] at tree walks
  refine ⟨⟨tree, ?_, inv.upper_write at_q found fits (fun _ _ => small), inv.valid, inv.nodup⟩, walks, ?_⟩
  · intro q u at_q reached
    rw [table, walks q at_q] at reached
    split at reached
    · exact some.inj reached ▸ used
    · exact inv.used q u at_q reached
  · intro q at_r
    cases q with
    | nil => exact absurd at_r.1 (by simp)
    | cons j r =>
      have at_table := tablePath_of_cons j r at_r
      by_cases below : r = i :: p
      · subst below
        have other : ¬ (e / 4096 = t ∧ j = i) := fun same =>
          fresh p (tablePath_of_cons _ _ at_q) (same.1 ▸ found)
        have longer : j :: i :: p ≠ i :: p := fun same => by
          have := congrArg length same
          simp at this
        rw [if_neg longer, live, live, table, walks _ at_table, if_pos rfl, vacant,
          map_some, entry_write_other s e other, empty j]
        rfl
      · have same : (s.write64 (t * 4096 + 8 * i) e).table root r = s.table root r := by
          rw [table, walks r at_table, if_neg below]
          rfl
        rw [inv.live_write at_q found fits at_r same, filter_some, there]
        rfl

/-- Replace an entry by a large page, or by nothing: what was below it is gone. -/
lemma detach (inv : Tables half root s) (at_q : EntryPath half (i :: p))
    (found : s.table root p = some t) (fits : e < 2 ^ 64) (notTable : isTable e = false)
    (top : p = [] → present e = true → huge e = false) :
    Tables half root (s.write64 (t * 4096 + 8 * i) e) ∧
      (∀ q, TablePath half q → ¬ (i :: p) <:+ q →
        (s.write64 (t * 4096 + 8 * i) e).table root q = s.table root q) ∧
      ∀ q, EntryPath half q → (s.write64 (t * 4096 + 8 * i) e).live root q =
        if q = i :: p then (some e).filter present else if (i :: p) <:+ q then none else
          s.live root q := by
  have at_p := tablePath_of_cons i p at_q
  have pointers : tableChild (s.write64 (t * 4096 + 8 * i) e).mem = setChild (tableChild s.mem) t i none := by
    rw [tableChild_write s t i fits, notTable]
    rfl
  obtain ⟨tree, walks⟩ := inv.tree.detach at_p found i
  rw [← pointers] at tree walks
  refine ⟨⟨tree, ?_, inv.upper_write at_q found fits top, inv.valid, inv.nodup⟩,
    fun q at_q => (walks q at_q).2, ?_⟩
  · intro q u at_r reached
    by_cases below : (i :: p) <:+ q
    · cases ((walks q at_r).1 below).symm.trans reached
    · exact inv.used q u at_r (((walks q at_r).2 below).symm.trans reached)
  · intro q at_r
    cases q with
    | nil => exact absurd at_r.1 (by simp)
    | cons j r =>
      have at_table := tablePath_of_cons j r at_r
      by_cases below : (i :: p) <:+ r
      · have longer : j :: r ≠ i :: p := fun same => by
          have short := below.length_le
          rw [← same] at short
          simp at short
        rw [if_neg longer, if_pos (below.trans (suffix_cons j r)), live, table, (walks r at_table).1 below]
        rfl
      · rw [inv.live_write at_q found fits at_r ((walks r at_table).2 below)]
        by_cases here : j :: r = i :: p
        · rw [if_pos here, if_pos here]
        have notUnder : ¬ (i :: p) <:+ (j :: r) := fun under =>
          (suffix_cons_iff.mp under).elim (fun same => here same.symm) below
        rw [if_neg here, if_neg here, if_neg notUnder]

end

/-! ## Allocating a frame -/

def Holds (half : Fin 512 → Prop) (root : Nat) (s : Phys) (g : Nat) : Prop :=
  ∃ q, TablePath half q ∧ s.table root q = some g

/-- The frame holds a table on the way to `q`. -/
def Along (root : Nat) (s : Phys) (q : List (Fin 512)) (g : Nat) : Prop :=
  ∃ r, r <:+ q ∧ s.table root r = some g

/-- Memory that agrees on all tables has the same tree. -/
lemma congr (inv : Tables half root s)
    (same : ∀ g, Holds half root s g → ∀ x, x / 4096 = g → s'.mem x = s.mem x)
    (taken : s'.free <:+ s.free) :
    Tables half root s' ∧ (∀ q, TablePath half q → s'.table root q = s.table root q) ∧
      ∀ q, EntryPath half q → s'.live root q = s.live root q := by
  have pointers : ∀ i p u, TablePath half (i :: p) → node (tableChild s.mem) root p = some u →
      tableChild s'.mem u i = tableChild s.mem u i :=
    fun i p u at_p found => tableChild_congr (same u ⟨p, tablePath_tail i p at_p, found⟩) i
  have tables : ∀ q, TablePath half q → s'.table root q = s.table root q :=
    fun q at_q => IsTree.node_congr tablePath_tail pointers at_q
  have entries : ∀ q t i, TablePath half q → s.table root q = some t → s'.entry t i = s.entry t i :=
    fun q t i at_q found => word_congr fun x lower upper =>
      same t ⟨q, at_q, found⟩ x (by omega)
  refine ⟨⟨inv.tree.congr pointers, fun q t at_q found listed => ?_, fun i chosen => ?_,
    fun f listed => inv.valid f (taken.subset listed), inv.nodup.sublist taken.sublist⟩, tables, ?_⟩
  · exact inv.used q t at_q ((tables q at_q).symm.trans found) (taken.subset listed)
  · rw [entries [] root i tablePath_nil rfl]
    exact inv.upper i chosen
  intro q at_q
  cases q with
  | nil => rfl
  | cons i p =>
    have at_p := tablePath_of_cons i p at_q
    rw [live, live, tables p at_p]
    cases found : s.table root p with
    | none => rw [map_none, map_none]
    | some t => rw [map_some, map_some, entries p t i at_p found]

lemma palloc (inv : Tables half root s) (allocated : s.pallocZero = some (s', a)) :
    ∃ f, a = f * 4096 ∧ s.free = f :: s'.free ∧ f ∉ s'.free ∧ f < 2 ^ 52 ∧ Tables half root s' ∧
      (∀ q, TablePath half q → s'.table root q = s.table root q) ∧
      (∀ q, EntryPath half q → s'.live root q = s.live root q) ∧
      (∀ q, TablePath half q → s'.table root q ≠ some f) ∧ (∀ x, x / 4096 = f → s'.mem x = 0) ∧
      s.Touches (· / 4096 = f) s' := by
  obtain ⟨f, address, free, used, mem, touches⟩ := pallocZero_spec allocated inv.nodup
  have listed : f ∈ s.free := by simp [free]
  have notTable : ∀ q, TablePath half q → s.table root q ≠ some f :=
    fun q at_q found => inv.used q f at_q found listed
  have same : ∀ g, Holds half root s g → ∀ x, x / 4096 = g → s'.mem x = s.mem x := by
    rintro g ⟨q, at_q, found⟩ x inside
    have other : x / 4096 ≠ f := fun isNew => notTable q at_q (by rw [found, ← inside, isNew])
    rw [mem, store_outside (by omega)]
  obtain ⟨inv', tables, lives⟩ := inv.congr same touches.taken
  refine ⟨f, address, free, used, inv.valid f listed, inv', tables, lives, ?_, ?_, touches⟩
  · intro q at_q
    rw [tables q at_q]
    exact notTable q at_q
  · intro x inside
    rw [mem, store_inside (by omega) (by omega)]

/-! ## One upper level of `map_page` -/

/-- What a step from the table at `p` to the one at `i :: p` does. -/
structure Descends (half : Fin 512 → Prop) (root : Nat) (s s' : Phys) (i : Fin 512)
    (p : List (Fin 512)) (u flags : Nat) : Prop where
  inv : Tables half root s'
  tables : ∀ q, TablePath half q → s'.table root q = if q = i :: p then some u else s.table root q
  persists : ∀ g, s.table root (i :: p) = some g → g = u
  origin : s.table root (i :: p) = some u ∨ u ∈ s.free
  others : ∀ q, EntryPath half q → q ≠ i :: p → s'.live root q = s.live root q
  kept : ∀ e, s.live root (i :: p) = some e → s'.live root (i :: p) = some (e ||| flags &&& pteUser)
  fresh : s.live root (i :: p) = none →
    s'.live root (i :: p) = some (u * 4096 ||| ptePresent ||| pteWritable ||| flags &&& pteUser)
  small : s'.leaf root (i :: p) = none
  settled : s.live root (i :: p) ≠ none → s'.free = s.free
  supply : s.free.length ≤ s'.free.length + 1
  touches : s.Touches (fun x => Along root s' (i :: p) (x / 4096)) s'

omit s' in
lemma live_cons (found : s.table root p = some t) :
    s.live root (i :: p) = (some (s.entry t i)).filter present := by
  rw [live, found, map_some]

lemma write_touches (inv : Tables half root s) (at_q : EntryPath half (i :: p))
    (found : s.table root p = some t)
    (still : (s.write64 (t * 4096 + 8 * i) e).table root p = some t) :
    s.Touches (fun x => Along root (s.write64 (t * 4096 + 8 * i) e) p (x / 4096))
      (s.write64 (t * 4096 + 8 * i) e) := by
  refine s.store_touches _ fun x lower upper => ?_
  have frame : x / 4096 = t := by omega
  rw [frame]
  exact ⟨⟨p, suffix_rfl, still⟩, inv.used p t (tablePath_of_cons i p at_q) found⟩

omit s' in
lemma Along.mono (along : Along root s q g) (above : q <:+ r) : Along root s r g := by
  obtain ⟨p, below, found⟩ := along
  exact ⟨p, below.trans above, found⟩

section

variable (inv : Tables half root s) (at_child : TablePath half (i :: p))
   (found : s.table root p = some t)

include inv at_child found

/-- A level that is already there. -/
lemma nextTable_present (notLarge : s.leaf root (i :: p) = none) (isE : s.entry t i = e)
    (there : present e = true) (flags : Nat) :
    Descends half root s (s.write64 (t * 4096 + 8 * i) (e ||| flags &&& pteUser)) i p (e / 4096) flags := by
  have at_q := entryPath_of_table at_child
  have at_p := tablePath_tail i p at_child
  have live : s.live root (i :: p) = some e := by
    rw [live_cons found, isE, filter_some, if_pos there]
  have inner : ((i :: p).length == 4) = false := by
    have short := at_child.1
    rw [beq_eq_false_iff_ne]
    omega
  have small : huge e = false := by
    rw [leaf, live, filter_some, inner, Bool.false_or] at notLarge
    cases isHuge : huge e with
    | false => rfl
    | true =>
      rw [isHuge] at notLarge
      cases notLarge
  have bound : e < 2 ^ 64 := by
    rw [← isE]
    exact s.mem.word_lt _ 8
  have fits : (e ||| flags &&& pteUser) < 2 ^ 64 :=
    or_lt_two_pow bound (lt_of_lt_of_le (user_low flags) (by decide))
  have there' : present (e ||| flags &&& pteUser) = true := by
    simp only [present, testBit_or] at there ⊢
    simp [there]
  have small' : huge (e ||| flags &&& pteUser) = false := by
    simp only [huge, testBit_or, testBit_and] at small ⊢
    rw [small, show pteUser.testBit 7 = false from rfl]
    simp
  have pointer : isTable e = true := by simp [isTable, there, small]
  have pointer' : isTable (e ||| flags &&& pteUser) = true := by simp [isTable, there', small']
  have target : tableChild s.mem t i = some (e / 4096) := by
    have word : s.mem.word (t * 4096 + 8 * i) 8 = e := isE
    simp only [tableChild, word, pointer, if_true]
  obtain ⟨inv', tables, lives⟩ := inv.rewrite at_q found fits (.inr (by
    rw [if_pos pointer', or_div e (user_low flags), target])) fun _ _ => small'
  have live' : (s.write64 (t * 4096 + 8 * i) (e ||| flags &&& pteUser)).live root (i :: p) =
      some (e ||| flags &&& pteUser) := by
    rw [lives _ at_q, if_pos rfl, filter_some, if_pos there']
  have reached : s.table root (i :: p) = some (e / 4096) := (node_cons found i).trans target
  refine ⟨inv', fun q at_r => ?_, fun g isG => ?_, .inl reached, fun q at_r other => ?_, fun e' isE' => ?_,
    fun absent => ?_, ?_, fun _ => rfl, le_succ _,
    (inv.write_touches at_q found ?_).mono fun _ along => along.mono (suffix_cons i p)⟩
  · rw [tables q at_r]
    split
    next same => rw [same, reached]
    · rfl
  · exact some.inj (isG.symm.trans reached)
  · rw [lives q at_r, if_neg other]
  · cases live.symm.trans isE'
    exact live'
  · cases live.symm.trans absent
  · rw [leaf, live', filter_some, inner, small']
    rfl
  · rw [tables p at_p, found]

lemma nextTable_allocate (absent : present (s.entry t i) = false)
    (allocated : s.pallocZero = some (s', a)) :
    Descends half root s
      (s'.write64 (t * 4096 + 8 * i) (a ||| ptePresent ||| pteWritable ||| flags &&& pteUser)) i p
      ((a ||| ptePresent ||| pteWritable ||| flags &&& pteUser) / 4096) flags := by
  obtain ⟨f, rfl, free, used, valid, inv₁, tables₁, lives₁, fresh, zero, touches⟩ :=
    inv.palloc allocated
  obtain ⟨e, isE⟩ : ∃ e, e = f * 4096 ||| ptePresent ||| pteWritable ||| flags &&& pteUser := ⟨_, rfl⟩
  obtain ⟨number, there, small, fits⟩ := UserTree.table_entry f flags valid isE
  have at_q := entryPath_of_table at_child
  have at_p := tablePath_tail i p at_child
  have found₁ : s'.table root p = some t := by rw [tables₁ p at_p, found]
  have vacant : s.live root (i :: p) = none := by
    rw [live_cons found, filter_some, absent]
    rfl
  have noTable : s.table root (i :: p) = none := by
    have word : present (s.mem.word (t * 4096 + 8 * i) 8) = false := absent
    refine (node_cons found i).trans ?_
    simp only [tableChild, isTable, word, Bool.false_and, Bool.false_eq_true, if_false]
  rw [← isE]
  obtain ⟨inv', tables, lives⟩ := inv₁.attach at_child found₁ fits (by simp [isTable, there, small])
    (by rw [number]; exact fresh) (by rw [number]; exact used)
    (by rw [tables₁ _ at_child, noTable]) (by rw [number]; exact zero)
  have still : (s'.write64 (t * 4096 + 8 * i) e).table root p = some t := by
    rw [tables p at_p, if_neg, found₁]
    intro same
    have := congrArg length same
    simp at this
  have reached : (s'.write64 (t * 4096 + 8 * i) e).table root (i :: p) = some (e / 4096) := by
    rw [tables _ at_child, if_pos rfl]
  refine ⟨inv', fun q at_r => ?_, fun g isG => ?_, .inr (by simp [number, free]),
    fun q at_r other => ?_, fun e' isE' => ?_, fun _ => ?_, ?_, fun there => absurd vacant there, ?_, ?_⟩
  · rw [tables q at_r, tables₁ q at_r]
  · cases noTable.symm.trans isG
  · rw [lives q at_r, if_neg other, lives₁ q at_r]
  · cases vacant.symm.trans isE'
  · rw [lives _ at_q, if_pos rfl, number, isE]
  · have inner : ((i :: p).length == 4) = false := by
      have short := at_child.1
      rw [beq_eq_false_iff_ne]
      omega
    rw [leaf, lives _ at_q, if_pos rfl, filter_some, inner, small]
    rfl
  · simp [free]
  · refine (touches.mono fun x isNew => ?_).trans
      ((inv₁.write_touches at_q found₁ still).mono fun _ along => along.mono (suffix_cons i p))
    rw [isNew]
    exact ⟨i :: p, suffix_rfl, by rw [reached, number]⟩

lemma nextTable_spec (notLarge : s.leaf root (i :: p) = none)
    (stepped : nextTable s (t * 4096) i flags = some (s', a)) :
    ∃ u, a = u * 4096 ∧ Descends half root s s' i p u flags := by
  unfold nextTable at stepped
  by_cases there : present (s.read64 (t * 4096 + 8 * i)) = true
  · rw [if_pos there] at stepped
    cases stepped
    refine ⟨s.entry t i / 4096, ?_, inv.nextTable_present at_child found notLarge rfl there flags⟩
    rw [pageDown, or_div _ (user_low flags)]
    rfl
  · rw [if_neg there] at stepped
    split at stepped
    · cases stepped
    next s₁ frame allocated =>
      cases stepped
      exact ⟨_, rfl, inv.nextTable_allocate at_child found (Bool.eq_false_iff.mpr there) allocated⟩

end

namespace Descends

variable {u : Nat}

section

variable (step : Descends half root s s' i p u flags)

include step

lemma found (at_child : TablePath half (i :: p)) : s'.table root (i :: p) = some u := by
  rw [step.tables _ at_child, if_pos rfl]

lemma holds (isTable : Holds half root s g) : Holds half root s' g := by
  obtain ⟨q, at_q, found⟩ := isTable
  refine ⟨q, at_q, ?_⟩
  rw [step.tables q at_q]
  split
  next same => rw [step.persists g (same ▸ found)]
  · exact found

lemma along (at_child : TablePath half (i :: p)) (along : Along root s p g) : Along root s' (i :: p) g := by
  obtain ⟨r, above, found⟩ := along
  refine ⟨r, above.trans (suffix_cons i p), ?_⟩
  have other : r ≠ i :: p := by
    rintro rfl
    have short := above.length_le
    simp at short
  have at_r := tablePath_suffix (tablePath_tail i p at_child) above
  rw [step.tables r at_r, if_neg other, found]

end

section

variable (step : Descends half root s s' i p u flags)

include step

lemma leaf (notLarge : s.leaf root (i :: p) = none) (at_q : EntryPath half q) :
    s'.leaf root q = s.leaf root q := by
  by_cases same : q = i :: p
  · rw [same, step.small, notLarge]
  · rw [Phys.leaf, Phys.leaf, step.others q at_q same]

/-- Entries only gain flags. -/
lemma grows (at_q : EntryPath half q) (there : s.live root q = some e) :
    ∃ e', s'.live root q = some e' ∧ ∀ b, e.testBit b = true → e'.testBit b = true := by
  by_cases same : q = i :: p
  · subst same
    refine ⟨_, step.kept e there, fun b set => ?_⟩
    rw [testBit_or, set, Bool.true_or]
  · exact ⟨e, by rw [step.others q at_q same, there], fun _ => id⟩

lemma plain (plain : flags &&& pteUser = 0) (at_q : EntryPath half q) (there : s.live root q = some e) :
    s'.live root q = some e := by
  by_cases same : q = i :: p
  · subst same
    rw [step.kept e there, plain, Nat.or_zero]
  · rw [step.others q at_q same, there]

/-- The new or changed entry lets user mode through if it should. -/
lemma marked (user : flags.testBit 2 = true) : ∃ e, s'.live root (i :: p) = some e ∧ e.testBit 2 = true := by
  have bit : (flags &&& pteUser).testBit 2 = true := by
    rw [testBit_and, user]
    rfl
  cases before : s.live root (i :: p) with
  | none => exact ⟨_, step.fresh before, by rw [testBit_or, bit, Bool.or_true]⟩
  | some e => exact ⟨_, step.kept e before, by rw [testBit_or, bit, Bool.or_true]⟩

lemma opened (at_q : EntryPath half q) (there : s'.live root q = some e)
    (before : s.live root q = none) : e.testBit 1 = true := by
  by_cases same : q = i :: p
  · subst same
    obtain rfl := some.inj ((step.fresh before).symm.trans there)
    simp only [testBit_or, show pteWritable.testBit 1 = true from rfl, Bool.or_true, Bool.true_or]
  · rw [step.others q at_q same, before] at there
    cases there

end

end Descends

/-! ## Several levels -/

/-- What walking down to the table at `q`, allocating what is missing, does. -/
structure Opens (half : Fin 512 → Prop) (root : Nat) (s s' : Phys) (q : List (Fin 512))
    (t flags : Nat) : Prop where
  inv : Tables half root s'
  found : s'.table root q = some t
  leaf : ∀ r, EntryPath half r → s'.leaf root r = s.leaf root r
  grows : ∀ r, EntryPath half r → ∀ e, s.live root r = some e →
    ∃ e', s'.live root r = some e' ∧ ∀ b, e.testBit b = true → e'.testBit b = true
  plain : flags &&& pteUser = 0 → ∀ r, EntryPath half r → ∀ e, s.live root r = some e → s'.live root r = some e
  marked : flags.testBit 2 = true → ∀ r, r ≠ [] → r <:+ q →
    ∃ e, s'.live root r = some e ∧ e.testBit 2 = true
  opened : ∀ r, EntryPath half r → ∀ e, s'.live root r = some e → s.live root r = none →
    e.testBit 1 = true
  bottom : ∀ r, EntryPath half r → r.length = 4 → s'.live root r = s.live root r
  born : ∀ r g, TablePath half r → s'.table root r = some g → s.table root r = some g ∨ g ∈ s.free
  holds : ∀ g, Holds half root s g → Holds half root s' g
  supply : s.free.length ≤ s'.free.length + q.length
  touches : s.Touches (fun x => Along root s' q (x / 4096)) s'

namespace Opens

lemma nil (inv : Tables half root s) (flags : Nat) : Opens half root s s [] root flags where
  inv := inv
  found := rfl
  leaf _ _ := rfl
  grows _ _ e there := ⟨e, there, fun _ => id⟩
  plain _ _ _ _ := id
  marked _ r nonempty above := absurd (suffix_nil.mp above) nonempty
  opened _ _ e there absent := by cases there.symm.trans absent
  bottom _ _ _ := rfl
  born _ _ _ := .inl
  holds _ := id
  supply := by simp
  touches := .refl _ s

lemma step {s₁ : Phys}
    (opens : Opens half root s s₁ p t flags) (at_child : TablePath half (i :: p))
    (notLarge : s.leaf root (i :: p) = none)
    (stepped : nextTable s₁ (t * 4096) i flags = some (s', a)) :
    ∃ u, a = u * 4096 ∧ Opens half root s s' (i :: p) u flags := by
  have at_q := entryPath_of_table at_child
  have notLarge₁ : s₁.leaf root (i :: p) = none := by rw [opens.leaf _ at_q, notLarge]
  obtain ⟨u, rfl, step⟩ := opens.inv.nextTable_spec at_child opens.found notLarge₁ stepped
  refine ⟨u, rfl, step.inv, step.found at_child, fun r at_r => ?_, fun r at_r e there => ?_,
    fun plain r at_r e there => step.plain plain at_r (opens.plain plain r at_r e there),
    fun user r nonempty above => ?_, fun r at_r e there absent => ?_, fun r at_r full => ?_,
    fun r g at_r found => ?_, fun g isTable => step.holds (opens.holds g isTable), ?_,
    (opens.touches.mono fun x => step.along at_child).trans step.touches⟩
  · rw [step.leaf notLarge₁ at_r, opens.leaf r at_r]
  · obtain ⟨e₁, there₁, bits₁⟩ := opens.grows r at_r e there
    obtain ⟨e₂, there₂, bits₂⟩ := step.grows at_r there₁
    exact ⟨e₂, there₂, fun b set => bits₂ b (bits₁ b set)⟩
  · rcases suffix_cons_iff.mp above with same | deeper
    · rw [same]
      exact step.marked user
    obtain ⟨e₁, there₁, bit₁⟩ := opens.marked user r nonempty deeper
    have at_r := entryPath_suffix at_q above nonempty
    obtain ⟨e₂, there₂, bits₂⟩ := step.grows at_r there₁
    exact ⟨e₂, there₂, bits₂ 2 bit₁⟩
  · cases between : s₁.live root r with
    | none => exact step.opened at_r there between
    | some e₁ =>
      have bit := opens.opened r at_r e₁ between absent
      obtain ⟨e₂, there₂, bits₂⟩ := step.grows at_r between
      cases there₂.symm.trans there
      exact bits₂ 1 bit
  · have other : r ≠ i :: p := by
      rintro rfl
      have short := at_child.1
      omega
    rw [step.others r at_r other, opens.bottom r at_r full]
  · rw [step.tables r at_r] at found
    split at found
    next same =>
      cases found
      rcases step.origin with already | new
      · exact opens.born r u at_r (same ▸ already)
      · exact .inr (opens.touches.taken.subset new)
    · exact opens.born r g at_r found
  · have more := step.supply
    have before := opens.supply
    rw [length_cons]
    omega

end Opens

end Tables

end

/-! ## The user half -/

/-- The entries of the root for user addresses. -/
def userHalf : Fin 512 → Prop := fun i => i.val < 256

lemma userPath_of_table (at_p : TablePath userHalf p) : userPath p :=
  ⟨at_p.1.trans (by decide), at_p.2⟩

lemma userPath_of_entry (at_q : EntryPath userHalf q) : userPath q :=
  ⟨at_q.2.1, at_q.2.2⟩

lemma entryPath_user {virt : Nat} (user : virt < userEnd) : EntryPath userHalf (path virt) :=
  ⟨by simp [path], by simp [path], (userPath_path user).2⟩

namespace UserTree

variable {own : Nat → Prop}

/-- Without large pages every present entry above the last level is a table. -/
lemma table_eq_walk (inv : UserTree own root s) (at_p : TablePath userHalf p) :
    s.table root p = s.walk root p := by
  induction p with
  | nil => rfl
  | cons i p ih =>
    have at_tail := tablePath_tail i p at_p
    cases found : s.walk root p with
    | none =>
      have left : s.table root (i :: p) = none :=
        node_below_none ((ih at_tail).trans found) (suffix_cons i p)
      exact left.trans (node_below_none found (suffix_cons i p)).symm
    | some t =>
      have short : p.length < 3 := at_p.1
      have small : huge (s.mem.word (t * 4096 + 8 * i) 8) = false :=
        inv.small p t i (userPath_of_table at_p) short found
      have left : s.table root (i :: p) = tableChild s.mem t i := node_cons ((ih at_tail).trans found) i
      have right : s.walk root (i :: p) = child s.mem t i := node_cons found i
      rw [left, right, tableChild, child]
      simp only [isTable, small, Bool.not_false, Bool.and_true]

lemma tables (inv : UserTree own root s) : Tables userHalf root s where
  tree := by
    refine ⟨tablePath_tail, fun p q t at_p at_q left right => ?_⟩
    exact inv.walk_unique (userPath_of_table at_p) (userPath_of_table at_q)
      ((inv.table_eq_walk at_p).symm.trans left) ((inv.table_eq_walk at_q).symm.trans right)
  used p t at_p found :=
    (inv.owned p t (userPath_of_table at_p) ((inv.table_eq_walk at_p).symm.trans found)).2
  upper i chosen _ := inv.small [] root i ⟨by simp, by rintro j ⟨⟩; exact chosen⟩ (by simp) rfl
  valid f listed := (inv.valid f (inv.freeOwned f listed)).2
  nodup := inv.nodup

lemma walk_eq_live (inv : UserTree own root s) (at_q : EntryPath userHalf q) :
    s.walk root q = (s.live root q).map (· / 4096) := by
  cases q with
  | nil => exact absurd at_q.1 (by simp)
  | cons i p =>
    rw [live, inv.table_eq_walk (tablePath_of_cons i p at_q)]
    cases found : s.walk root p with
    | none => exact node_below_none found (suffix_cons i p)
    | some t =>
      refine (node_cons found i).trans ?_
      rw [child, map_some, filter_some]
      change (if present (s.entry t i) then some (s.entry t i / 4096) else none) = _
      cases present (s.entry t i) <;> rfl

/-- All leaves are at the last level. -/
lemma leaf_short (inv : UserTree own root s) (at_q : EntryPath userHalf q) (short : q.length < 4) :
    s.leaf root q = none := by
  cases q with
  | nil => rfl
  | cons i p =>
    have at_p := tablePath_of_cons i p at_q
    rw [length_cons] at short
    rw [leaf, live, inv.table_eq_walk at_p]
    cases found : s.walk root p with
    | none => rfl
    | some t =>
      have small : huge (s.entry t i) = false :=
        inv.small p t i (userPath_of_entry at_q) (by omega) found
      have inner : ((i :: p).length == 4) = false := by
        rw [beq_eq_false_iff_ne, length_cons]
        omega
      rw [map_some, filter_some]
      split
      · rw [filter_some, inner, small]; rfl
      · rfl

lemma leaf_full (full : q.length = 4) : s.leaf root q = s.live root q := by
  rw [leaf, full]
  cases s.live root q <;> rfl

end UserTree

end Znu.Mm
