import Znu.Mm.Paging

/-! # The user half of an address space as a tree of frames

The tables of a process form a radix tree of depth four whose leaves are the
mapped pages. `UserTree` is the invariant every operation of the loader keeps: the
tree is injective, it uses only frames of `own`, none of them is free, and no
entry of an inner table is a large page. From it follow what a translation finds
and that mapping one page changes that page and nothing else.
-/

namespace Znu.Mm

open Lib Lib.Radix Bytes Phys Option List

/-- The pointer in slot `i` of the table in frame `t`. -/
def child (m : Bytes) (t : Nat) (i : Fin 512) : Option Nat :=
  let e := m.word (t * 4096 + 8 * i) 8
  if present e then some (e / 4096) else none

/-- The frame a path of indices leads to. -/
def Phys.walk (s : Phys) (root : Nat) (p : List (Fin 512)) : Option Nat :=
  node (child s.mem) root p

lemma Phys.walk_nil (s : Phys) (root : Nat) : s.walk root [] = some root := rfl

/-- Paths of at most four indices that start in the lower half of the root. -/
def userPath (p : List (Fin 512)) : Prop := p.length ≤ 4 ∧ ∀ i ∈ p.getLast?, i.val < 256

lemma userPath_tail (i : Fin 512) (p : List (Fin 512)) (inside : userPath (i :: p)) : userPath p := by
  obtain ⟨short, top⟩ := inside
  refine ⟨by simp at short; omega, ?_⟩
  cases p with
  | nil => simp
  | cons j p => simpa using top

lemma userPath_nil : userPath [] := ⟨by simp, by simp⟩

variable {t : Nat}

variable {e root virt : Nat} {m m' : Bytes} {own : Nat → Prop} {s s' s'' : Phys}

lemma child_congr (same : ∀ x, x / 4096 = t → m' x = m x) (i : Fin 512) : child m' t i = child m t i := by
  have word : m'.word (t * 4096 + 8 * i) 8 = m.word (t * 4096 + 8 * i) 8 :=
    word_congr fun x lower upper => same x (by omega)
  simp only [child, word]

lemma child_zero (zero : ∀ x, x / 4096 = t → m x = 0) (i : Fin 512) : child m t i = none := by
  have word : m.word (t * 4096 + 8 * i) 8 = 0 :=
    word_zero fun x lower upper => zero x (by omega)
  simp [child, word, present]

lemma word_entry (m : Bytes) (t u : Nat) (i j : Fin 512) (fits : e < 2 ^ 64) :
    (m.store (t * 4096 + 8 * i) 8 (digit e)).word (u * 4096 + 8 * j) 8 =
      if u = t ∧ j = i then e else m.word (u * 4096 + 8 * j) 8 := by
  split
  next same =>
    obtain ⟨rfl, rfl⟩ := same
    exact word_store_same (by simpa using fits)
  rename_i other
  refine word_store_disjoint ?_
  by_cases frame : u = t
  · omega
  · omega

lemma child_store (m : Bytes) (t : Nat) (i : Fin 512) (fits : e < 2 ^ 64) :
    child (m.store (t * 4096 + 8 * i) 8 (digit e)) =
      setChild (child m) t i (if present e then some (e / 4096) else none) := by
  funext u j
  simp only [child, word_entry _ _ _ _ _ fits, setChild]
  split
  · rfl
  · rfl

structure UserTree (own : Nat → Prop) (root : Nat) (s : Phys) : Prop where
  valid : ∀ f, own f → 0 < f ∧ f < 2 ^ 52
  tree : IsTree (child s.mem) root userPath
  owned : ∀ p f, userPath p → s.walk root p = some f → own f ∧ f ∉ s.free
  small : ∀ p t (i : Fin 512), userPath (i :: p) → p.length < 3 → s.walk root p = some t →
    huge (s.read64 (t * 4096 + 8 * i)) = false
  freeOwned : ∀ f ∈ s.free, own f
  nodup : s.free.Nodup

/-- The bytes the operations of this module may write: those of the frames of `own`,
    except the kernel's half of the root table. -/
def Writable (own : Nat → Prop) (root x : Nat) : Prop :=
  own (x / 4096) ∧ (x / 4096 = root → x % 4096 < 2048)

def Phys.IsTable (s : Phys) (root g : Nat) : Prop :=
  ∃ q, userPath q ∧ q.length < 4 ∧ s.walk root q = some g

/-- Only tables changed: pages are mapped as before and their contents are the
    same, and so are the contents of any other frame in use. -/
structure SamePages (own : Nat → Prop) (root : Nat) (s s' : Phys) : Prop where
  touches : s.Touches (Writable own root) s'
  leaves : ∀ q, userPath q → q.length = 4 → s'.walk root q = s.walk root q
  others : ∀ g, g ∉ s.free → ¬ s.IsTable root g →
    ¬ s'.IsTable root g ∧ ∀ x, x / 4096 = g → s'.mem x = s.mem x

lemma SamePages.trans
    (first : SamePages own root s s') (second : SamePages own root s' s'') :
    SamePages own root s s'' where
  touches := first.touches.trans second.touches
  leaves := fun q inside full => (second.leaves q inside full).trans (first.leaves q inside full)
  others := by
    intro g used notTable
    obtain ⟨notTable', same⟩ := first.others g used notTable
    have used' : g ∉ s'.free := fun listed => used (first.touches.taken.subset listed)
    obtain ⟨notTable'', same'⟩ := second.others g used' notTable'
    exact ⟨notTable'', fun x inside => (same' x inside).trans (same x inside)⟩

variable {f flags phys : Nat} {nx : Bool} {q : List (Fin 512)}

namespace UserTree

variable {p : List (Fin 512)} {a : Nat} {i : Fin 512}

section

variable (inv : UserTree own root s)

include inv

lemma walk_unique (at_p : userPath p) (at_q : userPath q)
    (left : s.walk root p = some f) (right : s.walk root q = some f) : p = q :=
  inv.tree.injective p q f at_p at_q left right

lemma page_not_table (at_p : userPath p) (full : p.length = 4) (found : s.walk root p = some f) :
    ¬ s.IsTable root f := by
  rintro ⟨q, at_q, inner, reached⟩
  have same := inv.walk_unique at_p at_q found reached
  rw [same] at full
  omega

/-- Memory that agrees on all tables has the same tree, whoever owns the frames. -/
lemma transfer {own' : Nat → Prop}
    (tables : ∀ g, s.IsTable root g → ∀ x, x / 4096 = g → s'.mem x = s.mem x)
    (valid : ∀ f, own' f → 0 < f ∧ f < 2 ^ 52)
    (owned : ∀ p f, userPath p → s.walk root p = some f → own' f ∧ f ∉ s'.free)
    (freeOwned : ∀ f ∈ s'.free, own' f) (nodup : s'.free.Nodup) :
    UserTree own' root s' ∧ ∀ q, userPath q → s'.walk root q = s.walk root q := by
  have table : ∀ i p u, userPath (i :: p) → s.walk root p = some u → s.IsTable root u :=
    fun i p u inside found =>
      ⟨p, userPath_tail i p inside, by have := inside.1; simp at this; omega, found⟩
  have pointers : ∀ i p u, userPath (i :: p) → node (child s.mem) root p = some u →
      child s'.mem u i = child s.mem u i :=
    fun i p u inside found => child_congr (tables u (table i p u inside found)) i
  have same : ∀ q, userPath q → s'.walk root q = s.walk root q :=
    fun q inside => IsTree.node_congr userPath_tail pointers inside
  refine ⟨⟨valid, inv.tree.congr pointers, ?_, ?_, freeOwned, nodup⟩, same⟩
  · intro p f inside found
    rw [same p inside] at found
    exact owned p f inside found
  intro p t i inside inner found
  rw [same p (userPath_tail i p inside)] at found
  have word : s'.read64 (t * 4096 + 8 * i) = s.read64 (t * 4096 + 8 * i) :=
    word_congr fun x lower upper => tables t (table i p t inside found) x (by omega)
  rw [word]
  exact inv.small p t i inside inner found

/-- The same with the owner kept, after allocations only. -/
lemma congr (tables : ∀ g, s.IsTable root g → ∀ x, x / 4096 = g → s'.mem x = s.mem x)
    (taken : s'.free <:+ s.free) :
    UserTree own root s' ∧ ∀ q, userPath q → s'.walk root q = s.walk root q := by
  refine inv.transfer tables inv.valid (fun p f inside found => ?_)
    (fun f listed => inv.freeOwned f (taken.subset listed)) (inv.nodup.sublist taken.sublist)
  obtain ⟨mine, used⟩ := inv.owned p f inside found
  exact ⟨mine, fun listed => used (taken.subset listed)⟩

end

lemma of_zero (valid : ∀ f, own f → 0 < f ∧ f < 2 ^ 52) (mine : own root) (used : root ∉ s.free)
    (zero : ∀ i : Fin 512, i.val < 256 → s.read64 (root * 4096 + 8 * i) = 0)
    (freeOwned : ∀ f ∈ s.free, own f) (nodup : s.free.Nodup) :
    UserTree own root s ∧ ∀ p, userPath p → p ≠ [] → s.walk root p = none := by
  have missing : ∀ p, userPath p → p ≠ [] → s.walk root p = none := by
    intro p inside more
    obtain ⟨q, i, rfl⟩ := (eq_nil_or_concat p).resolve_left more
    have gone : s.walk root [i] = none := by
      change child s.mem root i = none
      rw [child, show s.mem.word (root * 4096 + 8 * i) 8 = 0 from zero i (inside.2 i (by simp))]
      rfl
    exact node_below_none gone ⟨q, by simp⟩
  have rootOnly : ∀ p g, userPath p → s.walk root p = some g → p = [] ∧ g = root := by
    intro p g inside found
    by_cases top : p = []
    · subst top
      exact ⟨rfl, (some.inj found).symm⟩
    · cases (missing p inside top).symm.trans found
  refine ⟨⟨valid, ⟨userPath_tail, fun p q g inP inQ left right => ?_⟩, fun p g inside found => ?_,
    fun p t i inside _ found => ?_, freeOwned, nodup⟩, missing⟩
  · rw [(rootOnly p g inP left).1, (rootOnly q g inQ right).1]
  · rw [(rootOnly p g inside found).2]
    exact ⟨mine, used⟩
  · obtain ⟨rfl, rfl⟩ := rootOnly p t (userPath_tail i p inside) found
    rw [zero i (inside.2 i rfl)]
    rfl

section

variable (inv : UserTree own root s)

include inv

lemma palloc (allocated : s.pallocZero = some (s', a)) :
    ∃ f, a = f * 4096 ∧ own f ∧ f ∈ s.free ∧ f ∉ s'.free ∧ UserTree own root s' ∧
      (∀ q, userPath q → s'.walk root q = s.walk root q) ∧
      (∀ q, userPath q → s'.walk root q ≠ some f) ∧ (∀ x, x / 4096 = f → s'.mem x = 0) ∧
      (∀ x, x / 4096 ≠ f → s'.mem x = s.mem x) ∧ s.Touches (Writable own root) s' := by
  obtain ⟨f, address, free, used, mem, touches⟩ := pallocZero_spec allocated inv.nodup
  have listed : f ∈ s.free := by simp [free]
  have mine := inv.freeOwned f listed
  have notRoot : f ≠ root := fun same =>
    (inv.owned [] root userPath_nil rfl).2 (same ▸ listed)
  have zero : ∀ x, x / 4096 = f → s'.mem x = 0 := by
    intro x inside
    rw [mem, store_inside (by omega) (by omega)]
  have same : ∀ x, x / 4096 ≠ f → s'.mem x = s.mem x := by
    intro x outside
    rw [mem, store_outside (by omega)]
  have tables : ∀ g, s.IsTable root g → ∀ x, x / 4096 = g → s'.mem x = s.mem x := by
    rintro g ⟨q, at_q, -, reached⟩ x inside
    refine same x fun isNew => (inv.owned q g at_q reached).2 ?_
    rw [← inside, isNew]
    exact listed
  obtain ⟨inv', walks⟩ := inv.congr tables touches.taken
  refine ⟨f, address, mine, listed, used, inv', walks, ?_, zero, same, touches.mono ?_⟩
  case refine_2 =>
    rintro x rfl
    exact ⟨mine, fun isRoot => absurd isRoot notRoot⟩
  intro q at_q reached
  rw [walks q at_q] at reached
  exact (inv.owned q f at_q reached).2 listed

section

variable (at_child : userPath (i :: p)) (found : s.walk root p = some t)

include at_child found

/-- The entries of inner tables stay small when the written one is. -/
lemma small_write
    (fits : e < 2 ^ 64) (level : p.length < 3 → huge e = false) {u : Nat}
    {j : Fin 512} (at_q : userPath (j :: q)) (inner : q.length < 3)
    (reached : s.walk root q = some u) :
    huge ((s.write64 (t * 4096 + 8 * i) e).read64 (u * 4096 + 8 * j)) = false := by
  rw [read64, write64_mem, word_entry _ _ _ _ _ fits]
  split
  next same =>
    obtain ⟨rfl, rfl⟩ := same
    have path := inv.walk_unique (userPath_tail j q at_q) (userPath_tail j p at_child) reached found
    exact level (path ▸ inner)
  · exact inv.small q u j at_q inner reached

lemma reflag (fits : e < 2 ^ 64)
    (valid : present e = true) (target : s.walk root (i :: p) = some (e / 4096))
    (level : p.length < 3 → huge e = false) :
    UserTree own root (s.write64 (t * 4096 + 8 * i) e) ∧
      ∀ q, (s.write64 (t * 4096 + 8 * i) e).walk root q = s.walk root q := by
  have pointers : child (s.write64 (t * 4096 + 8 * i) e).mem = child s.mem := by
    rw [write64_mem, child_store _ _ _ fits, if_pos valid]
    funext u j
    simp only [setChild]
    split
    next same =>
      obtain ⟨rfl, rfl⟩ := same
      rw [← target]
      exact node_cons found _
    · rfl
  have walks : ∀ q, (s.write64 (t * 4096 + 8 * i) e).walk root q = s.walk root q := by
    intro q
    rw [walk, walk, pointers]
  refine ⟨⟨inv.valid, by rw [pointers]; exact inv.tree, ?_, ?_, inv.freeOwned, inv.nodup⟩, walks⟩
  · intro q f at_q reached
    rw [walks q] at reached
    exact inv.owned q f at_q reached
  · intro q u j at_q inner reached
    rw [walks q] at reached
    exact inv.small_write at_child found fits level at_q inner reached

/-- Attaching a frame that is not in the tree. Above the leaves the frame has to be
    an empty table and its slot vacant. -/
lemma attach (fits : e < 2 ^ 64)
    (valid : present e = true) (frame : e / 4096 = f)
    (fresh : ∀ q, userPath q → s.walk root q ≠ some f) (mine : own f) (used : f ∉ s.free)
    (level : p.length = 3 ∨ s.walk root (i :: p) = none ∧ huge e = false ∧ ∀ x, x / 4096 = f → s.mem x = 0) :
    UserTree own root (s.write64 (t * 4096 + 8 * i) e) ∧
      ∀ q, userPath q → (s.write64 (t * 4096 + 8 * i) e).walk root q =
        if q = i :: p then some f else s.walk root q := by
  have at_p := userPath_tail i p at_child
  have pointers : child (s.write64 (t * 4096 + 8 * i) e).mem = setChild (child s.mem) t i (some f) := by
    rw [write64_mem, child_store _ _ _ fits, if_pos valid, frame]
  have maximal : p.length = 3 → ∀ q, userPath q → (i :: p) <:+ q → q = i :: p := by
    intro full q at_q below
    have length := below.length_le
    have short := at_q.1
    rw [length_cons, full] at length
    exact (below.eq_of_length (by rw [length_cons, full]; omega)).symm
  obtain ⟨tree, walks⟩ := inv.tree.attach at_child found fresh (level.imp maximal
    fun ⟨vacant, _, zero⟩ => ⟨vacant, fun j => child_zero zero j⟩)
  rw [← pointers] at tree walks
  refine ⟨⟨inv.valid, tree, ?_, ?_, inv.freeOwned, inv.nodup⟩, walks⟩
  · intro q g at_q reached
    rw [walk, walks q at_q] at reached
    split at reached
    · exact some.inj reached ▸ ⟨mine, used⟩
    · exact inv.owned q g at_q reached
  · intro q u j at_q inner reached
    rw [walk, walks q (userPath_tail j q at_q)] at reached
    split at reached
    next isNew =>
      cases reached
      rcases level with full | ⟨-, -, zero⟩
      · rw [isNew, length_cons, full] at inner
        omega
      have other : f ≠ t := fun same => fresh p at_p (same ▸ found)
      have word : (s.write64 (t * 4096 + 8 * i) e).read64 (f * 4096 + 8 * j) =
          s.read64 (f * 4096 + 8 * j) := word_store_disjoint (by omega)
      have empty : s.read64 (f * 4096 + 8 * j) = 0 :=
        word_zero fun x lower upper => zero x (by omega)
      rw [word, empty]
      rfl
    · refine inv.small_write at_child found fits (fun inner => ?_) at_q inner reached
      rcases level with full | ⟨-, small, -⟩
      · omega
      · exact small

/-- Writing an entry on a user path is a permitted write. -/
lemma write_table_touches (e : Nat) : s.Touches (Writable own root) (s.write64 (t * 4096 + 8 * i) e) := by
  have at_p := userPath_tail i p at_child
  obtain ⟨mine, used⟩ := inv.owned p t at_p found
  refine s.store_touches _ fun x lower upper => ?_
  have frame : x / 4096 = t := by omega
  refine ⟨⟨frame ▸ mine, fun isRoot => ?_⟩, frame ▸ used⟩
  have same : t = root := frame.symm.trans isRoot
  have top : p = [] := inv.walk_unique at_p userPath_nil (same ▸ found) rfl
  have low : i.val < 256 := at_child.2 i (by rw [top]; rfl)
  omega

end

end

lemma write_table_elsewhere (s : Phys) {x : Nat} (i : Fin 512) (e : Nat) (other : x / 4096 ≠ t) :
    (s.write64 (t * 4096 + 8 * i) e).mem x = s.mem x :=
  store_outside (by omega)

section

variable (inv : UserTree own root s) (at_child : userPath (i :: p)) (inner : p.length < 3)
   (found : s.walk root p = some t)

include inv at_child inner found

/-- An upper level that is already there. -/
lemma nextTable_present (entry : s.read64 (t * 4096 + 8 * i) = e) (valid : present e = true)
    (flags : Nat) :
    UserTree own root (s.write64 (t * 4096 + 8 * i) (e ||| flags &&& pteUser)) ∧
      (s.write64 (t * 4096 + 8 * i) (e ||| flags &&& pteUser)).walk root (i :: p) = some (e / 4096) ∧
      SamePages own root s (s.write64 (t * 4096 + 8 * i) (e ||| flags &&& pteUser)) ∧
      ∀ q, (s.write64 (t * 4096 + 8 * i) (e ||| flags &&& pteUser)).walk root q = s.walk root q := by
  have at_p := userPath_tail i p at_child
  have isTable : s.IsTable root t := ⟨p, at_p, by omega, found⟩
  have frame := or_div e (user_low flags)
  have pointer : s.walk root (i :: p) = some (e / 4096) := by
    rw [walk, node_cons found i]
    simp only [child, show s.mem.word (t * 4096 + 8 * i) 8 = e from entry, valid, if_true]
  have bound : e < 2 ^ 64 := by
    rw [← entry]
    exact s.mem.word_lt _ 8
  have fits : (e ||| flags &&& pteUser) < 2 ^ 64 :=
    Nat.or_lt_two_pow bound (lt_of_lt_of_le (user_low flags) (by decide))
  have small : huge (e ||| flags &&& pteUser) = false := by
    have before := inv.small p t i at_child inner found
    rw [entry] at before
    simp only [huge, Nat.testBit_or, Nat.testBit_and] at before ⊢
    rw [before, show pteUser.testBit 7 = false from rfl]
    simp
  obtain ⟨inv', walks⟩ := inv.reflag at_child found fits (by
      simp only [present, Nat.testBit_or] at valid ⊢
      simp [valid]) (by rw [frame, pointer]) fun _ => small
  refine ⟨inv', by rw [walks, pointer], ⟨inv.write_table_touches at_child found _,
    fun q _ _ => walks q, ?_⟩, walks⟩
  intro g used notTable
  refine ⟨?_, fun x inside => write_table_elsewhere s i _ ?_⟩
  · rintro ⟨q, at_q, short, reached⟩
    exact notTable ⟨q, at_q, short, walks q ▸ reached⟩
  · rintro rfl
    exact notTable (inside ▸ isTable)

lemma nextTable_allocate (vacant : s.walk root (i :: p) = none)
    (allocated : s.pallocZero = some (s', a)) (frame : e / 4096 = a / 4096)
    (valid : present e = true) (small : huge e = false) (fits : e < 2 ^ 64) :
    UserTree own root (s'.write64 (t * 4096 + 8 * i) e) ∧
      (s'.write64 (t * 4096 + 8 * i) e).walk root (i :: p) = some (e / 4096) ∧
      SamePages own root s (s'.write64 (t * 4096 + 8 * i) e) := by
  obtain ⟨f, rfl, mine, listed, used, inv', walks, fresh, zero, same, touches⟩ := inv.palloc allocated
  rw [Nat.mul_div_cancel _ (by decide)] at frame
  have at_p := userPath_tail i p at_child
  have found' : s'.walk root p = some t := by rw [walks p at_p, found]
  obtain ⟨inv'', walks'⟩ := inv'.attach at_child found' fits valid frame fresh mine used
    (.inr ⟨by rw [walks _ at_child, vacant], small, zero⟩)
  have isTable : s.IsTable root t := ⟨p, at_p, by omega, found⟩
  refine ⟨inv'', by rw [walks' _ at_child, if_pos rfl, frame],
    touches.trans (inv'.write_table_touches at_child found' e), ?_, ?_⟩
  · intro q at_q full
    rw [walks' q at_q, if_neg, walks q at_q]
    rintro rfl
    rw [length_cons] at full
    omega
  · intro g inUse notTable
    have notNew : g ≠ f := fun isNew => inUse (isNew ▸ listed)
    constructor
    · rintro ⟨q, at_q, short, reached⟩
      rw [walks' q at_q] at reached
      split at reached
      · exact notNew (some.inj reached).symm
      · exact notTable ⟨q, at_q, short, walks q at_q ▸ reached⟩
    · intro x inside
      have notWritten : x / 4096 ≠ t := fun written => notTable (inside ▸ written ▸ isTable)
      rw [write_table_elsewhere s' i e notWritten, same x (inside ▸ notNew)]

end

/-- The entry `map_page` makes for a new table. -/
lemma table_entry (f flags : Nat) (small : f < 2 ^ 52)
    (isE : e = f * 4096 ||| ptePresent ||| pteWritable ||| flags &&& pteUser) :
    e / 4096 = f ∧ present e = true ∧ huge e = false ∧ e < 2 ^ 64 := by
  have low : (ptePresent ||| pteWritable ||| flags &&& pteUser) < 4096 :=
    or_low (by decide) (user_low flags)
  have sum : e = f * 4096 + (ptePresent ||| pteWritable ||| flags &&& pteUser) := by
    rw [isE, ← entry_split f low]
    simp only [Nat.or_assoc]
  refine ⟨by omega, ?_, ?_, by omega⟩
  · simp [isE, present, ptePresent]
  have frame : (f * 4096).testBit 7 = false := by
    rw [show 4096 = 2 ^ 12 from rfl, Nat.testBit_mul_two_pow]
    rfl
  have user : (flags &&& pteUser).testBit 7 = false := by
    rw [Nat.testBit_and, show pteUser.testBit 7 = false from rfl, Bool.and_false]
  simp only [isE, huge, Nat.testBit_or, frame, user]
  rfl

/-- One upper level of `map_page`. -/
lemma nextTable_spec (inv : UserTree own root s) (at_child : userPath (i :: p))
    (inner : p.length < 3) (found : s.walk root p = some t)
    (stepped : nextTable s (t * 4096) i flags = some (s', a)) :
    ∃ u, a = u * 4096 ∧ UserTree own root s' ∧ s'.walk root (i :: p) = some u ∧
      SamePages own root s s' ∧ (s.walk root (i :: p) ≠ none →
        s'.free = s.free ∧ ∀ q, s'.walk root q = s.walk root q) := by
  unfold nextTable at stepped
  by_cases valid : present (s.read64 (t * 4096 + 8 * i)) = true
  · rw [if_pos valid] at stepped
    cases stepped
    obtain ⟨inv', reached, pages, walks⟩ := inv.nextTable_present at_child inner found rfl valid flags
    exact ⟨_, by rw [pageDown, or_div _ (user_low flags)], inv', reached, pages, fun _ => ⟨rfl, walks⟩⟩
  rw [if_neg valid] at stepped
  have vacant : s.walk root (i :: p) = none := by
    rw [walk, node_cons found i]
    exact if_neg valid
  split at stepped
  · cases stepped
  rename_i s₁ frame allocated
  cases stepped
  obtain ⟨f, rfl, mine, -⟩ := inv.palloc allocated
  obtain ⟨number, there, small, fits⟩ := table_entry f flags (inv.valid f mine).2 rfl
  obtain ⟨inv', reached, pages⟩ := inv.nextTable_allocate at_child inner found vacant allocated
    (by rw [number, Nat.mul_div_cancel _ (by decide)]) there small fits
  exact ⟨_, rfl, inv', reached, pages, fun there => absurd vacant there⟩

end UserTree

/-! ## Pages -/

/-- The indices of a virtual address, the one into the last table first. -/
def path (virt : Nat) : List (Fin 512) :=
  [⟨ptIdx virt, Nat.mod_lt _ (by decide)⟩, ⟨pdIdx virt, Nat.mod_lt _ (by decide)⟩,
    ⟨pdpIdx virt, Nat.mod_lt _ (by decide)⟩, ⟨pml4Idx virt, Nat.mod_lt _ (by decide)⟩]

lemma path_indices (virt : Nat) : ∃ i₀ i₁ i₂ i₃ : Fin 512, path virt = [i₀, i₁, i₂, i₃] ∧
    ptIdx virt = i₀ ∧ pdIdx virt = i₁ ∧ pdpIdx virt = i₂ ∧ pml4Idx virt = i₃ :=
  ⟨_, _, _, _, rfl, rfl, rfl, rfl, rfl⟩

/-- The tables `map_page` comes through, and the entry it writes. -/
lemma mapPage_steps {pml4 : Nat}
    (mapped : mapPage nx s pml4 virt phys flags = some s') :
    ∃ (i₀ i₁ i₂ i₃ : Fin 512) (s₁ s₂ s₃ : Phys) (a₁ a₂ a₃ : Nat), path virt = [i₀, i₁, i₂, i₃] ∧
      nextTable s pml4 i₃ flags = some (s₁, a₁) ∧ nextTable s₁ a₁ i₂ flags = some (s₂, a₂) ∧
      nextTable s₂ a₂ i₁ flags = some (s₃, a₃) ∧
      s' = s₃.write64 (a₃ + 8 * i₀) (pageDown phys ||| finalFlags nx flags ||| ptePresent) := by
  unfold mapPage at mapped
  split at mapped
  · cases mapped
  rename_i s₁ a₁ first
  split at mapped
  · cases mapped
  rename_i s₂ a₂ second
  split at mapped
  · cases mapped
  next s₃ a₃ third =>
    cases mapped
    exact ⟨_, _, _, _, s₁, s₂, s₃, a₁, a₂, a₃, rfl, first, second, third, rfl⟩

@[irreducible] def userEnd : Nat := 0x800000000000

lemma userPath_path (user : virt < userEnd) : userPath (path virt) := by
  refine ⟨by simp [path], ?_⟩
  simp only [path, getLast?_cons_cons, getLast?_singleton, mem_def, some.injEq]
  rintro i rfl
  simp only [pml4Idx, userEnd] at user ⊢
  omega

lemma path_eq_iff {v w : Nat} (userV : v < userEnd) (userW : w < userEnd) :
    path v = path w ↔ v / 4096 = w / 4096 := by
  simp only [path, cons.injEq, Fin.mk.injEq, and_true, ptIdx, pdIdx, pdpIdx, pml4Idx,
    userEnd] at userV userW ⊢
  omega

/-- The frame of the page that holds a virtual address. -/
def Phys.page (s : Phys) (root virt : Nat) : Option Nat := s.walk root (path virt)

/-- The byte a user address reads. -/
def Phys.peek (s : Phys) (root virt : Nat) : Option UInt8 :=
  (s.page root virt).map fun f => s.mem (f * 4096 + virt % 4096)

namespace UserTree

lemma page_ne_root (inv : UserTree own root s) (user : virt < userEnd)
    (found : s.page root virt = some f) : f ≠ root := by
  rintro rfl
  have top := inv.walk_unique (userPath_path user) userPath_nil found rfl
  simp [path] at top

lemma page_entry (frame : phys / 4096 = f) (valid : f < 2 ^ 52)
    (low : flags < 4096) : (pageDown phys ||| flags ||| ptePresent) / 4096 = f ∧
      present (pageDown phys ||| flags ||| ptePresent) = true ∧
      (pageDown phys ||| flags ||| ptePresent) < 2 ^ 64 := by
  have low' : flags ||| ptePresent < 4096 := or_low low (by decide)
  have sum : pageDown phys ||| flags ||| ptePresent = f * 4096 + (flags ||| ptePresent) := by
    rw [← entry_split f low', pageDown, frame, Nat.or_assoc]
  exact ⟨by omega, by simp [present, ptePresent], by omega⟩

/-- The three upper levels of `map_page` together. -/
lemma tables_spec (inv : UserTree own root s) {i₀ i₁ i₂ i₃ : Fin 512} {pdp pd pt : Nat}
    {s₁ s₂ s₃ : Phys} (inside : userPath [i₀, i₁, i₂, i₃])
    (first : nextTable s (root * 4096) i₃ flags = some (s₁, pdp))
    (second : nextTable s₁ pdp i₂ flags = some (s₂, pd))
    (third : nextTable s₂ pd i₁ flags = some (s₃, pt)) :
    ∃ t, pt = t * 4096 ∧ UserTree own root s₃ ∧ s₃.walk root [i₁, i₂, i₃] = some t ∧
      SamePages own root s s₃ ∧ (s.walk root [i₁, i₂, i₃] ≠ none → s₃.free = s.free) := by
  have inside₁ := userPath_tail _ _ inside
  have inside₂ := userPath_tail _ _ inside₁
  have inside₃ := userPath_tail _ _ inside₂
  obtain ⟨t₃, rfl, inv₁, found₁, same₁, kept₁⟩ := inv.nextTable_spec inside₃ (by simp) rfl first
  obtain ⟨t₂, rfl, inv₂, found₂, same₂, kept₂⟩ := inv₁.nextTable_spec inside₂ (by simp) found₁ second
  obtain ⟨t₁, rfl, inv₃, found₃, same₃, kept₃⟩ := inv₂.nextTable_spec inside₁ (by simp) found₂ third
  refine ⟨t₁, rfl, inv₃, found₃, (same₁.trans same₂).trans same₃, fun there => ?_⟩
  have upper : ∀ q, q <:+ [i₁, i₂, i₃] → s.walk root q ≠ none := fun q above missing =>
    there (node_below_none missing above)
  obtain ⟨free₁, walks₁⟩ := kept₁ (upper [i₃] ⟨[i₁, i₂], rfl⟩)
  obtain ⟨free₂, walks₂⟩ := kept₂ (by rw [walks₁]; exact upper [i₂, i₃] ⟨[i₁], rfl⟩)
  rw [(kept₃ (by rw [walks₂, walks₁]; exact there)).1, free₂, free₁]

end UserTree

/-- The last level of `map_page`. -/
lemma UserTree.setLeaf (inv : UserTree own root s)
    {i : Fin 512} {p : List (Fin 512)} (at_child : userPath (i :: p))
    (level : p.length = 3) (found : s.walk root p = some t) (fits : e < 2 ^ 64)
    (valid : present e = true) (frame : e / 4096 = f) (mine : own f) (used : f ∉ s.free)
    (source : (∀ q, userPath q → s.walk root q ≠ some f) ∨ s.walk root (i :: p) = some f) :
    UserTree own root (s.write64 (t * 4096 + 8 * i) e) ∧
      ∀ q, userPath q → (s.write64 (t * 4096 + 8 * i) e).walk root q =
        if q = i :: p then some f else s.walk root q := by
  rcases source with fresh | same
  · exact inv.attach at_child found fits valid frame fresh mine used (.inl level)
  obtain ⟨inv', walks⟩ := inv.reflag at_child found fits valid (frame ▸ same) (by omega)
  refine ⟨inv', fun q _ => ?_⟩
  rw [walks q]
  split
  next isLeaf => rw [isLeaf, same]
  · rfl

/-- What mapping the page of `virt` to frame `f` does. -/
structure MapsPage (own : Nat → Prop) (root : Nat) (s s' : Phys) (virt f : Nat) : Prop where
  inv : UserTree own root s'
  touches : s.Touches (Writable own root) s'
  page : ∀ w < userEnd, s'.page root w = if w / 4096 = virt / 4096 then some f else s.page root w
  contents : ∀ g, g ∉ s.free → ¬ s.IsTable root g → ∀ x, x / 4096 = g → s'.mem x = s.mem x
  settled : s.walk root (path virt).tail ≠ none → s'.free = s.free

namespace UserTree

/-- `map_page` with a frame that is in use but not in the tree, or that is already
    mapped at the same place. -/
lemma mapPage_spec (inv : UserTree own root s)
    (user : virt < userEnd) (mapped : mapPage nx s (root * 4096) virt phys flags = some s')
    (frame : phys / 4096 = f) (low : finalFlags nx flags < 4096) (mine : own f) (used : f ∉ s.free)
    (source : (∀ q, userPath q → s.walk root q ≠ some f) ∨ s.page root virt = some f) :
    MapsPage own root s s' virt f := by
  have inside := userPath_path user
  obtain ⟨i₀, i₁, i₂, i₃, s₁, s₂, s₃, a₁, a₂, a₃, indices, first, second, third, rfl⟩ :=
    mapPage_steps mapped
  rw [indices] at inside
  have pageIs : ∀ (r : Phys), r.page root virt = r.walk root [i₀, i₁, i₂, i₃] := by
    intro r
    rw [page, indices]
  obtain ⟨t, rfl, inv₃, found, same, kept⟩ := inv.tables_spec inside first second third
  obtain ⟨number, valid, fits⟩ := page_entry frame (inv.valid f mine).2 low
  have source' : (∀ q, userPath q → s₃.walk root q ≠ some f) ∨ s₃.walk root [i₀, i₁, i₂, i₃] = some f := by
    refine source.imp (fun fresh q at_q reached => ?_) fun there => ?_
    · have notTable : ¬ s.IsTable root f := fun ⟨r, at_r, _, isF⟩ => fresh r at_r isF
      by_cases full : q.length = 4
      · exact fresh q at_q (same.leaves q at_q full ▸ reached)
      · exact (same.others f used notTable).1 ⟨q, at_q, by have := at_q.1; omega, reached⟩
    · rw [same.leaves _ inside rfl, ← pageIs, there]
  obtain ⟨inv', walks⟩ := inv₃.setLeaf inside rfl found fits valid number mine
    (fun listed => used (same.touches.taken.subset listed)) source'
  refine ⟨inv', same.touches.trans (inv₃.write_table_touches inside found _), ?_, ?_, ?_⟩
  · intro w userW
    have at_w := userPath_path userW
    rw [page, walks _ at_w, ← indices, same.leaves _ at_w (by simp [path])]
    simp only [path_eq_iff userW user, page]
  · intro g inUse notTable x inFrame
    obtain ⟨notTable₃, contents⟩ := same.others g inUse notTable
    have other : x / 4096 ≠ t := by
      rintro rfl
      exact notTable₃ (inFrame ▸ ⟨_, userPath_tail _ _ inside, by simp, found⟩)
    rw [write_table_elsewhere s₃ i₀ _ other, contents x inFrame]
  · rw [indices]
    exact kept

end UserTree

end Znu.Mm
