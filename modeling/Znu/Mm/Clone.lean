import Znu.Mm.Operations

/-! # Cloning an address space

`vmm_clone_pml4` copies the user half of an address space page by page, with four
nested loops that build the tables of the copy while they read those of the source.
The copy is a tree of fresh frames in which every path leads to the same flags and the
same bytes as in the source.
-/

namespace Znu.Mm

open Lib Lib.Radix Option List Bytes Phys UserTree Tables Nat

@[irreducible] def allEntries : List (Fin 512) := List.finRange 512

/-- Entries 0 to 255 of a root table. -/
def userEntries : List (Fin 512) := allEntries.filter (·.val < 256)

/-- Entries 256 to 511 of a root table. -/
def kernelEntries : List (Fin 512) := allEntries.filter (256 ≤ ·.val)

lemma mem_allEntries (i : Fin 512) : i ∈ allEntries := by
  unfold allEntries
  exact mem_finRange i

lemma nodup_allEntries : allEntries.Nodup := by
  unfold allEntries
  exact nodup_finRange 512

variable {f : Nat} {i : Fin 512} {s : Phys}

lemma mem_userEntries : i ∈ userEntries ↔ i.val < 256 := by
  simp [userEntries, mem_allEntries]

lemma mem_kernelEntries : i ∈ kernelEntries ↔ 256 ≤ i.val := by
  simp [kernelEntries, mem_allEntries]

lemma nodup_userEntries : userEntries.Nodup := nodup_allEntries.filter _

/-- `memcpy(dst, src, PAGE_SIZE)` -/
def Phys.copyPage (s : Phys) (dst src : Nat) : Phys := s.store dst 4096 fun i => s.mem (src + i)

/-- Copy the leaf `e` in slot `i`. -/
def clonePage (src dst : Nat) (s : Phys) (i : Fin 512) (e : Nat) : Option Phys :=
  match s.pallocZero with
  | none => none
  | some (s, page) =>
    let s := s.copyPage page (pageDown e)
    some (s.write64 (dst + 8 * i) (page ||| s.read64 (src + 8 * i) &&& 0xFFF))

/-- Link a new table for the table entry `e` in slot `i`, and fill it. -/
def cloneTable (fill : Phys → Nat → Nat → Option Phys) (src dst : Nat) (s : Phys) (i : Fin 512)
    (e : Nat) : Option Phys :=
  match s.pallocZero with
  | none => none
  | some (s, table) =>
    fill (s.write64 (dst + 8 * i) (table ||| s.read64 (src + 8 * i) &&& 0xFFF)) (pageDown e) table

/-- One of the loops: visit the present entries that are not skipped. -/
def cloneLoop (skip : Nat → Bool) (visit : Phys → Fin 512 → Nat → Option Phys) (src : Nat) :
    List (Fin 512) → Phys → Option Phys
  | [], s => some s
  | i :: is, s =>
    let e := s.read64 (src + 8 * i)
    if !present e || skip e then cloneLoop skip visit src is s else
    match visit s i e with
    | none => none
    | some s => cloneLoop skip visit src is s

def clonePt (s : Phys) (src dst : Nat) : Option Phys :=
  cloneLoop (fun _ => false) (clonePage src dst) src allEntries s

def clonePd (s : Phys) (src dst : Nat) : Option Phys :=
  cloneLoop huge (cloneTable clonePt src dst) src allEntries s

def clonePdpt (s : Phys) (src dst : Nat) : Option Phys :=
  cloneLoop huge (cloneTable clonePd src dst) src allEntries s

def cloneUserHalf (s : Phys) (src dst : Nat) : Option Phys :=
  cloneLoop (fun _ => false) (cloneTable clonePdpt src dst) src userEntries s

def cloneKernelHalf (s : Phys) (src dst : Nat) : Phys :=
  kernelEntries.foldl (fun s (i : Fin 512) => s.write64 (dst + 8 * i) (s.read64 (src + 8 * i))) s

/-- The new root is the second component. -/
def vmmClonePml4 (s : Phys) (src : Nat) : Option (Phys × Nat) :=
  match s.pallocZero with
  | none => none
  | some (s, dst) =>
    match cloneUserHalf (cloneKernelHalf s src dst) src dst with
    | none => none
    | some s => some (s, dst)

/-! ## Copies of paths -/

/-- The user half of the source: tables that form a tree, and 4 KiB pages, none of them
    free. -/
structure Source (s₀ : Phys) (src : Nat) : Prop where
  tables : Tables userHalf src s₀
  small : ∀ q, EntryPath userHalf q → q.length < 4 → s₀.leaf src q = none
  mapped : ∀ q e, EntryPath userHalf q → s₀.leaf src q = some e → e / 4096 ∉ s₀.free
  positive : ∀ f ∈ s₀.free, 0 < f

variable {a e root u : Nat} {fill : Phys → Nat → Nat → Option Phys} {is q : List (Fin 512)}
  {skip : Nat → Bool} {visit : Phys → Fin 512 → Nat → Option Phys}

/-- An address space without large pages can be cloned. -/
lemma Source.of_userTree {own : Nat → Prop} (inv : UserTree own root s) : Source s root where
  tables := inv.tables
  small _ at_q short := inv.leaf_short at_q short
  mapped q e at_q there := by
    obtain ⟨live, -⟩ := filter_eq_some_iff.mp there
    refine (inv.owned q (e / 4096) (userPath_of_entry at_q) ?_).2
    rw [inv.walk_eq_live at_q, live, map_some]
  positive f listed := (inv.valid f (inv.freeOwned f listed)).1

/-- Everything that was in use is as it was. -/
def Frozen (s₀ s : Phys) : Prop := ∀ x, x / 4096 ∉ s₀.free → s.mem x = s₀.mem x

/-- The copy has the same flags at the path, and the same bytes if it is a page. -/
def Copied (s₀ : Phys) (src dst : Nat) (s : Phys) (q : List (Fin 512)) : Prop :=
  match s₀.live src q with
  | none => s.live dst q = none
  | some e => ∃ f, s.live dst q = some (f * 4096 + e % 4096) ∧
      (q.length = 4 → ∀ o < 4096, s.mem (f * 4096 + o) = s₀.mem (e / 4096 * 4096 + o))

/-- `s'` comes from `s` by copying the paths of `S`, with no writes except to the table in
    frame `t` and to fresh frames. -/
structure Copies (s₀ : Phys) (src dst t : Nat) (S : List (Fin 512) → Prop) (s s' : Phys) : Prop where
  inv : UserTree (· ∈ s₀.free) dst s'
  kept : ∀ q, EntryPath userHalf q → ¬ S q → s'.live dst q = s.live dst q
  copied : ∀ q, EntryPath userHalf q → S q → Copied s₀ src dst s' q
  mem : ∀ x, x / 4096 ∉ s.free → x / 4096 ≠ t → s'.mem x = s.mem x
  kernel : ∀ j, ¬ userHalf j → s'.entry dst j = s.entry dst j
  taken : s'.free <:+ s.free

variable {s₀ s' : Phys} {src dst t : Nat} {p : List (Fin 512)}

section

variable {s'' : Phys} {S S' : List (Fin 512) → Prop}

/-- A path keeps its copy while other frames are written. -/
lemma Copied.keep (copied : Copied s₀ src dst s q)
    (at_q : EntryPath userHalf q) (inv : UserTree (· ∈ s₀.free) dst s) (at_p : TablePath userHalf p)
    (found : s.walk dst p = some t) (live : s'.live dst q = s.live dst q)
    (mem : ∀ x, x / 4096 ∉ s.free → x / 4096 ≠ t → s'.mem x = s.mem x) :
    Copied s₀ src dst s' q := by
  unfold Copied at copied ⊢
  split
  next absent =>
    rw [absent] at copied
    exact live.trans copied
  rename_i e there
  rw [there] at copied
  obtain ⟨f, entry, bytes⟩ := copied
  refine ⟨f, live.trans entry, fun full o inside => ?_⟩
  have page : s.walk dst q = some f := by
    rw [inv.walk_eq_live at_q, entry, map_some, some.injEq]
    omega
  have frame : (f * 4096 + o) / 4096 = f := by omega
  have notTable : f ≠ t := fun same => by
    have path := inv.walk_unique (userPath_of_entry at_q) (userPath_of_table at_p) page (same ▸ found)
    have short := at_p.1
    rw [← path, full] at short
    omega
  have used := (inv.owned q f (userPath_of_entry at_q) page).2
  rw [← bytes full o inside]
  exact mem _ (by rw [frame]; exact used) (by rw [frame]; exact notTable)

/-- The table at `p` stays where it is while paths below it are copied. -/
lemma Copies.found (copies : Copies s₀ src dst t S s s') (inv : UserTree (· ∈ s₀.free) dst s)
    (at_p : TablePath userHalf p) (found : s.walk dst p = some t) (outside : ¬ S p) :
    s'.walk dst p = some t := by
  cases p with
  | nil => rwa [walk_nil] at found ⊢
  | cons i p =>
    have at_q := entryPath_of_table at_p
    rw [copies.inv.walk_eq_live at_q, copies.kept _ at_q outside, ← inv.walk_eq_live at_q, found]

lemma Copies.frozen (copies : Copies s₀ src dst t S s s') (frozen : Frozen s₀ s)
    (taken : s.free <:+ s₀.free) (mine : t ∈ s₀.free) : Frozen s₀ s' := by
  intro x used
  rw [copies.mem x (fun listed => used (taken.subset listed)) fun same => used (same ▸ mine), frozen x used]

lemma Copies.trans (first : Copies s₀ src dst t S s s') (second : Copies s₀ src dst t S' s' s'')
    (at_p : TablePath userHalf p) (found : s'.walk dst p = some t) (apart : ∀ q, S q → ¬ S' q) :
    Copies s₀ src dst t (fun q => S q ∨ S' q) s s'' where
  inv := second.inv
  kept q at_q outside := by
    rw [second.kept q at_q fun inside => outside (.inr inside),
      first.kept q at_q fun inside => outside (.inl inside)]
  copied q at_q inside := by
    rcases inside with early | late
    · exact (first.copied q at_q early).keep at_q first.inv at_p found
        (second.kept q at_q (apart q early)) second.mem
    · exact second.copied q at_q late
  mem x used other := by
    rw [second.mem x (fun listed => used (first.taken.subset listed)) other, first.mem x used other]
  kernel j outside := (second.kernel j outside).trans (first.kernel j outside)
  taken := second.taken.trans first.taken

lemma Copies.congr (copies : Copies s₀ src dst t S s s') (same : ∀ q, EntryPath userHalf q → (S q ↔ S' q)) :
    Copies s₀ src dst t S' s s' where
  inv := copies.inv
  kept q at_q outside := copies.kept q at_q fun inside => outside ((same q at_q).mp inside)
  copied q at_q inside := copies.copied q at_q ((same q at_q).mpr inside)
  mem := copies.mem
  kernel := copies.kernel
  taken := copies.taken

/-! ## One entry -/

/-- The entry of the copy has the new frame and the old flags. -/
lemma copied_entry (small : f < 2 ^ 52) :
    f * 4096 ||| e &&& 0xFFF = f * 4096 + e % 4096 ∧ (f * 4096 + e % 4096) / 4096 = f ∧
      present (f * 4096 + e % 4096) = present e ∧ huge (f * 4096 + e % 4096) = huge e ∧
      f * 4096 + e % 4096 < 2 ^ 64 := by
  have low : e &&& 0xFFF = e % 4096 := and_two_pow_sub_one_eq_mod e 12
  refine ⟨?_, by omega, ?_, ?_, by omega⟩
  · rw [low, entry_split f (mod_lt _ (by decide))]
  · simp only [present, testBit_eq_decide_div_mod_eq]
    rw [show (f * 4096 + e % 4096) / 2 ^ 0 % 2 = e / 2 ^ 0 % 2 by omega]
  · simp only [huge, testBit_eq_decide_div_mod_eq]
    rw [show (f * 4096 + e % 4096) / 2 ^ 7 % 2 = e / 2 ^ 7 % 2 by omega]

lemma Source.entry (source : Source s₀ src) (frozen : Frozen s₀ s)
    (at_p : TablePath userHalf p) (found : s₀.table src p = some u) (i : Fin 512) :
    s.read64 (u * 4096 + 8 * i) = s₀.entry u i := by
  have used := source.tables.used p u at_p found
  refine word_congr fun x lower upper => frozen x ?_
  rwa [show x / 4096 = u by omega]

lemma entry_of_live (reached : s.table root p = some u)
    (live : s.live root (i :: p) = some e) : s.entry u i = e ∧ present e = true := by
  rw [live_cons reached] at live
  obtain ⟨isE, there⟩ := filter_eq_some_iff.mp live
  exact ⟨some.inj isE, there⟩

lemma Frozen.write (frozen : Frozen s₀ s) (listed : f ∈ s₀.free)
    (same : ∀ x, x / 4096 ≠ f → s'.mem x = s.mem x) : Frozen s₀ s' := by
  intro x used
  rw [same x fun isNew => used (isNew ▸ listed), frozen x used]

end

/-- Paths below `p`. -/
def Below (p q : List (Fin 512)) : Prop := p <:+ q ∧ q ≠ p

section

/-- `fill` copies everything below `p` into an empty table. -/
def FillsAt (s₀ : Phys) (src dst : Nat) (fill : Phys → Nat → Nat → Option Phys) (p : List (Fin 512)) :
    Prop :=
  ∀ s s' u t, UserTree (· ∈ s₀.free) dst s → Frozen s₀ s → s.free <:+ s₀.free →
    s₀.table src p = some u → s.walk dst p = some t → (∀ i, s.live dst (i :: p) = none) →
    fill s (u * 4096) (t * 4096) = some s' → Copies s₀ src dst t (Below p) s s'

section

variable (inv : UserTree (· ∈ s₀.free) dst s)

include inv

/-- Link a frame that is not in the tree: any frame at the last level, an empty table
    above it. -/
lemma link (at_q : EntryPath userHalf (i :: p)) (found : s.walk dst p = some t)
    (vacant : s.live dst (i :: p) = none) (there : present e = true) (mine : f ∈ s₀.free)
    (used : f ∉ s.free) (fresh : ∀ q, userPath q → s.walk dst q ≠ some f)
    (level : p.length = 3 ∨ p.length < 3 ∧ huge e = false ∧ ∀ x, x / 4096 = f → s.mem x = 0) :
    UserTree (· ∈ s₀.free) dst (s.write64 (t * 4096 + 8 * i) (f * 4096 + e % 4096)) ∧
      ∀ q, EntryPath userHalf q →
        (s.write64 (t * 4096 + 8 * i) (f * 4096 + e % 4096)).live dst q =
          if q = i :: p then some (f * 4096 + e % 4096) else s.live dst q := by
  obtain ⟨-, frame, there', huge', fits⟩ := copied_entry (e := e) (inv.valid f mine).2
  have at_p := tablePath_of_cons i p at_q
  have linked := (inv.table_eq_walk at_p).trans found
  rcases level with full | ⟨short, small, zero⟩
  · refine ⟨(inv.attach (userPath_of_entry at_q) found fits (there'.trans there) frame fresh mine used
      (.inl full)).1, fun q at_r => ?_⟩
    rw [(inv.tables.rewrite at_q linked fits (.inl full) (by rintro rfl; cases full)).2.2 q at_r,
      filter_some, there', there, if_pos rfl]
  have at_child : TablePath userHalf (i :: p) := ⟨by rw [length_cons]; omega, at_q.2.2⟩
  have empty : s.walk dst (i :: p) = none := by
    rw [inv.walk_eq_live at_q, vacant]
    rfl
  refine ⟨(inv.attach (userPath_of_entry at_q) found fits (there'.trans there) frame fresh mine used
    (.inr ⟨empty, huge'.trans small, zero⟩)).1, ?_⟩
  exact (inv.tables.attach at_child linked fits (by simp [isTable, there', there, huge', small])
    (fun r at_r isF => fresh r (userPath_of_table at_r) ((inv.table_eq_walk at_r).symm.trans (frame ▸ isF)))
    (by rw [frame]; exact used) ((inv.table_eq_walk at_child).trans empty)
    (by rw [frame]; exact zero)).2.2

/-- What was present before the allocation of a frame is present after it. -/
lemma live_same (listed : f ∈ s.free) (same : ∀ x, x / 4096 ≠ f → s'.mem x = s.mem x)
    (taken : s'.free <:+ s.free) (at_q : EntryPath userHalf q) :
    s'.live dst q = s.live dst q := by
  refine (inv.tables.congr (fun g ⟨r, at_r, isG⟩ x inside => same x fun isNew => ?_) taken).2.2 q at_q
  exact inv.tables.used r g at_r isG (by rw [← inside, isNew]; exact listed)

lemma entry_same (listed : f ∈ s.free) (same : ∀ x, x / 4096 ≠ f → s'.mem x = s.mem x)
    (j : Fin 512) : s'.entry dst j = s.entry dst j := by
  have used : dst ∉ s.free := (inv.owned [] dst userPath_nil rfl).2
  refine word_congr fun x lower upper => same x fun isNew => used ?_
  rw [show dst = f by omega]
  exact listed

/-- Entries on user paths are not in the kernel half of the root. -/
lemma entry_write_root (at_q : EntryPath userHalf (i :: p)) (found : s.walk dst p = some t)
    {j : Fin 512} (outside : ¬ userHalf j) :
    (s.write64 (t * 4096 + 8 * i) e).entry dst j = s.entry dst j := by
  refine entry_write_other s e ?_
  rintro ⟨isRoot, rfl⟩
  have top := inv.walk_unique (userPath_of_table (tablePath_of_cons j p at_q)) userPath_nil found
    (congrArg some isRoot)
  rw [top] at at_q
  exact outside (at_q.2.2 j rfl)

end

/-- A present entry above the last level is not a large page. -/
lemma Source.not_huge (source : Source s₀ src) (at_q : EntryPath userHalf (i :: p))
    (short : p.length < 3) (live : s₀.live src (i :: p) = some e) : huge e = false := by
  have none_large := source.small _ at_q (by rw [length_cons]; omega)
  rw [leaf, live, filter_some] at none_large
  cases large : huge e with
  | false => rfl
  | true =>
    rw [large, Bool.or_true] at none_large
    cases none_large

lemma cloneTable_copies (source : Source s₀ src)
    (at_child : TablePath userHalf (i :: p)) (inv : UserTree (· ∈ s₀.free) dst s) (frozen : Frozen s₀ s)
    (taken : s.free <:+ s₀.free) (reached : s₀.table src p = some u) (found : s.walk dst p = some t)
    (vacant : s.live dst (i :: p) = none) (live : s₀.live src (i :: p) = some e)
    (fills : FillsAt s₀ src dst fill (i :: p))
    (visited : cloneTable fill (u * 4096) (t * 4096) s i e = some s') :
    Copies s₀ src dst t ((i :: p) <:+ ·) s s' := by
  have at_q := entryPath_of_table at_child
  have at_p := tablePath_tail i p at_child
  have short : p.length < 3 := at_child.1
  obtain ⟨isE, there⟩ := entry_of_live reached live
  unfold cloneTable at visited
  split at visited
  · cases visited
  rename_i s₁ table allocated
  obtain ⟨f, rfl, mine, listed, used, inv₁, walks₁, fresh, zero, same, touches⟩ := inv.palloc allocated
  have lives₁ : ∀ q, EntryPath userHalf q → s₁.live dst q = s.live dst q :=
    fun q at_r => live_same inv listed same touches.taken at_r
  have frozen₁ := frozen.write mine same
  obtain ⟨inv₂, lives₂⟩ := link inv₁ at_q ((walks₁ p (userPath_of_table at_p)).trans found)
    ((lives₁ _ at_q).trans vacant) there mine used fresh
    (.inr ⟨short, source.not_huge at_q short live, zero⟩)
  rw [source.entry frozen₁ at_p reached i, isE, (copied_entry (inv.valid f mine).2).1] at visited
  obtain ⟨s₂, isS₂⟩ : ∃ s₂, s₂ = s₁.write64 (t * 4096 + 8 * i) (f * 4096 + e % 4096) := ⟨_, rfl⟩
  have elsewhere : ∀ x, x / 4096 ≠ t → s₂.mem x = s₁.mem x := fun x other => by
    rw [isS₂]
    exact write_table_elsewhere s₁ i _ other
  have free₂ : s₂.free = s₁.free := by rw [isS₂]; rfl
  rw [← isS₂] at inv₂ lives₂ visited
  have linked : s₂.walk dst (i :: p) = some f := by
    rw [inv₂.walk_eq_live at_q, lives₂ _ at_q, if_pos rfl, map_some, some.injEq]
    omega
  have empty : ∀ j, s₂.live dst (j :: i :: p) = none := by
    intro j
    have at_j : EntryPath userHalf (j :: i :: p) := ⟨by simp, by simp; omega, by simpa using at_q.2.2⟩
    rw [lives₂ _ at_j, if_neg (cons_ne_self j _), lives₁ _ at_j, live_below_none vacant (suffix_cons j _)]
  have copies := fills s₂ s' (e / 4096) f inv₂
    (frozen₁.write (inv.owned p t (userPath_of_table at_p) found).1 elsewhere)
    (free₂ ▸ touches.taken.trans taken)
    (isE ▸ table_present reached short (source.small _ at_q (by rw [length_cons]; omega))
      (isE ▸ there)) linked empty visited
  refine ⟨copies.inv, fun q at_r outside => ?_, fun q at_r inside => ?_, fun x inUse other => ?_,
    fun j outside => ?_, copies.taken.trans (free₂ ▸ touches.taken)⟩
  · have other : q ≠ i :: p := fun isIt => outside (isIt ▸ suffix_rfl)
    rw [copies.kept q at_r fun below => outside below.1, lives₂ q at_r, if_neg other, lives₁ q at_r]
  · by_cases isIt : q = i :: p
    · subst isIt
      unfold Copied
      rw [live]
      refine ⟨f, ?_, fun full => ?_⟩
      · rw [copies.kept _ at_r fun below => below.2 rfl, lives₂ _ at_r, if_pos rfl]
      · rw [length_cons] at full
        omega
    · exact copies.copied q at_r ⟨inside, isIt⟩
  · have notNew : x / 4096 ≠ f := fun isNew => inUse (isNew ▸ listed)
    rw [copies.mem x (fun isFree => inUse (touches.taken.subset (free₂ ▸ isFree))) notNew,
      elsewhere x other, same x notNew]
  · rw [copies.kernel j outside, isS₂, entry_write_root inv₁ at_q
      ((walks₁ p (userPath_of_table at_p)).trans found) outside, entry_same inv listed same]

lemma clonePage_copies (source : Source s₀ src) (at_q : EntryPath userHalf (i :: p))
    (full : p.length = 3) (inv : UserTree (· ∈ s₀.free) dst s) (frozen : Frozen s₀ s)
    (reached : s₀.table src p = some u) (found : s.walk dst p = some t)
    (vacant : s.live dst (i :: p) = none) (live : s₀.live src (i :: p) = some e)
    (visited : clonePage (u * 4096) (t * 4096) s i e = some s') :
    Copies s₀ src dst t ((i :: p) <:+ ·) s s' := by
  have at_p := tablePath_of_cons i p at_q
  obtain ⟨isE, there⟩ := entry_of_live reached live
  unfold clonePage at visited
  split at visited
  · cases visited
  rename_i s₁ page allocated
  obtain ⟨f, rfl, mine, listed, used, inv₁, walks₁, fresh, -, same, touches⟩ := inv.palloc allocated
  obtain ⟨s₂, isS₂⟩ : ∃ s₂, s₂ = s₁.copyPage (f * 4096) (pageDown e) := ⟨_, rfl⟩
  have free₂ : s₂.free = s₁.free := by rw [isS₂]; rfl
  have same₂ : ∀ x, x / 4096 ≠ f → s₂.mem x = s₁.mem x := fun x other => by
    rw [isS₂, copyPage, store_mem, store_outside (by omega)]
  have taken₂ : s₂.free <:+ s.free := free₂ ▸ touches.taken
  have frozen₂ : Frozen s₀ s₂ := (frozen.write mine same).write mine same₂
  obtain ⟨inv₂, walks₂⟩ := inv₁.congr (fun g ⟨q, at_r, _, isG⟩ x inside => same₂ x fun isNew =>
    fresh q at_r (by rw [isG, ← inside, isNew])) (free₂ ▸ suffix_rfl)
  have lives₂ : ∀ q, EntryPath userHalf q → s₂.live dst q = s.live dst q := fun q at_r =>
    live_same inv listed (fun x other => (same₂ x other).trans (same x other)) taken₂ at_r
  have bytes : ∀ o < 4096, s₂.mem (f * 4096 + o) = s₀.mem (e / 4096 * 4096 + o) := by
    intro o inside
    have inUse : (e / 4096 * 4096 + o) / 4096 ∉ s₀.free := by
      rw [show (e / 4096 * 4096 + o) / 4096 = e / 4096 by omega]
      refine source.mapped _ e at_q ?_
      rw [leaf_full (by rw [length_cons, full]), live]
    rw [isS₂, copyPage, store_mem, store_inside (by omega) (by omega), Nat.add_sub_cancel_left, pageDown]
    exact frozen.write mine same _ inUse
  rw [← isS₂] at visited
  dsimp only at visited
  rw [source.entry frozen₂ at_p reached i, isE, (copied_entry (inv.valid f mine).2).1] at visited
  cases visited
  have found₂ : s₂.walk dst p = some t := by
    rw [walks₂ p (userPath_of_table at_p), walks₁ p (userPath_of_table at_p), found]
  obtain ⟨inv₃, lives₃⟩ := link inv₂ at_q found₂ ((lives₂ _ at_q).trans vacant) there mine
    (free₂ ▸ used) (fun q at_r isF => fresh q at_r ((walks₂ q at_r).symm.trans isF)) (.inl full)
  have notTable : f ≠ t := fun isT =>
    fresh p (userPath_of_table at_p) (isT ▸ (walks₁ p (userPath_of_table at_p)).trans found)
  refine ⟨inv₃, fun q at_r outside => ?_, fun q at_r inside => ?_, fun x inUse other => ?_,
    fun j outside => ?_, taken₂⟩
  · have other : q ≠ i :: p := fun isIt => outside (isIt ▸ suffix_rfl)
    rw [lives₃ q at_r, if_neg other, lives₂ q at_r]
  · obtain rfl : q = i :: p := (inside.eq_of_length_le (by
      rw [length_cons, full]
      exact at_r.2.1)).symm
    unfold Copied
    rw [live]
    refine ⟨f, by rw [lives₃ _ at_r, if_pos rfl], fun _ o small => ?_⟩
    rw [← bytes o small]
    exact write_table_elsewhere s₂ i _ (by omega)
  · have notNew : x / 4096 ≠ f := fun isNew => inUse (isNew ▸ listed)
    rw [write_table_elsewhere s₂ i _ other, same₂ x notNew, same x notNew]
  · rw [entry_write_root inv₂ at_q found₂ outside,
      entry_same inv listed fun x other => (same₂ x other).trans (same x other)]

end

/-! ## The loops -/

section

variable {j : Fin 512}

/-- An entry that is not present has nothing below it, in the source and in the copy. -/
lemma copies_absent (inv : UserTree (· ∈ s₀.free) dst s) (absent : s₀.live src (i :: p) = none)
    (vacant : s.live dst (i :: p) = none) :
    Copies s₀ src dst t ((i :: p) <:+ ·) s s where
  inv := inv
  kept _ _ _ := rfl
  copied q _ below := by
    unfold Copied
    rw [live_below_none absent below]
    exact live_below_none vacant below
  mem _ _ _ := rfl
  kernel _ _ := rfl
  taken := suffix_rfl

lemma index_unique (left : (i :: p) <:+ q) (right : (j :: p) <:+ q) : i = j := by
  have same := (suffix_of_suffix_length_le left right (by simp)).eq_of_length (by simp)
  exact (cons.inj same).1

lemma cloneLoop_copies
    (source : Source s₀ src) (at_p : TablePath userHalf p)
    (at_is : ∀ i ∈ is, EntryPath userHalf (i :: p)) (nodup : is.Nodup)
    (reached : s₀.table src p = some u)
    (noSkip : ∀ i ∈ is, ∀ e, s₀.live src (i :: p) = some e → skip e = false)
    (visits : ∀ i ∈ is, ∀ s s' e, UserTree (· ∈ s₀.free) dst s → Frozen s₀ s → s.free <:+ s₀.free →
      s.walk dst p = some t → s.live dst (i :: p) = none → s₀.live src (i :: p) = some e →
      visit s i e = some s' → Copies s₀ src dst t ((i :: p) <:+ ·) s s')
    (inv : UserTree (· ∈ s₀.free) dst s) (frozen : Frozen s₀ s) (taken : s.free <:+ s₀.free)
    (found : s.walk dst p = some t) (vacant : ∀ i ∈ is, s.live dst (i :: p) = none)
    (ran : cloneLoop skip visit (u * 4096) is s = some s') :
    Copies s₀ src dst t (fun q => ∃ i ∈ is, (i :: p) <:+ q) s s' := by
  induction is generalizing s with
  | nil =>
    cases ran
    exact ⟨inv, fun _ _ _ => rfl, fun q _ ⟨i, listed, _⟩ => absurd listed not_mem_nil,
      fun _ _ _ => rfl, fun _ _ => rfl, suffix_rfl⟩
  | cons i is ih =>
    have nodup' := nodup_cons.mp nodup
    have outside : ¬ (i :: p) <:+ p := fun below => by
      have := below.length_le
      simp at this
    have continues : ∀ s₁, Copies s₀ src dst t ((i :: p) <:+ ·) s s₁ →
        cloneLoop skip visit (u * 4096) is s₁ = some s' →
        Copies s₀ src dst t (fun q => ∃ j ∈ i :: is, (j :: p) <:+ q) s s' := by
      intro s₁ first rest
      have found₁ := first.found inv at_p found outside
      have mine := (inv.owned p t (userPath_of_table at_p) found).1
      have second := ih (fun j listed => at_is j (.tail i listed)) nodup'.2
        (fun j listed => noSkip j (.tail i listed)) (fun j listed => visits j (.tail i listed))
        first.inv (first.frozen frozen taken mine) (first.taken.trans taken) found₁
        (fun j listed => by
          rw [first.kept _ (at_is j (.tail i listed)) fun below =>
            nodup'.1 (index_unique below suffix_rfl ▸ listed), vacant j (.tail i listed)]) rest
      refine (first.trans second at_p found₁ fun q inFirst ⟨j, listed, inSecond⟩ =>
        nodup'.1 (index_unique inFirst inSecond ▸ listed)).congr fun q _ => ?_
      simp only [mem_cons, exists_eq_or_imp]
    simp only [cloneLoop, source.entry frozen at_p reached i] at ran
    have live : s₀.live src (i :: p) = (some (s₀.entry u i)).filter present := live_cons reached
    rw [filter_some] at live
    cases there : present (s₀.entry u i) with
    | false =>
      rw [there] at live ran
      exact continues s (copies_absent inv live (vacant i mem_cons_self)) ran
    | true =>
      rw [there, if_pos rfl] at live
      rw [there, noSkip i mem_cons_self _ live] at ran
      simp only [Bool.not_true, Bool.or_self, Bool.false_eq_true, if_false] at ran
      split at ran
      · cases ran
      next s₁ visited =>
        exact continues s₁ (visits i mem_cons_self s s₁ _ inv frozen taken found
          (vacant i mem_cons_self) live visited) ran

/-- The paths through all entries of a table are those below it. -/
lemma below_iff (p q : List (Fin 512)) : (∃ i ∈ allEntries, (i :: p) <:+ q) ↔ Below p q := by
  constructor
  · rintro ⟨i, -, below⟩
    refine ⟨(suffix_cons i p).trans below, ?_⟩
    rintro rfl
    have := below.length_le
    simp at this
  · rintro ⟨⟨l, rfl⟩, longer⟩
    rcases eq_nil_or_concat l with rfl | ⟨l, i, rfl⟩
    · exact absurd rfl longer
    · exact ⟨i, mem_allEntries i, l, by simp⟩

lemma entryPath_cons (at_p : TablePath userHalf (j :: p)) : EntryPath userHalf (i :: j :: p) := by
  have short := at_p.1
  exact ⟨by simp, by rw [length_cons]; omega, by simpa using at_p.2⟩

lemma fills_pt (source : Source s₀ src) (at_p : TablePath userHalf (j :: p))
    (full : (j :: p).length = 3) : FillsAt s₀ src dst clonePt (j :: p) := by
  intro s s' u t inv frozen taken reached found vacant ran
  refine (cloneLoop_copies source at_p (fun i _ => entryPath_cons at_p) nodup_allEntries reached
    (fun _ _ _ _ => rfl) (fun i _ s s' e inv frozen _ found vacant live visited => ?_) inv frozen taken
    found (fun i _ => vacant i) ran).congr fun q _ => below_iff _ q
  exact clonePage_copies source (entryPath_cons at_p) full inv frozen reached found vacant live visited

lemma fills_table (source : Source s₀ src)
    (at_p : TablePath userHalf (j :: p)) (short : (j :: p).length < 3)
    (fills : ∀ i, FillsAt s₀ src dst fill (i :: j :: p)) :
    FillsAt s₀ src dst (fun s src dst => cloneLoop huge (cloneTable fill src dst) src allEntries s)
      (j :: p) := by
  intro s s' u t inv frozen taken reached found vacant ran
  have at_child : ∀ i, TablePath userHalf (i :: j :: p) := fun i =>
    ⟨by rw [length_cons]; omega, by simpa using at_p.2⟩
  refine (cloneLoop_copies source at_p (fun i _ => entryPath_cons at_p) nodup_allEntries reached
    (fun i _ e live => source.not_huge (entryPath_cons at_p) short live)
    (fun i _ s s' e inv frozen taken found vacant live visited => ?_) inv frozen taken
    found (fun i _ => vacant i) ran).congr fun q _ => below_iff _ q
  exact cloneTable_copies source (at_child i) inv frozen taken reached found vacant live (fills i) visited

lemma fills_pdpt (source : Source s₀ src) (chosen : userHalf i) : FillsAt s₀ src dst clonePdpt [i] := by
  have last : ∀ j ∈ [i].getLast?, userHalf j := by
    rintro j ⟨⟩
    exact chosen
  refine fills_table source ⟨by simp, last⟩ (by simp) fun j => ?_
  refine fills_table source ⟨by simp, by simpa using last⟩ (by simp) fun k => ?_
  exact fills_pt source ⟨by simp, by simpa using last⟩ rfl

end

/-! ## The whole address space -/

section

/-- The listed entries are copied and nothing else is written. -/
lemma copyEntries_spec (other : src ≠ dst)
    (copied : is.foldl (fun s (i : Fin 512) => s.write64 (dst * 4096 + 8 * i) (s.read64 (src * 4096 + 8 * i))) s = s') :
    s'.free = s.free ∧ (∀ x, x / 4096 ≠ dst → s'.mem x = s.mem x) ∧
      ∀ j, s'.entry dst j = if j ∈ is then s.entry src j else s.entry dst j := by
  induction is generalizing s with
  | nil =>
    obtain rfl := copied
    exact ⟨rfl, fun _ _ => rfl, fun j => by simp⟩
  | cons i is ih =>
    obtain ⟨free, mem, entries⟩ := ih copied
    refine ⟨free, fun x outside => ?_, fun j => ?_⟩
    · rw [mem x outside]
      exact write_table_elsewhere s i _ outside
    rw [entries j]
    by_cases later : j ∈ is
    · rw [if_pos later, if_pos (.tail i later), entry_write_other s _ fun same => other same.1]
    rw [if_neg later]
    by_cases here : j = i
    · subst here
      rw [if_pos mem_cons_self]
      exact entry_write_same s dst j (s.mem.word_lt _ 8)
    have absent : j ∉ i :: is := fun listed =>
      (mem_cons.mp listed).elim here later
    rw [if_neg absent, entry_write_other s _ fun same => here same.2]

/-- The new table before the loop over the user half: zeros, with the kernel's entries. -/
structure Begun (s : Phys) (src dst : Nat) (s₂ : Phys) : Prop where
  mine : dst ∈ s.free
  unused : dst ∉ s₂.free
  taken : s₂.free <:+ s.free
  mem : ∀ x, x / 4096 ≠ dst → s₂.mem x = s.mem x
  entries : ∀ i, s₂.entry dst i = if i ∈ kernelEntries then s.entry src i else 0

lemma vmmClonePml4_begun (once : s.free.Nodup) (used : src ∉ s.free)
    (cloned : vmmClonePml4 s (src * 4096) = some (s', a)) :
    ∃ dst s₂, a = dst * 4096 ∧ Begun s src dst s₂ ∧ cloneUserHalf s₂ (src * 4096) (dst * 4096) = some s' := by
  unfold vmmClonePml4 at cloned
  split at cloned
  · cases cloned
  rename_i s₁ table allocated
  obtain ⟨dst, rfl, free, unused, mem, touches⟩ := pallocZero_spec allocated once
  have mine : dst ∈ s.free := by simp [free]
  have other : src ≠ dst := fun same => used (same ▸ mine)
  have same₁ : ∀ x, x / 4096 ≠ dst → s₁.mem x = s.mem x := fun x outside => by
    rw [mem, store_outside (by omega)]
  have zero₁ : ∀ x, x / 4096 = dst → s₁.mem x = 0 := fun x inside => by
    rw [mem, store_inside (by omega) (by omega)]
  split at cloned
  · cases cloned
  rename_i s₃ ran
  cases cloned
  generalize isS₂ : cloneKernelHalf s₁ (src * 4096) (dst * 4096) = s₂
  rw [isS₂] at ran
  obtain ⟨free₂, mem₂, entries₂⟩ := copyEntries_spec other isS₂
  refine ⟨dst, s₂, rfl, ⟨mine, free₂ ▸ unused, free₂ ▸ touches.taken, fun x outside => ?_, fun i => ?_⟩, ran⟩
  · exact (mem₂ x outside).trans (same₁ x outside)
  by_cases listed : i ∈ kernelEntries
  · rw [entries₂ i, if_pos listed, if_pos listed]
    exact word_congr fun x lower upper => same₁ x (by omega)
  · rw [entries₂ i, if_neg listed, if_neg listed]
    exact word_zero fun x lower upper => zero₁ x (by omega)

/-- What `vmm_clone_pml4` returns. -/
lemma vmmClonePml4_spec (source : Source s src)
    (cloned : vmmClonePml4 s (src * 4096) = some (s', a)) :
    ∃ dst, a = dst * 4096 ∧ dst ∈ s.free ∧ UserTree (· ∈ s.free) dst s' ∧
      (∀ q, EntryPath userHalf q → Copied s src dst s' q) ∧
      (∀ i, ¬ userHalf i → s'.entry dst i = s.entry src i) ∧ Frozen s s' ∧ s'.free <:+ s.free := by
  have used : src ∉ s.free := source.tables.used [] src tablePath_nil rfl
  have valid : ∀ f ∈ s.free, 0 < f ∧ f < 2 ^ 52 := fun f listed =>
    ⟨source.positive f listed, source.tables.valid f listed⟩
  obtain ⟨dst, s₂, rfl, begun, ran⟩ := vmmClonePml4_begun source.tables.nodup used cloned
  have frozen₂ : Frozen s s₂ := fun x inUse =>
    begun.mem x fun same => inUse (same ▸ begun.mine)
  have zero : ∀ i : Fin 512, i.val < 256 → s₂.read64 (dst * 4096 + 8 * i) = 0 := by
    intro i user
    exact (begun.entries i).trans (if_neg fun listed => absurd (mem_kernelEntries.mp listed) (by omega))
  obtain ⟨tree, missing⟩ := of_zero valid begun.mine begun.unused zero
    (fun f listed => begun.taken.subset listed) (source.tables.nodup.sublist begun.taken.sublist)
  have at_top : ∀ i ∈ userEntries, EntryPath userHalf [i] := by
    refine fun i listed => ⟨by simp, by simp, ?_⟩
    rintro j ⟨⟩
    exact mem_userEntries.mp listed
  have vacant : ∀ i ∈ userEntries, s₂.live dst [i] = none := fun i listed => by
    have gone := missing [i] (userPath_of_entry (at_top i listed)) (by simp)
    rwa [tree.walk_eq_live (at_top i listed), map_eq_none_iff] at gone
  have copies := cloneLoop_copies source tablePath_nil at_top nodup_userEntries rfl
    (fun _ _ _ _ => rfl) (fun i listed s s' e inv frozen taken found vacant live visited =>
      cloneTable_copies source ⟨by simp, (at_top i listed).2.2⟩ inv frozen taken rfl found vacant live
        (fills_pdpt source (mem_userEntries.mp listed)) visited)
    tree frozen₂ begun.taken rfl vacant ran
  refine ⟨dst, rfl, begun.mine, copies.inv, fun q at_q => copies.copied q at_q ?_, fun i kernel => ?_,
    copies.frozen frozen₂ begun.taken begun.mine, copies.taken.trans begun.taken⟩
  · obtain ⟨l, i, rfl⟩ := (eq_nil_or_concat q).resolve_left (length_pos_iff.mp at_q.1)
    exact ⟨i, mem_userEntries.mpr (at_q.2.2 i (by simp)), l, by simp⟩
  · have listed : i ∈ kernelEntries := mem_kernelEntries.mpr (not_lt.mp kernel)
    rw [copies.kernel i kernel, begun.entries i, if_pos listed]

/-! ## Isolation -/

/-- Write one byte through an address space. -/
def Phys.poke (s : Phys) (root virt : Nat) (b : UInt8) : Phys :=
  s.store (vmmVirtToPhys s.mem (root * 4096) virt) 1 fun _ => b

/-- No write to a user page through `writer` is visible at a user address of `reader`. -/
def Invisible (s : Phys) (writer reader : Nat) : Prop :=
  ∀ v w b, v < userEnd → w < userEnd → vmmVirtToPhys s.mem (writer * 4096) v ≠ 0 →
    vmmVirtToPhys (s.poke writer v b).mem (reader * 4096) w = vmmVirtToPhys s.mem (reader * 4096) w ∧
    (vmmVirtToPhys s.mem (reader * 4096) w ≠ 0 →
      (s.poke writer v b).mem (vmmVirtToPhys s.mem (reader * 4096) w) =
        s.mem (vmmVirtToPhys s.mem (reader * 4096) w))

lemma poke_elsewhere (s : Phys) (root virt : Nat) (b : UInt8) {x : Nat}
    (other : x ≠ vmmVirtToPhys s.mem (root * 4096) virt) : (s.poke root virt b).mem x = s.mem x := by
  rw [poke, store_mem, store_outside (by omega)]

/-- As long as the frames in use are as they were, the source is read as before, from frames
    that were in use. -/
lemma Source.read (source : Source s src) (frozen : Frozen s s') (taken : s'.free <:+ s.free) {w : Nat}
    (user : w < userEnd) :
    vmmVirtToPhys s'.mem (src * 4096) w = vmmVirtToPhys s.mem (src * 4096) w ∧
      (vmmVirtToPhys s.mem (src * 4096) w ≠ 0 → vmmVirtToPhys s.mem (src * 4096) w / 4096 ∉ s.free) := by
  have at_w := entryPath_user user
  have at_directory := entryPath_directory at_w
  have at_pointers := entryPath_pointers at_w
  obtain ⟨tables, -, lives⟩ := source.tables.congr (fun g ⟨q, at_q, isG⟩ x inside => frozen x (by
    rw [inside]
    exact source.tables.used q g at_q isG)) taken
  have leaf : ∀ q, EntryPath userHalf q → s'.leaf src q = s.leaf src q := fun q at_q => by
    rw [leaf, leaf, lives q at_q]
  rw [tables.virtToPhys at_w, source.tables.virtToPhys at_w, translation, translation,
    leaf _ at_w, leaf _ at_directory, leaf _ at_pointers,
    source.small _ at_directory (by simp [path]), source.small _ at_pointers (by simp [path])]
  refine ⟨rfl, fun mapped => ?_⟩
  cases page : s.leaf src (path w) with
  | none => simp [page] at mapped
  | some e =>
    have inUse := source.mapped _ e at_w page
    simp only [pageDown]
    rwa [show (e / 4096 * 4096 + w % 4096) / 4096 = e / 4096 by omega]

section

variable (source : Source s src) (inv : UserTree (· ∈ s.free) dst s') (frozen : Frozen s s')
   (taken : s'.free <:+ s.free)

include source inv frozen taken

lemma poke_copy_invisible : Invisible s' dst src := by
  intro v w b userV userW mapped
  obtain ⟨f, page⟩ : ∃ f, s'.page dst v = some f := by
    by_contra absent
    exact mapped (inv.translate_unmapped userV (eq_none_iff_forall_ne_some.mpr fun f isF =>
      absent ⟨f, isF⟩))
  have mine := (inv.owned _ f (userPath_path userV) page).1
  have target : vmmVirtToPhys s'.mem (dst * 4096) v / 4096 = f := by
    rw [inv.translate_mapped userV page]
    omega
  have frozen' : Frozen s (s'.poke dst v b) := fun x inUse => by
    rw [poke_elsewhere s' dst v b fun same => inUse (by rw [same, target]; exact mine), frozen x inUse]
  obtain ⟨before, inUse⟩ := source.read frozen taken userW
  have after := (source.read frozen' taken userW).1
  refine ⟨after.trans before.symm, fun reads => ?_⟩
  rw [before] at reads ⊢
  rw [frozen' _ (inUse reads), frozen _ (inUse reads)]

lemma poke_source_invisible : Invisible s' src dst := by
  intro v w b userV userW mapped
  obtain ⟨before, inUse⟩ := source.read frozen taken userV
  rw [before] at mapped
  have same : ∀ x, x / 4096 ∈ s.free → (s'.poke src v b).mem x = s'.mem x := fun x mine =>
    poke_elsewhere s' src v b fun isTarget => inUse mapped (by rw [← before, ← isTarget]; exact mine)
  have tables : ∀ g, s'.IsTable dst g → ∀ x, x / 4096 = g → (s'.poke src v b).mem x = s'.mem x := by
    rintro g ⟨q, at_q, -, isG⟩ x inside
    exact same x (by rw [inside]; exact (inv.owned q g at_q isG).1)
  obtain ⟨inv', walks⟩ := inv.congr tables suffix_rfl
  have page : (s'.poke src v b).page dst w = s'.page dst w := walks _ (userPath_path userW)
  refine ⟨by rw [inv'.translate userW, inv.translate userW, page], fun reads => ?_⟩
  cases found : s'.page dst w with
  | none => exact absurd (inv.translate_unmapped userW found) reads
  | some f =>
    rw [inv.translate_mapped userW found]
    refine same _ ?_
    rw [show (f * 4096 + w % 4096) / 4096 = f by omega]
    exact (inv.owned _ f (userPath_path userW) found).1

end

end

/-! ## Frames that are written -/

section

variable {room : Nat → Prop}

/-- Memory outside `room` is as it was, and frames were only taken. -/
structure Within (room : Nat → Prop) (s s' : Phys) : Prop where
  mem : ∀ x, ¬ room x → s'.mem x = s.mem x
  taken : s'.free <:+ s.free

/-- Free frames may be written. -/
structure Fresh (room : Nat → Prop) (s : Phys) : Prop where
  once : s.free.Nodup
  inside : ∀ x, x / 4096 ∈ s.free → room x

lemma Within.trans {s'' : Phys} (first : Within room s s') (second : Within room s' s'') :
    Within room s s'' :=
  ⟨fun x outside => (second.mem x outside).trans (first.mem x outside), second.taken.trans first.taken⟩

lemma Fresh.keep (fresh : Fresh room s) (within : Within room s s') : Fresh room s' :=
  ⟨fresh.once.sublist within.taken.sublist, fun x free => fresh.inside x (within.taken.subset free)⟩

lemma Within.store (s : Phys) {n : Nat} (src : Nat → UInt8)
    (inside : ∀ x, a ≤ x → x < a + n → room x) : Within room s (s.store a n src) :=
  ⟨fun _ outside => store_outside fun range => outside (inside _ range.1 range.2), suffix_rfl⟩

lemma Fresh.palloc (fresh : Fresh room s) (allocated : s.pallocZero = some (s', a)) :
    ∃ f, a = f * 4096 ∧ Within room s s' ∧ ∀ x, x / 4096 = f → room x := by
  obtain ⟨f, rfl, free, -, mem, touches⟩ := pallocZero_spec allocated fresh.once
  have mine : ∀ x, x / 4096 = f → room x := fun x at_f => fresh.inside x (by simp [at_f, free])
  refine ⟨f, rfl, ⟨fun x outside => ?_, touches.taken⟩, mine⟩
  rw [mem, store_outside fun range => outside (mine x (by omega))]

lemma cloneLoop_within
    (visits : ∀ i ∈ is, ∀ s s' e, Fresh room s → visit s i e = some s' → Within room s s')
    (fresh : Fresh room s) (ran : cloneLoop skip visit src is s = some s') : Within room s s' := by
  induction is generalizing s with
  | nil =>
    cases ran
    exact ⟨fun _ _ => rfl, suffix_rfl⟩
  | cons i is ih =>
    have later : ∀ j ∈ is, ∀ s s' e, Fresh room s → visit s j e = some s' → Within room s s' :=
      fun j listed => visits j (.tail i listed)
    simp only [cloneLoop] at ran
    split at ran
    · exact ih later fresh ran
    split at ran
    · cases ran
    next s₁ visited =>
      have first := visits i mem_cons_self s s₁ _ fresh visited
      exact first.trans (ih later (fresh.keep first) ran)

/-- A table that may be written is filled in place. -/
def FillsWithin (room : Nat → Prop) (fill : Phys → Nat → Nat → Option Phys) : Prop :=
  ∀ s s' u t, Fresh room s → (∀ x, x / 4096 = t → room x) → fill s u (t * 4096) = some s' →
    Within room s s'

lemma clonePage_within (fresh : Fresh room s)
    (mine : ∀ x, dst + 8 * i ≤ x → x < dst + 8 * i + 8 → room x)
    (visited : clonePage src dst s i e = some s') : Within room s s' := by
  unfold clonePage at visited
  split at visited
  · cases visited
  rename_i s₁ page allocated
  obtain ⟨f, rfl, first, page⟩ := fresh.palloc allocated
  cases visited
  exact (first.trans (.store s₁ _ fun x lower upper => page x (by omega))).trans (.store _ _ mine)

lemma cloneTable_within
    (fills : FillsWithin room fill) (fresh : Fresh room s)
    (mine : ∀ x, dst + 8 * i ≤ x → x < dst + 8 * i + 8 → room x)
    (visited : cloneTable fill src dst s i e = some s') : Within room s s' := by
  unfold cloneTable at visited
  split at visited
  · cases visited
  rename_i s₁ table allocated
  obtain ⟨f, rfl, first, inTable⟩ := fresh.palloc allocated
  have linked := fun v => first.trans (.store s₁ (digit v) mine)
  exact (linked _).trans (fills _ _ _ f (fresh.keep (linked _)) inTable visited)

lemma fillsWithin_pt : FillsWithin room clonePt := fun _ _ _ _ fresh mine ran =>
  cloneLoop_within (fun _ _ _ _ _ fresh => clonePage_within fresh fun x _ _ => mine x (by omega)) fresh ran

lemma fillsWithin_table (fills : FillsWithin room fill) :
    FillsWithin room fun s src dst => cloneLoop huge (cloneTable fill src dst) src allEntries s :=
  fun _ _ _ _ fresh mine ran => cloneLoop_within
    (fun _ _ _ _ _ fresh => cloneTable_within fills fresh fun x _ _ => mine x (by omega)) fresh ran

/-- Whatever the source is, only free frames are written, and the kernel half is copied. -/
lemma vmmClonePml4_within (once : s.free.Nodup) (used : src ∉ s.free)
    (cloned : vmmClonePml4 s (src * 4096) = some (s', a)) :
    ∃ dst, a = dst * 4096 ∧ dst ∈ s.free ∧ dst ∉ s'.free ∧ Within (· / 4096 ∈ s.free) s s' ∧
      ∀ i, ¬ userHalf i → s'.entry dst i = s.entry src i := by
  obtain ⟨dst, s₂, rfl, begun, ran⟩ := vmmClonePml4_begun once used cloned
  have once₂ : s₂.free.Nodup := once.sublist begun.taken.sublist
  have lower : Within (fun x => x / 4096 ∈ s₂.free ∨ (dst * 4096 ≤ x ∧ x < dst * 4096 + 2048)) s₂ s' := by
    refine cloneLoop_within (fun i listed s s' e fresh visited => ?_) ⟨once₂, fun _ => .inl⟩ ran
    have user := mem_userEntries.mp listed
    exact cloneTable_within (fillsWithin_table (fillsWithin_table fillsWithin_pt)) fresh
      (fun x lower upper => .inr (by omega)) visited
  refine ⟨dst, rfl, begun.mine, fun listed => ?_, ⟨fun x busy => ?_, ?_⟩, fun i kernel => ?_⟩
  · exact begun.unused (lower.taken.subset listed)
  · have outside : x / 4096 ≠ dst := fun same => busy (same ▸ begun.mine)
    have notLower : ¬ (x / 4096 ∈ s₂.free ∨ (dst * 4096 ≤ x ∧ x < dst * 4096 + 2048)) := by
      rintro (listed | inside)
      · exact busy (begun.taken.subset listed)
      · omega
    rw [lower.mem x notLower, begun.mem x outside]
  · exact lower.taken.trans begun.taken
  have listed : i ∈ kernelEntries := mem_kernelEntries.mpr (not_lt.mp kernel)
  have upper := mem_kernelEntries.mp listed
  have still : s'.entry dst i = s₂.entry dst i := by
    refine word_congr fun x low high => lower.mem x ?_
    rintro (free | inside)
    · rw [show x / 4096 = dst by omega] at free
      exact begun.unused free
    · omega
  rw [still, begun.entries i, if_pos listed]

end

/-! ## Running out of frames -/

section

variable {k : Nat}

lemma palloc_total (enough : 0 < s.free.length) :
    ∃ s' a, s.pallocZero = some (s', a) ∧ s.free.length = s'.free.length + 1 := by
  cases free : s.free with
  | nil => simp [free] at enough
  | cons f rest =>
    simp only [pallocZero, free]
    exact ⟨_, _, rfl, rfl⟩

lemma clonePage_total (enough : 1 ≤ s.free.length) (src dst : Nat) (i : Fin 512) (e : Nat) :
    ∃ s', clonePage src dst s i e = some s' ∧ s.free.length ≤ s'.free.length + 1 := by
  obtain ⟨s₁, a, allocated, left⟩ := palloc_total enough
  simp only [clonePage, allocated]
  exact ⟨_, rfl, left.le⟩

lemma cloneTable_total
    (fills : ∀ s src dst, k ≤ s.free.length →
      ∃ s', fill s src dst = some s' ∧ s.free.length ≤ s'.free.length + k)
    (enough : 1 + k ≤ s.free.length) (src dst : Nat) (i : Fin 512) (e : Nat) :
    ∃ s', cloneTable fill src dst s i e = some s' ∧ s.free.length ≤ s'.free.length + (1 + k) := by
  obtain ⟨s₁, a, allocated, left⟩ := palloc_total (s := s) (by omega)
  simp only [cloneTable, allocated]
  obtain ⟨s', filled, left'⟩ := fills (s₁.write64 (dst + 8 * i)
    (a ||| s₁.read64 (src + 8 * i) &&& 0xFFF)) (pageDown e) a (by rw [write64_free]; omega)
  rw [write64_free] at left'
  exact ⟨s', filled, by omega⟩

lemma cloneLoop_total
    (visits : ∀ s i e, k ≤ s.free.length → ∃ s', visit s i e = some s' ∧ s.free.length ≤ s'.free.length + k)
    (src : Nat) (is : List (Fin 512)) (enough : is.length * k ≤ s.free.length) :
    ∃ s', cloneLoop skip visit src is s = some s' ∧ s.free.length ≤ s'.free.length + is.length * k := by
  induction is generalizing s with
  | nil => exact ⟨s, rfl, by omega⟩
  | cons i is ih =>
    rw [length_cons, succ_mul] at enough ⊢
    simp only [cloneLoop]
    split
    · obtain ⟨s', ran, left⟩ := ih (s := s) (by omega)
      exact ⟨s', ran, by omega⟩
    obtain ⟨s₁, visited, left₁⟩ := visits s i (s.read64 (src + 8 * i)) (by omega)
    obtain ⟨s', ran, left⟩ := ih (s := s₁) (by omega)
    exact ⟨s', by rw [visited]; exact ran, by omega⟩

def cloneFrames : Nat := 1 + 256 * (1 + 512 * (1 + 512 * (1 + 512 * 1)))

lemma cloneAll_total {visit : Nat → Nat → Phys → Fin 512 → Nat → Option Phys}
    (visits : ∀ src dst s i e, k ≤ s.free.length →
      ∃ s', visit src dst s i e = some s' ∧ s.free.length ≤ s'.free.length + k)
    (s : Phys) (src dst : Nat) (enough : 512 * k ≤ s.free.length) :
    ∃ s', cloneLoop skip (visit src dst) src allEntries s = some s' ∧
      s.free.length ≤ s'.free.length + 512 * k := by
  have all : allEntries.length = 512 := by
    unfold allEntries
    exact length_finRange
  obtain ⟨s', ran, left⟩ := cloneLoop_total (visits src dst) src allEntries (by rw [all]; exact enough)
  exact ⟨s', ran, all ▸ left⟩

lemma vmmClonePml4_total (enough : cloneFrames ≤ s.free.length) (src : Nat) :
    ∃ s' a, vmmClonePml4 s src = some (s', a) := by
  have user : userEntries.length = 256 := by decide +kernel
  have pt : ∀ s src dst, 512 * 1 ≤ s.free.length →
      ∃ s', clonePt s src dst = some s' ∧ s.free.length ≤ s'.free.length + 512 * 1 :=
    cloneAll_total fun src dst s i e enough => clonePage_total enough src dst i e
  have pd : ∀ s src dst, 512 * (1 + 512 * 1) ≤ s.free.length →
      ∃ s', clonePd s src dst = some s' ∧ s.free.length ≤ s'.free.length + 512 * (1 + 512 * 1) :=
    cloneAll_total fun src dst s i e enough => cloneTable_total pt enough src dst i e
  have pdpt : ∀ s src dst, 512 * (1 + 512 * (1 + 512 * 1)) ≤ s.free.length →
      ∃ s', clonePdpt s src dst = some s' ∧
        s.free.length ≤ s'.free.length + 512 * (1 + 512 * (1 + 512 * 1)) :=
    cloneAll_total fun src dst s i e enough => cloneTable_total pd enough src dst i e
  rw [cloneFrames] at enough
  obtain ⟨s₁, dst, allocated, left⟩ := palloc_total (s := s) (by omega)
  have kernel : ∀ is : List (Fin 512), ∀ s : Phys, (is.foldl (fun s (i : Fin 512) =>
      s.write64 (dst + 8 * i) (s.read64 (src + 8 * i))) s).free = s.free := by
    intro is
    induction is with
    | nil => exact fun _ => rfl
    | cons i is ih => exact fun s => ih _
  have room : userEntries.length * (1 + 512 * (1 + 512 * (1 + 512 * 1))) ≤
      (cloneKernelHalf s₁ src dst).free.length := by
    rw [user, cloneKernelHalf, kernel]
    omega
  have loop : ∃ s', cloneLoop (fun _ => false) (cloneTable clonePdpt src dst) src userEntries
      (cloneKernelHalf s₁ src dst) = some s' ∧ _ :=
    cloneLoop_total (fun s i e enough => cloneTable_total pdpt enough src dst i e) src userEntries room
  obtain ⟨s', ran, -⟩ := loop
  refine ⟨s', dst, ?_⟩
  simp only [vmmClonePml4, allocated, cloneUserHalf, ran]

end

lemma vmmClonePml4_vacant {rest : List Nat} (free : s.free = f :: rest)
    (other : src ≠ f) (vacant : ∀ i, userHalf i → present (s.entry src i) = false) :
    ∃ s', vmmClonePml4 s (src * 4096) = some (s', f * 4096) ∧ s'.free = rest := by
  obtain ⟨s₁, isS₁⟩ : ∃ s₁, s₁ = ({ s with free := rest } : Phys).store (f * 4096) 4096 (fun _ => 0) :=
    ⟨_, rfl⟩
  generalize isS₂ : cloneKernelHalf s₁ (src * 4096) (f * 4096) = s₂
  have copied := isS₂
  obtain ⟨free₂, mem₂, -⟩ := copyEntries_spec other copied
  have entries : ∀ i : Fin 512, s₂.read64 (src * 4096 + 8 * i) = s.entry src i := by
    intro i
    refine word_congr fun x lower upper => ?_
    have outside : x / 4096 ≠ f := by omega
    rw [mem₂ x outside, isS₁, store_mem, store_outside (by omega)]
  have skips : ∀ is : List (Fin 512), (∀ i ∈ is, userHalf i) →
      cloneLoop (fun _ => false) (cloneTable clonePdpt (src * 4096) (f * 4096)) (src * 4096) is s₂ =
        some s₂ := by
    intro is user
    induction is with
    | nil => rfl
    | cons i is ih =>
      have absent := vacant i (user i mem_cons_self)
      rw [cloneLoop, entries, absent]
      exact ih fun j listed => user j (mem_cons_of_mem i listed)
  have visited : cloneUserHalf s₂ (src * 4096) (f * 4096) = some s₂ :=
    skips userEntries fun i listed => mem_userEntries.mp listed
  refine ⟨s₂, ?_, by rw [free₂, isS₁]; rfl⟩
  simp only [vmmClonePml4, pallocZero, free, ← isS₁, isS₂, visited]

/-- The clone has exactly the pages of the source, with the same flags and the same bytes,
    in fresh frames that are all different; the kernel half is shared, what was in use is
    unchanged, and no write through one address space is visible through the other. -/
theorem clone_is_deep_copy {s : Phys} {src : Nat} (source : Source s src) :
    (cloneFrames ≤ s.free.length → ∃ s' a, vmmClonePml4 s (src * 4096) = some (s', a)) ∧
    ∀ s' a, vmmClonePml4 s (src * 4096) = some (s', a) → ∃ dst, a = dst * 4096 ∧
      (∀ q, EntryPath userHalf q → (s.leaf src q = none → s'.leaf dst q = none) ∧
        ∀ e, s.leaf src q = some e → ∃ f ∈ s.free, s'.leaf dst q = some (f * 4096 + e % 4096) ∧
          ∀ o < 4096, s'.mem (f * 4096 + o) = s.mem (e / 4096 * 4096 + o)) ∧
      (∀ p q f, userPath p → userPath q → s'.walk dst p = some f → s'.walk dst q = some f → p = q) ∧
      (∀ p f, userPath p → s'.walk dst p = some f → f ∈ s.free ∧ f ∉ s'.free) ∧
      (∀ i : Fin 512, 256 ≤ i.val → s'.entry dst i = s.entry src i) ∧
      (∀ x, x / 4096 ∉ s.free → s'.mem x = s.mem x) ∧
      Invisible s' dst src ∧ Invisible s' src dst := by
  refine ⟨fun enough => vmmClonePml4_total enough _, fun s' a cloned => ?_⟩
  obtain ⟨dst, rfl, -, inv, copied, kernel, frozen, taken⟩ := vmmClonePml4_spec source cloned
  refine ⟨dst, rfl, fun q at_q => ?_, fun p q f at_p at_q left right => inv.walk_unique at_p at_q left right,
    fun p f at_p found => inv.owned p f at_p found, fun i upper => kernel i (not_lt.mpr upper), frozen,
    poke_copy_invisible source inv frozen taken, poke_source_invisible source inv frozen taken⟩
  by_cases full : q.length = 4
  · have copy := copied q at_q
    unfold Copied at copy
    rw [leaf_full full, leaf_full full]
    refine ⟨fun absent => by rw [absent] at copy; exact copy, fun e there => ?_⟩
    rw [there] at copy
    obtain ⟨f, entry, bytes⟩ := copy
    refine ⟨f, ?_, entry, bytes full⟩
    have page : s'.walk dst q = some f := by
      rw [inv.walk_eq_live at_q, entry, map_some, some.injEq]
      omega
    exact (inv.owned q f (userPath_of_entry at_q) page).1
  · have short : q.length < 4 := lt_of_le_of_ne at_q.2.1 full
    refine ⟨fun _ => inv.leaf_short at_q short, fun e there => ?_⟩
    cases (source.small q at_q short).symm.trans there

/-- Memory of zeros with frames for a clone and an empty root in frame 7. -/
@[irreducible] def roomy : Phys := ⟨fun _ => 0, [1, 2, 3] ++ List.range' 8 cloneFrames, []⟩
lemma roomy_free (listed : f ∈ roomy.free) : 0 < f ∧ f < 2 ^ 52 ∧ f ≠ 4 ∧ f ≠ 7 := by
  unfold roomy at listed
  rcases mem_append.mp listed with early | late
  · simp only [mem_cons, not_mem_nil, or_false] at early
    omega
  obtain ⟨lower, upper⟩ := mem_range'_1.mp late
  rw [cloneFrames] at upper
  omega

lemma roomy_nodup : roomy.free.Nodup := by
  unfold roomy
  refine nodup_append.mpr ⟨by decide, nodup_range', fun a early b late same => ?_⟩
  have lower := (mem_range'_1.mp late).1
  simp only [mem_cons, not_mem_nil, or_false] at early
  omega

lemma roomy_length : roomy.free.length = cloneFrames + 3 := by
  unfold roomy
  rw [length_append, length_range', add_comm]
  rfl

lemma roomy_zero (x : Nat) : roomy.mem x = 0 := by
  unfold roomy
  rfl

theorem one_page_is_cloned : ∃ s s' a, mapPage true roomy (7 * 4096) 0x400000 0x4000 7 = some s ∧
    vmmClonePml4 s (7 * 4096) = some (s', a) ∧ ∃ dst f, a = dst * 4096 ∧
      s'.leaf dst (path 0x400000) = some (f * 4096 + 7) ∧
      ∀ o < 4096, s'.mem (f * 4096 + o) = s.mem (0x4000 + o) := by
  have user : 0x400000 < userEnd := by simp [userEnd]
  have size := roomy_length
  have empty : UserTree (fun f => 0 < f ∧ f < 2 ^ 52) 7 roomy ∧
      ∀ p, userPath p → p ≠ [] → roomy.walk 7 p = none :=
    of_zero (fun _ => id) (by decide) (fun listed => (roomy_free listed).2.2.2 rfl)
      (fun i _ => word_zero fun x _ _ => roomy_zero x)
      (fun f listed => ⟨(roomy_free listed).1, (roomy_free listed).2.1⟩) roomy_nodup
  obtain ⟨tree, missing⟩ := empty
  obtain ⟨s, mapped⟩ := mapPage_total (s := roomy) (by omega) true (7 * 4096) 0x400000 0x4000 7
  have maps := tree.mapPage_spec user mapped rfl (by decide) (by decide)
    (fun listed => (roomy_free listed).2.2.1 rfl) (.inl fun q at_q found => by
      by_cases top : q = []
      · rw [top, walk_nil] at found
        cases found
      · cases (missing q at_q top).symm.trans found)
  have leaves := tree.tables.mapPage_spec (entryPath_user user)
    (small_of_short (entryPath_user user) fun _ => tree.leaf_short) (by decide) mapped
  obtain ⟨total, copies⟩ := clone_is_deep_copy (.of_userTree maps.inv)
  obtain ⟨s', a, cloned⟩ := total (by have := leaves.supply; omega)
  obtain ⟨dst, isA, pages, -⟩ := copies s' a cloned
  have page : s.leaf 7 (path 0x400000) = some (pageEntry true 0x4000 7) := by
    rw [leaves.leaf _ (entryPath_user user), if_pos rfl]
  have entry : pageEntry true 0x4000 7 = 0x4007 := by decide
  obtain ⟨f, -, leaf, bytes⟩ := (pages _ (entryPath_user user)).2 _ page
  exact ⟨s, s', a, mapped, cloned, dst, f, isA, leaf, fun o within => bytes o within⟩

end Znu.Mm
