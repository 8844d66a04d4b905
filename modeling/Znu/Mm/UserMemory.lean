import Znu.Mm.PageMap

/-! # Growing a user address space

`sys_brk` and `sys_mmap` map fresh frames page by page. `Extends` says what such a
loop does to a process: no leaf changes, tables only gain entries and flags, and no
frame in use is written except the tables of the user half. This holds while the loop
meets only unmapped pages of the user half.
-/

namespace Znu.Mm

open Lib Lib.Radix List Phys Tables Tables

/-- `PAGE_ALIGN_UP` -/
def pageAlignUp (a : Nat) : Nat := pageDown ((a + 4095) % 2 ^ 64)

/-- `PTE_PRESENT | PTE_WRITABLE | PTE_USER` -/
def userData : Nat := ptePresent ||| pteWritable ||| pteUser

/-- `map_page(pml4, virt, palloc_zero(), PTE_PRESENT | PTE_WRITABLE | PTE_USER)` -/
def mapFresh (nx : Bool) (s : Phys) (pml4 virt : Nat) : Option Phys :=
  match s.pallocZero with
  | none => none
  | some (s, phys) => mapPage nx s pml4 virt phys userData

/-- `for (p = page; p < stop; p += 4096)` around `mapFresh`. Each iteration takes a frame,
    so with more fuel than free frames it is never the fuel that runs out. -/
def mapFreshLoop (nx : Bool) (pml4 stop : Nat) : Nat → Nat → Phys → Option Phys
  | 0, _, _ => none
  | fuel + 1, page, s =>
    if page < stop then
      match mapFresh nx s pml4 page with
      | none => none
      | some s => mapFreshLoop nx pml4 stop fuel ((page + 4096) % 2 ^ 64) s
    else some s

def mapFreshRange (nx : Bool) (s : Phys) (pml4 start stop : Nat) : Option Phys :=
  mapFreshLoop nx pml4 stop (s.free.length + 1) start s

/-! ## The loop takes frames -/

variable {s s' : Phys} {nx : Bool} {pml4 : Nat}

variable {flags root virt : Nat}

lemma nextTable_taken {table idx a : Nat}
    (stepped : nextTable s table idx flags = some (s', a)) : s'.free <:+ s.free := by
  unfold nextTable at stepped
  by_cases there : present (s.read64 (table + 8 * idx)) = true
  · rw [if_pos there] at stepped
    cases stepped
    exact suffix_rfl
  rw [if_neg there] at stepped
  cases free : s.free with
  | nil => simp [pallocZero, free] at stepped
  | cons f rest =>
    simp only [pallocZero, free] at stepped
    cases stepped
    exact suffix_cons f rest

lemma mapPage_taken {phys : Nat} (mapped : mapPage nx s pml4 virt phys flags = some s') :
    s'.free <:+ s.free := by
  obtain ⟨_, _, _, _, s₁, s₂, s₃, _, _, _, -, first, second, third, rfl⟩ := mapPage_steps mapped
  exact (nextTable_taken third).trans ((nextTable_taken second).trans (nextTable_taken first))

lemma mapFresh_taken (mapped : mapFresh nx s pml4 virt = some s') : s'.free.length < s.free.length := by
  unfold mapFresh at mapped
  cases free : s.free with
  | nil => simp [pallocZero, free] at mapped
  | cons f rest =>
    simp only [pallocZero, free] at mapped
    have taken := (mapPage_taken mapped).length_le
    simp only [store_free] at taken
    rw [length_cons]
    omega

variable {fuel page stop : Nat}

/-- More fuel than free frames makes no difference. -/
lemma mapFreshLoop_fuel (enough : s.free.length < fuel) :
    mapFreshLoop nx pml4 stop (fuel + 1) page s = mapFreshLoop nx pml4 stop fuel page s := by
  induction fuel generalizing page s with
  | zero => omega
  | succ fuel ih =>
    rw [mapFreshLoop, mapFreshLoop]
    split
    · cases mapped : mapFresh nx s pml4 page with
      | none => rfl
      | some s' => exact ih (by have := mapFresh_taken mapped; omega)
    · rfl

/-! ## One page -/

/-- No page of any size covers the address. -/
structure Phys.Unmapped (s : Phys) (root virt : Nat) : Prop extends s.Small root virt where
  page : s.leaf root (path virt) = none

instance (s : Phys) (root virt : Nat) : Decidable (s.Unmapped root virt) :=
  decidable_of_iff (s.Small root virt ∧ s.leaf root (path virt) = none)
    ⟨fun ⟨small, page⟩ => ⟨small, page⟩, fun ⟨small, page⟩ => ⟨small, page⟩⟩

/-- User mode may write the page: every level says so. -/
structure Phys.UserWritable (s : Phys) (root virt : Nat) : Prop where
  page : ∃ e, s.leaf root (path virt) = some e ∧ e.testBit 1 = true ∧ e.testBit 2 = true
  tables : ∀ r, r ≠ [] → r <:+ (path virt).tail →
    ∃ e, s.live root r = some e ∧ e.testBit 1 = true ∧ e.testBit 2 = true

/-- Pages can be made writable: no table is linked read-only. -/
def Phys.OpenTables (s : Phys) (root : Nat) : Prop :=
  ∀ r e, EntryPath userHalf r → r.length < 4 → s.live root r = some e → e.testBit 1 = true

lemma Phys.Unmapped.of_empty (vacant : ∀ i, present (s.entry root i) = false)
    (virt : Nat) : s.Unmapped root virt := by
  have noLeaf : ∀ q, s.leaf root q = none := fun q => by
    rw [leaf, live_of_empty vacant]
    rfl
  exact ⟨⟨noLeaf _, noLeaf _⟩, noLeaf _⟩

lemma Phys.OpenTables.of_empty (vacant : ∀ i, present (s.entry root i) = false) : s.OpenTables root := by
  intro r e _ _ there
  cases (live_of_empty vacant r).symm.trans there

/-- `s'` comes from `s` by mapping fresh frames at unmapped user pages. -/
structure Extends (root : Nat) (s s' : Phys) : Prop where
  inv : Tables everywhere root s'
  leaf : ∀ q e, EntryPath everywhere q → s.leaf root q = some e → s'.leaf root q = some e
  kernel : ∀ q, EntryPath everywhere q → ¬ EntryPath userHalf q → s'.leaf root q = s.leaf root q
  live : ∀ q e, EntryPath everywhere q → q.length < 4 → s.live root q = some e →
    ∃ e', s'.live root q = some e' ∧ ∀ b, e.testBit b = true → e'.testBit b = true
  opened : ∀ q e, EntryPath everywhere q → q.length < 4 → s'.live root q = some e →
    s.live root q = none → e.testBit 1 = true
  others : ∀ g, g ∉ s.free → ¬ Tables.Holds userHalf root s g →
    ¬ Tables.Holds userHalf root s' g ∧ ∀ x, x / 4096 = g → s'.mem x = s.mem x
  born : ∀ g, Tables.Holds everywhere root s' g → Tables.Holds everywhere root s g ∨ g ∈ s.free
  taken : s'.free <:+ s.free

lemma tablePath_everywhere {p : List (Fin 512)} (at_p : TablePath userHalf p) :
    TablePath everywhere p := ⟨at_p.1, fun _ _ => trivial⟩

lemma entryPath_everywhere {q : List (Fin 512)} (at_q : EntryPath userHalf q) :
    EntryPath everywhere q := ⟨at_q.1, at_q.2.1, fun _ _ => trivial⟩

namespace Extends

variable {s'' : Phys}

lemma refl (inv : Tables everywhere root s) : Extends root s s where
  inv := inv
  leaf _ _ _ := id
  kernel _ _ _ := rfl
  live _ e _ _ there := ⟨e, there, fun _ => id⟩
  opened _ _ _ _ there absent := by cases there.symm.trans absent
  others _ _ notTable := ⟨notTable, fun _ _ => rfl⟩
  born _ := .inl
  taken := suffix_rfl

lemma trans (first : Extends root s s') (second : Extends root s' s'') : Extends root s s'' where
  inv := second.inv
  leaf q e at_q there := second.leaf q e at_q (first.leaf q e at_q there)
  kernel q at_q outside := (second.kernel q at_q outside).trans (first.kernel q at_q outside)
  live q e at_q short there := by
    obtain ⟨e', there', bits⟩ := first.live q e at_q short there
    obtain ⟨e'', there'', bits'⟩ := second.live q e' at_q short there'
    exact ⟨e'', there'', fun b set => bits' b (bits b set)⟩
  opened q e at_q short there absent := by
    cases between : s'.live root q with
    | none => exact second.opened q e at_q short there between
    | some e' =>
      obtain ⟨e'', there'', bits⟩ := second.live q e' at_q short between
      cases there''.symm.trans there
      exact bits 1 (first.opened q e' at_q short between absent)
  others g used notTable := by
    obtain ⟨notTable', same⟩ := first.others g used notTable
    obtain ⟨notTable'', same'⟩ := second.others g (fun listed => used (first.taken.subset listed)) notTable'
    exact ⟨notTable'', fun x inside => (same' x inside).trans (same x inside)⟩
  born g isTable := by
    rcases second.born g isTable with old | new
    · exact first.born g old
    · exact .inr (first.taken.subset new)
  taken := second.taken.trans first.taken

lemma openTables (extends_ : Extends root s s') (start : s.OpenTables root) : s'.OpenTables root := by
  intro r e at_r short there
  cases before : s.live root r with
  | none => exact extends_.opened r e (entryPath_everywhere at_r) short there before
  | some e₀ =>
    obtain ⟨e', there', bits⟩ := extends_.live r e₀ (entryPath_everywhere at_r) short before
    cases there'.symm.trans there
    exact bits 1 (start r e₀ at_r short before)

lemma userWritable (extends_ : Extends root s s') (before : s.UserWritable root virt) :
    s'.UserWritable root virt := by
  obtain ⟨⟨e, there, writable, user⟩, tables⟩ := before
  refine ⟨⟨e, extends_.leaf _ e (entryPath_path virt) there, writable, user⟩, fun r nonempty above => ?_⟩
  obtain ⟨e, there, writable, user⟩ := tables r nonempty above
  have at_r := entryPath_suffix (entryPath_directory (entryPath_path virt)) above nonempty
  obtain ⟨e', there', bits⟩ :=
    extends_.live r e at_r (lt_of_le_of_lt above.length_le (by simp [path])) there
  exact ⟨e', there', bits 1 writable, bits 2 user⟩

lemma virtToPhys (extends_ : Extends root s s') (inv : Tables everywhere root s)
    (mapped : ¬ s.Unmapped root virt) :
    vmmVirtToPhys s'.mem (root * 4096) virt = vmmVirtToPhys s.mem (root * 4096) virt := by
  have at_page := entryPath_path virt
  have at_directory := entryPath_directory at_page
  have at_pointers := entryPath_pointers at_page
  rw [extends_.inv.virtToPhys at_page, inv.virtToPhys at_page, translation, translation]
  cases pointers : s.leaf root (path virt).tail.tail with
  | some e => rw [extends_.leaf _ e at_pointers pointers]
  | none =>
    cases directory : s.leaf root (path virt).tail with
    | some e =>
      have still := extends_.leaf _ e at_directory directory
      rw [still, leaf_above_none (by simp [path]) still (tail_suffix _) (by simp [path])]
    | none =>
      cases page : s.leaf root (path virt) with
      | some e =>
        have still := extends_.leaf _ e at_page page
        rw [still, leaf_above_none (by simp [path]) still (tail_suffix _) (by simp [path]),
          leaf_above_none (by simp [path]) still ((tail_suffix _).trans (tail_suffix _)) (by simp [path])]
      | none => exact absurd ⟨⟨directory, pointers⟩, page⟩ mapped

lemma virtToPhys_kernel (extends_ : Extends root s s') (inv : Tables everywhere root s)
    (kernel : 256 ≤ pml4Idx virt) :
    vmmVirtToPhys s'.mem (root * 4096) virt = vmmVirtToPhys s.mem (root * 4096) virt := by
  have at_page := entryPath_path virt
  have outside : ∀ q, q <:+ path virt → ¬ EntryPath userHalf q := by
    rintro q above ⟨nonempty, -, top⟩
    obtain ⟨l, isPath⟩ := above
    have last := List.getLast?_append_of_ne_nil l (length_pos_iff.mp nonempty)
    rw [isPath] at last
    have := top ⟨pml4Idx virt, Nat.mod_lt _ (by decide)⟩ (by rw [← last]; rfl)
    simp only [userHalf] at this
    omega
  rw [extends_.inv.virtToPhys at_page, inv.virtToPhys at_page, translation, translation,
    extends_.kernel _ at_page (outside _ suffix_rfl),
    extends_.kernel _ (entryPath_directory at_page) (outside _ (tail_suffix _)),
    extends_.kernel _ (entryPath_pointers at_page) (outside _ ((tail_suffix _).trans (tail_suffix _)))]

lemma of_mapFresh (inv : Tables everywhere root s) (user : virt < userEnd)
    (absent : s.Unmapped root virt) (mapped : mapFresh nx s (root * 4096) virt = some s') :
    Extends root s s' ∧
      (∀ q, EntryPath everywhere q → q ≠ path virt → s'.leaf root q = s.leaf root q) ∧
      (s.OpenTables root → s'.UserWritable root virt) := by
  unfold mapFresh at mapped
  split at mapped
  · cases mapped
  rename_i s₁ phys allocated
  obtain ⟨f, rfl, free, -, valid, inv₁, tables₁, lives₁, -, -, touches₁⟩ := inv.palloc allocated
  have leaf₁ : ∀ q, EntryPath everywhere q → s₁.leaf root q = s.leaf root q := fun q at_q => by
    rw [Phys.leaf, Phys.leaf, lives₁ q at_q]
  have small₁ : s₁.Small root virt :=
    ⟨(leaf₁ _ (entryPath_directory (entryPath_path virt))).trans absent.directory,
      (leaf₁ _ (entryPath_pointers (entryPath_path virt))).trans absent.pointers⟩
  have low : finalFlags nx userData < 4096 := by cases nx <;> decide
  have maps := inv₁.mapPage_spec (entryPath_path virt) small₁ (pageEntry_lt low (by omega)) mapped
  have taken : s'.free <:+ s.free := maps.touches.taken.trans touches₁.taken
  have at_tail : TablePath userHalf (path virt).tail :=
    tablePath_of_cons _ _ (entryPath_user user)
  have notNew : ∀ g, g ∉ s.free → ¬ Holds userHalf root s g → ¬ Holds userHalf root s' g := by
    rintro g used notTable ⟨q, at_q, found⟩
    rcases maps.born q g (tablePath_everywhere at_q) found with old | new
    · exact notTable ⟨q, at_q, (tables₁ q (tablePath_everywhere at_q)).symm.trans old⟩
    · exact used (touches₁.taken.subset new)
  have extends_ : Extends root s s' := by
    refine ⟨maps.inv, fun q e at_q there => ?_, fun q at_q outside => ?_,
      fun q e at_q short there => ?_, fun q e at_q short there before => ?_, fun g used notTable => ?_, ?_, taken⟩
    · rw [maps.leaf q at_q, leaf₁ q at_q, if_neg, there]
      rintro rfl
      cases absent.page.symm.trans there
    · rw [maps.leaf q at_q, leaf₁ q at_q, if_neg]
      rintro rfl
      exact outside (entryPath_user user)
    · exact maps.grows q at_q short e ((lives₁ q at_q).trans there)
    · exact maps.opened q at_q short e there ((lives₁ q at_q).trans before)
    · refine ⟨notNew g used notTable, fun x inside => ?_⟩
      rw [maps.touches.mem x, touches₁.mem x]
      · rintro ⟨isNew, -⟩
        exact used (by rw [← inside, isNew, free]; exact mem_cons_self)
      · rintro ⟨⟨r, above, found⟩, -⟩
        exact notNew g used notTable ⟨r, tablePath_suffix at_tail above, inside ▸ found⟩
    · rintro g ⟨q, at_q, found⟩
      rcases maps.born q g at_q found with old | new
      · exact .inl ⟨q, at_q, (tables₁ q at_q).symm.trans old⟩
      · exact .inr (touches₁.taken.subset new)
  refine ⟨extends_, fun q at_q other => ?_, fun start => ⟨⟨pageEntry nx (f * 4096) userData, ?_, ?_, ?_⟩,
    fun r nonempty above => ?_⟩⟩
  · rw [maps.leaf q at_q, if_neg other, leaf₁ q at_q]
  · rw [maps.leaf _ (entryPath_path virt), if_pos rfl]
  · exact pageEntry_testBit nx _ _ (by decide) (by decide)
  · exact pageEntry_testBit nx _ _ (by decide) (by decide)
  obtain ⟨e, there, bit⟩ := maps.marked (by decide) r nonempty above
  have at_r : EntryPath userHalf r :=
    entryPath_suffix (entryPath_directory (entryPath_user user)) above nonempty
  exact ⟨e, there, extends_.openTables start r e at_r
    (lt_of_le_of_lt above.length_le (by simp [path])) there, bit⟩

end Extends

/-! ## The loop -/

section

/-- Mapping one page leaves the others unmapped. -/
lemma Phys.Unmapped.other {v w : Nat} (absent : s.Unmapped root v) (different : path v ≠ path w)
    (leaves : ∀ q, EntryPath everywhere q → q ≠ path w → s'.leaf root q = s.leaf root q) :
    s'.Unmapped root v := by
  have short : ∀ q, q.length < 4 → q ≠ path w := by
    rintro q short rfl
    simp [path] at short
  refine ⟨⟨?_, ?_⟩, ?_⟩
  · rw [leaves _ (entryPath_directory (entryPath_path v)) (short _ (by simp [path])), absent.directory]
  · rw [leaves _ (entryPath_pointers (entryPath_path v)) (short _ (by simp [path])), absent.pointers]
  · rw [leaves _ (entryPath_path v) different, absent.page]

lemma mapFreshLoop_spec (inv : Tables everywhere root s) (start : s.OpenTables root)
    (user : stop ≤ userEnd) (aligned : page % 4096 = 0)
    (absent : ∀ v, page ≤ v → v < stop → s.Unmapped root v)
    (mapped : mapFreshLoop nx (root * 4096) stop fuel page s = some s') :
    Extends root s s' ∧ ∀ v, page ≤ v → v < stop → s'.UserWritable root v := by
  induction fuel generalizing page s with
  | zero => cases mapped
  | succ fuel ih =>
    rw [mapFreshLoop] at mapped
    by_cases more : page < stop
    · rw [if_pos more] at mapped
      split at mapped
      · cases mapped
      rename_i s₁ first
      have below := lt_of_lt_of_le more user
      obtain ⟨extends₁, leaves, writable⟩ :=
        Extends.of_mapFresh inv below (absent page le_rfl more) first
      have next : (page + 4096) % 2 ^ 64 = page + 4096 := Nat.mod_eq_of_lt (by
        simp only [userEnd] at below
        omega)
      obtain ⟨extends₂, rest⟩ := ih extends₁.inv (extends₁.openTables start) (by omega)
        (fun v lower upper => (absent v (by omega) upper).other
          (fun same => absurd ((path_eq_iff (by omega) below).mp same) (by omega)) leaves) mapped
      refine ⟨extends₁.trans extends₂, fun v lower upper => ?_⟩
      by_cases here : v < page + 4096
      · have same : path v = path page := (path_eq_iff (by omega) below).mpr (by omega)
        have now := extends₂.userWritable (writable start)
        exact ⟨same ▸ now.page, same ▸ now.tables⟩
      · exact rest v (by omega) upper
    · rw [if_neg more] at mapped
      cases mapped
      exact ⟨.refl inv, fun v lower upper => by omega⟩

end

end Znu.Mm
