import Znu.Mm.Tables

/-! # The operations on page tables

What `map_page`, `map_page_huge` and `unmap_page` do to the leaves of an address
space, and what `vmm_virt_to_phys` reads from them. The two operations on 4 KiB pages
take whatever entry they find in the page directory for a pointer to a table, so their
specifications need that no large page covers the address.
-/

namespace Znu.Mm

open Lib Lib.Radix Option List Phys Bool

/-- No large page covers the address. -/
structure Phys.Small (s : Phys) (root virt : Nat) : Prop where
  directory : s.leaf root (path virt).tail = none
  pointers : s.leaf root (path virt).tail.tail = none

instance (s : Phys) (root virt : Nat) : Decidable (s.Small root virt) :=
  decidable_of_iff (s.leaf root (path virt).tail = none ∧ s.leaf root (path virt).tail.tail = none)
    ⟨fun ⟨directory, pointers⟩ => ⟨directory, pointers⟩, fun ⟨directory, pointers⟩ => ⟨directory, pointers⟩⟩

/-- The leaf `map_page` makes. -/
def pageEntry (nx : Bool) (phys flags : Nat) : Nat :=
  pageDown phys ||| finalFlags nx flags ||| ptePresent

/-- The leaf `map_page_huge` makes. -/
def hugeEntry (nx : Bool) (phys flags : Nat) : Nat :=
  phys / 2 ^ 21 * 2 ^ 21 ||| finalFlags nx flags ||| ptePresent ||| pteHuge

lemma pageEntry_present (nx : Bool) (phys flags : Nat) : present (pageEntry nx phys flags) = true := by
  simp [pageEntry, present, ptePresent]

lemma hugeEntry_bits (nx : Bool) (phys flags : Nat) :
    present (hugeEntry nx phys flags) = true ∧ huge (hugeEntry nx phys flags) = true := by
  constructor
  · simp only [present, hugeEntry, Nat.testBit_or, show ptePresent.testBit 0 = true from rfl,
      Bool.or_true, Bool.true_or]
  · simp only [huge, hugeEntry, Nat.testBit_or, show pteHuge.testBit 7 = true from rfl, Bool.or_true]

variable {e : Nat} {q : List (Fin 512)}

variable {half : Fin 512 → Prop} {root virt : Nat} {s s' : Phys}

namespace Tables

variable {flags phys : Nat} {i : Fin 512} {nx : Bool}

section

variable (inv : Tables half root s)

include inv

lemma leaf_top (chosen : half i) : s.leaf root [i] = none := by
  have found : s.table root [] = some root := rfl
  rw [leaf, live_cons found]
  cases there : present (s.entry root i) with
  | false =>
    rw [filter_some, there]
    rfl
  | true =>
    rw [filter_some, there, if_pos rfl, filter_some, inv.upper i chosen there]
    rfl

/-- What mapping a 4 KiB page does. -/
structure Maps (half : Fin 512 → Prop) (root : Nat) (s s' : Phys) (virt flags e : Nat) : Prop where
  inv : Tables half root s'
  leaf : ∀ q, EntryPath half q → s'.leaf root q = if q = path virt then some e else s.leaf root q
  grows : ∀ r, EntryPath half r → r.length < 4 → ∀ e, s.live root r = some e →
    ∃ e', s'.live root r = some e' ∧ ∀ b, e.testBit b = true → e'.testBit b = true
  plain : flags &&& pteUser = 0 → ∀ r, EntryPath half r → r.length < 4 → ∀ e,
    s.live root r = some e → s'.live root r = some e
  marked : flags.testBit 2 = true → ∀ r, r ≠ [] → r <:+ (path virt).tail →
    ∃ e, s'.live root r = some e ∧ e.testBit 2 = true
  opened : ∀ r, EntryPath half r → r.length < 4 → ∀ e, s'.live root r = some e →
    s.live root r = none → e.testBit 1 = true
  born : ∀ r g, TablePath half r → s'.table root r = some g → s.table root r = some g ∨ g ∈ s.free
  supply : s.free.length ≤ s'.free.length + 3
  touches : s.Touches (fun x => Along root s' (path virt).tail (x / 4096)) s'

/-- The last level of `map_page` and `unmap_page`. -/
lemma setLeaf {p : List (Fin 512)} {t : Nat}
    (at_q : EntryPath half (i :: p)) (level : p.length = 3) (found : s.table root p = some t)
    (fits : e < 2 ^ 64) :
    Tables half root (s.write64 (t * 4096 + 8 * i) e) ∧
      (∀ q, TablePath half q → (s.write64 (t * 4096 + 8 * i) e).table root q = s.table root q) ∧
      (∀ q, EntryPath half q → q.length < 4 → (s.write64 (t * 4096 + 8 * i) e).live root q = s.live root q) ∧
      ∀ q, EntryPath half q → (s.write64 (t * 4096 + 8 * i) e).leaf root q =
        if q = i :: p then (some e).filter present else s.leaf root q := by
  obtain ⟨inv', tables, lives⟩ := inv.rewrite at_q found fits (.inl level) (by
    rintro rfl
    cases level)
  refine ⟨inv', tables, fun q at_r short => ?_, fun q at_r => ?_⟩
  · rw [lives q at_r, if_neg]
    rintro rfl
    rw [length_cons, level] at short
    omega
  · rw [leaf, leaf, lives q at_r]
    split
    next same =>
      subst same
      rw [filter_some]
      split
      · simp [level]
      · rfl
    · rfl

lemma mapPage_spec
    (chosen : EntryPath half (path virt)) (small : s.Small root virt)
    (fits : pageEntry nx phys flags < 2 ^ 64)
    (mapped : mapPage nx s (root * 4096) virt phys flags = some s') :
    Maps half root s s' virt flags (pageEntry nx phys flags) := by
  obtain ⟨i₀, i₁, i₂, i₃, s₁, s₂, s₃, a₁, a₂, a₃, indices, first, second, third, rfl⟩ :=
    mapPage_steps mapped
  have directory := small.directory
  have pointers := small.pointers
  rw [indices] at chosen directory pointers
  have at₃ : TablePath half [i₁, i₂, i₃] := tablePath_of_cons _ _ chosen
  have at₂ := tablePath_tail _ _ at₃
  have at₁ := tablePath_tail _ _ at₂
  have top := inv.leaf_top (at₁.2 i₃ rfl)
  obtain ⟨t₁, rfl, opens₁⟩ := (Opens.nil inv flags).step at₁ top first
  obtain ⟨t₂, rfl, opens₂⟩ := opens₁.step at₂ pointers second
  obtain ⟨t₃, rfl, opens₃⟩ := opens₂.step at₃ directory third
  obtain ⟨inv', tables, lives, leaves⟩ := opens₃.inv.setLeaf chosen rfl opens₃.found fits
  refine ⟨inv', fun q at_q => ?_, fun r at_r short e there => ?_,
    fun plain r at_r short e there => (lives r at_r short).trans (opens₃.plain plain r at_r e there),
    fun user r nonempty above => ?_, fun r at_r short e there absent => ?_,
    fun r g at_r found => ?_, ?_, ?_⟩
  · rw [indices]
    exact (leaves q at_q).trans (by
      rw [opens₃.leaf q at_q, filter_some, pageEntry_present, if_pos rfl])
  · obtain ⟨e', there', bits⟩ := opens₃.grows r at_r e there
    exact ⟨e', (lives r at_r short).trans there', bits⟩
  · rw [indices] at above
    have at_r := entryPath_suffix (entryPath_of_table at₃) above nonempty
    obtain ⟨e', there', bit⟩ := opens₃.marked user r nonempty above
    exact ⟨e', (lives r at_r (lt_of_le_of_lt above.length_le (by simp))).trans there', bit⟩
  · exact opens₃.opened r at_r e ((lives r at_r short).symm.trans there) absent
  · exact opens₃.born r g at_r ((tables r at_r).symm.trans found)
  · exact opens₃.supply
  rw [indices]
  refine (opens₃.touches.mono fun x along => ?_).trans (opens₃.inv.write_touches chosen opens₃.found ?_)
  · obtain ⟨r, above, found⟩ := along
    exact ⟨r, above, (tables r (tablePath_suffix at₃ above)).trans found⟩
  · exact (tables _ at₃).trans opens₃.found

/-- What mapping a 2 MiB page does. -/
structure MapsHuge (half : Fin 512 → Prop) (root : Nat) (s s' : Phys) (virt e : Nat) : Prop where
  inv : Tables half root s'
  leaf : ∀ q, EntryPath half q → s'.leaf root q =
    if q = (path virt).tail then some e else if (path virt).tail <:+ q then none else s.leaf root q
  supply : s.free.length ≤ s'.free.length + 2
  touches : s.Touches (fun x => Along root s' (path virt).tail.tail (x / 4096)) s'

lemma mapPageHuge_spec
    (chosen : EntryPath half (path virt)) (small : s.leaf root (path virt).tail.tail = none)
    (fits : hugeEntry nx phys flags < 2 ^ 64)
    (mapped : mapPageHuge nx s (root * 4096) virt phys flags = some s') :
    MapsHuge half root s s' virt (hugeEntry nx phys flags) := by
  obtain ⟨i₀, i₁, i₂, i₃, indices, pt, pd, pdp, pml4⟩ := path_indices virt
  rw [indices] at chosen small
  have at₃ : TablePath half [i₁, i₂, i₃] := tablePath_of_cons _ _ chosen
  have at₂ := tablePath_tail _ _ at₃
  have at₁ := tablePath_tail _ _ at₂
  have top := inv.leaf_top (at₁.2 i₃ rfl)
  obtain ⟨there, isHuge⟩ := hugeEntry_bits nx phys flags
  unfold mapPageHuge at mapped
  rw [pd, pdp, pml4] at mapped
  split at mapped
  · cases mapped
  rename_i s₁ a₁ first
  obtain ⟨t₁, rfl, opens₁⟩ := (Opens.nil inv flags).step at₁ top first
  split at mapped
  · cases mapped
  rename_i s₂ a₂ second
  obtain ⟨t₂, rfl, opens₂⟩ := opens₁.step at₂ small second
  cases mapped
  obtain ⟨inv', tables, lives⟩ := opens₂.inv.detach (entryPath_of_table at₃) opens₂.found fits
    (e := hugeEntry nx phys flags) (by simp [isTable, isHuge]) nofun
  have above : ∀ r, r <:+ [i₂, i₃] → ¬ [i₁, i₂, i₃] <:+ r := by
    intro r above below
    have short := above.length_le
    have long := below.length_le
    simp at short long
    omega
  refine ⟨inv', fun q at_q => ?_, opens₂.supply, ?_⟩
  · have slot : (path virt).tail = [i₁, i₂, i₃] := by rw [indices, tail_cons]
    rw [slot, ← opens₂.leaf q at_q]
    refine (congrArg (Option.filter fun e => q.length == 4 || huge e) (lives q at_q)).trans ?_
    by_cases here : q = [i₁, i₂, i₃]
    · rw [if_pos here, if_pos here, filter_some, if_pos there, filter_some, isHuge, Bool.or_true, if_pos rfl]
    rw [if_neg here, if_neg here]
    by_cases below : [i₁, i₂, i₃] <:+ q
    · rw [if_pos below, if_pos below]
      rfl
    · rw [if_neg below, if_neg below]
      rfl
  · rw [indices]
    refine (opens₂.touches.mono fun x along => ?_).trans
      (opens₂.inv.write_touches (entryPath_of_table at₃) opens₂.found ?_)
    · obtain ⟨r, inside, found⟩ := along
      exact ⟨r, inside, (tables r (tablePath_suffix at₂ inside) (above r inside)).trans found⟩
    · exact (tables _ at₂ (above _ suffix_rfl)).trans opens₂.found

end

/-! ## Walking down -/

section

variable {p r : List (Fin 512)} {t : Nat}

omit s' in
lemma table_present (found : s.table root p = some t) (short : p.length < 3)
    (notLarge : s.leaf root (i :: p) = none) (there : present (s.entry t i) = true) :
    s.table root (i :: p) = some (s.entry t i / 4096) := by
  have inner : ((i :: p).length == 4) = false := by
    rw [beq_eq_false_iff_ne, length_cons]
    omega
  have small : huge (s.entry t i) = false := by
    rw [leaf, live_cons found, filter_some, if_pos there, filter_some, inner, Bool.false_or] at notLarge
    cases isHuge : huge (s.entry t i) with
    | false => rfl
    | true =>
      rw [isHuge] at notLarge
      cases notLarge
  refine (node_cons found i).trans ?_
  have pointer : isTable (s.mem.word (t * 4096 + 8 * i) 8) = true :=
    and_eq_true_iff.mpr ⟨there, by rw [not_eq_true']; exact small⟩
  rw [tableChild, if_pos pointer]
  rfl

omit s' in
lemma table_absent (found : s.table root p = some t) (notTable : isTable (s.entry t i) = false) :
    s.table root (i :: p) = none := by
  refine (node_cons found i).trans ?_
  have pointer : isTable (s.mem.word (t * 4096 + 8 * i) 8) = false := notTable
  rw [tableChild, pointer]
  rfl

omit s' in
/-- An entry above the last level is absent, a large page, or a table. -/
lemma entry_cases (found : s.table root p = some t) (short : p.length < 3) (i : Fin 512) :
    present (s.entry t i) = false ∧ s.leaf root (i :: p) = none ∧ s.table root (i :: p) = none ∨
    present (s.entry t i) = true ∧ huge (s.entry t i) = true ∧
      s.leaf root (i :: p) = some (s.entry t i) ∨
    present (s.entry t i) = true ∧ huge (s.entry t i) = false ∧ s.leaf root (i :: p) = none ∧
      s.table root (i :: p) = some (s.entry t i / 4096) := by
  have inner : p.length ≠ 3 := by omega
  cases there : present (s.entry t i) with
  | false =>
    have missing := table_absent (i := i) found (by simp [isTable, there])
    exact .inl ⟨rfl, by simp [leaf, live_cons found, there], missing⟩
  | true =>
    cases large : huge (s.entry t i) with
    | true => exact .inr (.inl ⟨rfl, rfl, by simp [leaf, live_cons found, there, large]⟩)
    | false =>
      have small : s.leaf root (i :: p) = none := by simp [leaf, live_cons found, there, large, inner]
      exact .inr (.inr ⟨rfl, rfl, small, table_present found short small there⟩)

omit s' in
lemma leaf_below_none (missing : s.table root p = none) (below : p <:+ q)
    (i : Fin 512) : s.leaf root (i :: q) = none := by
  have gone : s.table root q = none := node_below_none missing below
  rw [leaf, live, gone]
  rfl

omit s' in
lemma live_below_none (absent : s.live root (i :: p) = none)
    (below : (i :: p) <:+ q) : s.live root q = none := by
  have missing : s.table root (i :: p) = none := by
    cases found : s.table root p with
    | none => exact node_below_none found (suffix_cons i p)
    | some t =>
      refine table_absent found ?_
      rw [live_cons found, filter_some] at absent
      cases there : present (s.entry t i) with
      | false => simp [isTable, there]
      | true =>
        rw [there] at absent
        cases absent
  cases q with
  | nil => rfl
  | cons j q =>
    rcases suffix_cons_iff.mp below with same | deeper
    · rw [← same, absent]
    have gone : s.table root q = none := node_below_none missing deeper
    rw [live, gone]
    rfl

omit s' in
lemma leaf_above_none (short : q.length ≤ 4)
    (there : s.leaf root q = some e) (above : r <:+ q) (other : r ≠ q) : s.leaf root r = none := by
  cases q with
  | nil => cases there
  | cons i q =>
    have above := (suffix_cons_iff.mp above).resolve_left other
    cases r with
    | nil => rfl
    | cons j r =>
      cases found : s.table root (j :: r) with
      | none => cases (leaf_below_none found above i).symm.trans there
      | some u =>
        cases parent : s.table root r with
        | none => cases (node_below_none parent (suffix_cons j r)).symm.trans found
        | some t =>
          have pointer : isTable (s.entry t j) = true := by
            by_contra notTable
            cases (table_absent parent (eq_false_iff.mpr notTable)).symm.trans found
          have inner : ((j :: r).length == 4) = false := by
            have := above.length_le
            rw [length_cons] at short
            rw [beq_eq_false_iff_ne]
            omega
          have small : huge (s.entry t j) = false := by
            simpa using (and_eq_true_iff.mp pointer).2
          rw [leaf, live_cons parent, filter_some, (and_eq_true_iff.mp pointer).1,
            if_pos rfl, filter_some, inner, small]
          rfl

end

/-- What unmapping a 4 KiB page does. -/
structure Unmaps (half : Fin 512 → Prop) (root : Nat) (s s' : Phys) (virt : Nat) : Prop where
  inv : Tables half root s'
  leaf : ∀ q, EntryPath half q → s'.leaf root q = if q = path virt then none else s.leaf root q
  upper : ∀ q, EntryPath half q → q.length < 4 → s'.live root q = s.live root q
  supply : s'.free = s.free
  touches : s.Touches (fun x => Along root s' (path virt).tail (x / 4096)) s'

lemma Unmaps.refl (inv : Tables half root s) (absent : s.leaf root (path virt) = none) :
    Unmaps half root s s virt where
  inv := inv
  leaf q _ := by
    split
    next same => rw [same, absent]
    · rfl
  upper _ _ _ := rfl
  supply := rfl
  touches := .refl _ s

lemma unmapPage_spec (inv : Tables half root s) (chosen : EntryPath half (path virt))
    (small : s.Small root virt) :
    Unmaps half root s (unmapPage s (root * 4096) virt) virt := by
  obtain ⟨i₀, i₁, i₂, i₃, indices, pt, pd, pdp, pml4⟩ := path_indices virt
  have tail : (path virt).tail = [i₁, i₂, i₃] := by rw [indices, tail_cons]
  have directory : s.leaf root [i₁, i₂, i₃] = none := tail ▸ small.directory
  have pointers : s.leaf root [i₂, i₃] = none := by
    have := small.pointers
    rwa [tail] at this
  have missing : ∀ p, p <:+ [i₁, i₂, i₃] → s.table root p = none → Unmaps half root s s virt := by
    intro p above absent
    refine Unmaps.refl inv ?_
    rw [indices]
    exact leaf_below_none absent above i₀
  rw [indices] at chosen
  have at₃ : TablePath half [i₁, i₂, i₃] := tablePath_of_cons _ _ chosen
  have top := inv.leaf_top ((tablePath_suffix at₃ ⟨[i₁, i₂], rfl⟩).2 i₃ rfl)
  have read : ∀ (t : Nat) (i : Fin 512), s.read64 (t * 4096 + 8 * i) = s.entry t i := fun _ _ => rfl
  simp only [unmapPage, pageDown, pt, pd, pdp, pml4, read]
  obtain ⟨there₁, -, absent⟩ | ⟨-, -, large⟩ | ⟨there₁, -, -, found₁⟩ :=
    entry_cases (p := []) (t := root) rfl (by simp) i₃
  · rw [there₁]
    exact missing [i₃] ⟨[i₁, i₂], rfl⟩ absent
  · cases top.symm.trans large
  obtain ⟨there₂, -, absent⟩ | ⟨-, -, large⟩ | ⟨there₂, -, -, found₂⟩ := entry_cases found₁ (by simp) i₂
  · rw [there₁, there₂]
    exact missing [i₂, i₃] ⟨[i₁], rfl⟩ absent
  · cases pointers.symm.trans large
  obtain ⟨there₃, -, absent⟩ | ⟨-, -, large⟩ | ⟨there₃, -, -, found₃⟩ := entry_cases found₂ (by simp) i₁
  · rw [there₁, there₂, there₃]
    exact missing [i₁, i₂, i₃] suffix_rfl absent
  · cases directory.symm.trans large
  rw [there₁, there₂, there₃]
  obtain ⟨inv', tables, lives, leaves⟩ := inv.setLeaf (e := 0) chosen rfl found₃ (by decide)
  refine ⟨inv', ?_, lives, rfl, ?_⟩
  · rw [indices]
    exact leaves
  · rw [tail]
    exact inv.write_touches chosen found₃ ((tables _ at₃).trans found₃)

/-! ## Translation -/

end Tables

/-- What the leaves above and at an address say about it. -/
def Phys.translation (s : Phys) (root virt : Nat) : Nat :=
  match s.leaf root (path virt).tail.tail with
  | some e => e / 2 ^ 30 * 2 ^ 30 + virt % 2 ^ 30
  | none =>
    match s.leaf root (path virt).tail with
    | some e => e / 2 ^ 21 * 2 ^ 21 + virt % 2 ^ 21
    | none =>
      match s.leaf root (path virt) with
      | some e => pageDown e + virt % 4096
      | none => 0

namespace Tables

lemma virtToPhys (inv : Tables half root s) (chosen : EntryPath half (path virt)) :
    vmmVirtToPhys s.mem (root * 4096) virt = s.translation root virt := by
  obtain ⟨i₀, i₁, i₂, i₃, indices, pt, pd, pdp, pml4⟩ := path_indices virt
  rw [indices] at chosen
  have top := inv.leaf_top ((tablePath_suffix (tablePath_of_cons _ _ chosen) ⟨[i₁, i₂], rfl⟩).2 i₃ rfl)
  have read : ∀ (t : Nat) (i : Fin 512), s.mem.word (t * 4096 + 8 * i) 8 = s.entry t i := fun _ _ => rfl
  simp only [vmmVirtToPhys, translation, pageDown, indices, tail_cons, pt, pd, pdp, pml4, read]
  obtain ⟨there₁, -, missing⟩ | ⟨-, -, large⟩ | ⟨there₁, -, -, found₁⟩ :=
    entry_cases (p := []) (t := root) rfl (by simp) i₃
  · have under := suffix_cons i₂ [i₃]
    rw [there₁, leaf_below_none missing suffix_rfl, leaf_below_none missing under,
      leaf_below_none missing (under.trans (suffix_cons i₁ _))]
    rfl
  · cases top.symm.trans large
  obtain ⟨there₂, pointers, missing⟩ | ⟨there₂, large, pointers⟩ | ⟨there₂, large, pointers, found₂⟩ :=
    entry_cases found₁ (by simp) i₂
  · rw [there₁, there₂, pointers, leaf_below_none missing suffix_rfl,
      leaf_below_none missing (suffix_cons i₁ _)]
    rfl
  · rw [there₁, there₂, large, pointers]
    rfl
  rw [there₁, there₂, large, pointers]
  obtain ⟨there₃, directory, missing⟩ | ⟨there₃, large, directory⟩ | ⟨there₃, large, directory, found₃⟩ :=
    entry_cases found₂ (by simp) i₁
  · rw [there₃, directory, leaf_below_none missing suffix_rfl]
    rfl
  · rw [there₃, large, directory]
    rfl
  rw [there₃, large, directory, leaf, live_cons found₃, filter_some]
  cases present (s.entry _ i₀) <;> rfl

section

variable {v : Nat}

section

variable (chosen : EntryPath half (path v))

include chosen

omit s s' in
lemma entryPath_directory : EntryPath half (path v).tail :=
  entryPath_suffix chosen (tail_suffix _) (by simp [path])

omit s s' in
lemma entryPath_pointers : EntryPath half (path v).tail.tail :=
  entryPath_suffix (entryPath_directory chosen) (tail_suffix _) (by simp [path])

omit s' in
lemma small_of_short (small : ∀ q, EntryPath half q → q.length < 4 → s.leaf root q = none) :
    s.Small root v :=
  ⟨small _ (entryPath_directory chosen) (by simp [path]), small _ (entryPath_pointers chosen) (by simp [path])⟩

/-- An entry at the last level decides only about its own page. -/
lemma translation_set {leaf : Option Nat} (small : s.Small root virt)
    (leaves : ∀ q, EntryPath half q → s'.leaf root q = if q = path virt then leaf else s.leaf root q) :
    s'.translation root v = if path v = path virt then leaf.elim 0 fun e => pageDown e + v % 4096
      else s.translation root v := by
  have pointers : s'.leaf root (path v).tail.tail = s.leaf root (path v).tail.tail := by
    rw [leaves _ (entryPath_pointers chosen), if_neg fun same => by simpa [path] using congrArg length same]
  have directory : s'.leaf root (path v).tail = s.leaf root (path v).tail := by
    rw [leaves _ (entryPath_directory chosen), if_neg fun same => by simpa [path] using congrArg length same]
  simp only [translation, pointers, directory, leaves _ chosen]
  split_ifs with same
  · rw [same, small.directory, small.pointers]
    cases leaf <;> rfl
  · rfl

lemma Maps.translation {flags : Nat} (maps : Maps half root s s' virt flags e)
    (small : s.Small root virt) : s'.translation root v =
      if path v = path virt then pageDown e + v % 4096 else s.translation root v :=
  translation_set chosen small maps.leaf

lemma Unmaps.translation (unmaps : Unmaps half root s s' virt) (small : s.Small root virt) :
    s'.translation root v = if path v = path virt then 0 else s.translation root v :=
  translation_set chosen small unmaps.leaf

lemma MapsHuge.translation (maps : MapsHuge half root s s' virt e)
    (small : s.leaf root (path virt).tail.tail = none) :
    s'.translation root v = if (path v).tail = (path virt).tail then
      e / 2 ^ 21 * 2 ^ 21 + v % 2 ^ 21 else s.translation root v := by
  have pointers : s'.leaf root (path v).tail.tail = s.leaf root (path v).tail.tail := by
    rw [maps.leaf _ (entryPath_pointers chosen), if_neg, if_neg]
    · intro below
      simpa [path] using below.length_le
    · exact fun same => by simpa [path] using congrArg length same
  have directory := maps.leaf _ (entryPath_directory chosen)
  have page := maps.leaf _ chosen
  by_cases same : (path v).tail = (path virt).tail
  · rw [if_pos same] at directory
    have none_above : s.leaf root (path v).tail.tail = none := by rw [same, small]
    rw [if_pos same, Phys.translation, pointers, none_above, directory]
  have apart : ¬ (path virt).tail <:+ (path v).tail := fun below =>
    same (below.eq_of_length (by simp [path])).symm
  have apart' : ¬ (path virt).tail <:+ path v := by
    intro below
    obtain ⟨i, p, isPath⟩ := exists_cons_of_ne_nil (l := path v) (by simp [path])
    rw [isPath] at below apart
    rcases suffix_cons_iff.mp below with whole | under
    · have long := congrArg length whole
      rw [← isPath] at long
      simp [path] at long
    · exact apart under
  have other : path v ≠ (path virt).tail := fun whole => by
    simpa [path] using congrArg length whole
  rw [if_neg same, if_neg apart] at directory
  rw [if_neg other, if_neg apart'] at page
  simp only [Phys.translation, pointers, directory, page, if_neg same]

end

end

end Tables

/-! ## Translation in the user half -/

namespace UserTree

variable {own : Nat → Prop} (inv : UserTree own root s) (user : virt < userEnd)

include inv user

/-- A translation in the user half finds the page, or 0. -/
lemma translate :
    vmmVirtToPhys s.mem (root * 4096) virt =
      match s.page root virt with
      | some f => f * 4096 + virt % 4096
      | none => 0 := by
  have chosen := entryPath_user user
  have small := Tables.small_of_short chosen fun _ => inv.leaf_short
  rw [inv.tables.virtToPhys chosen, translation, small.pointers, small.directory,
    leaf_full (by simp [path]), page, inv.walk_eq_live chosen]
  cases s.live root (path virt) <;> rfl

lemma translate_mapped {f : Nat} (found : s.page root virt = some f) :
    vmmVirtToPhys s.mem (root * 4096) virt = f * 4096 + virt % 4096 := by
  rw [inv.translate user, found]

lemma translate_unmapped (absent : s.page root virt = none) : vmmVirtToPhys s.mem (root * 4096) virt = 0 := by
  rw [inv.translate user, absent]

end UserTree

namespace Tables

/-! ## Running out of frames -/

lemma nextTable_total (enough : 0 < s.free.length) (table idx flags : Nat) :
    ∃ s' a, nextTable s table idx flags = some (s', a) ∧ s.free.length ≤ s'.free.length + 1 := by
  unfold nextTable
  by_cases there : present (s.read64 (table + 8 * idx)) = true
  · rw [if_pos there]
    exact ⟨_, _, rfl, Nat.le_succ _⟩
  rw [if_neg there]
  cases free : s.free with
  | nil => simp [free] at enough
  | cons f rest =>
    simp only [pallocZero, free]
    exact ⟨_, _, rfl, by simp⟩

lemma mapPage_total (enough : 3 ≤ s.free.length) (nx : Bool) (pml4 virt phys flags : Nat) :
    ∃ s', mapPage nx s pml4 virt phys flags = some s' := by
  obtain ⟨s₁, pdp, first, left₁⟩ := nextTable_total (s := s) (by omega) pml4 (pml4Idx virt) flags
  obtain ⟨s₂, pd, second, left₂⟩ := nextTable_total (s := s₁) (by omega) pdp (pdpIdx virt) flags
  obtain ⟨s₃, pt, third, -⟩ := nextTable_total (s := s₂) (by omega) pd (pdIdx virt) flags
  simp only [mapPage, first, second, third]
  exact ⟨_, rfl⟩

end Tables

end Znu.Mm
