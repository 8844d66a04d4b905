import Znu.Lib.Run
import Znu.Mm.Operations

/-! # Address spaces as finite maps

The purpose of the page-table code is to keep a finite map from pages to frames.
`PageMap` is that map, with the flags of each page, and `Command` lists the three
operations that change it. The tables compute the map as long as no 4 KiB page is
mapped or unmapped under a large one.
-/

namespace Znu.Mm

open Lib Lib.Radix Tables List Option Nat

/-- The number of a page: the address bits that select the entries. -/
def pageNumber (virt : Nat) : Nat := virt / 4096 % 2 ^ 36

/-- The address of the frame and the flags, for each mapped page. -/
abbrev PageMap : Type := Nat → Option (Nat × Nat)

def PageMap.empty : PageMap := fun _ => none

/-- The translation a page map stands for, with 0 for an address that is not mapped. -/
def PageMap.lookup (m : PageMap) (virt : Nat) : Nat :=
  match m (pageNumber virt) with
  | some (frame, _) => frame + virt % 4096
  | none => 0

inductive Command where
  | mapPage (virt phys flags : Nat)
  | mapPageHuge (virt phys flags : Nat)
  | unmapPage (virt : Nat)

namespace Command

def update (m : PageMap) : Command → PageMap
  | .mapPage virt phys flags => Function.update m (pageNumber virt) (some (pageDown phys, flags))
  | .mapPageHuge virt phys flags => fun n =>
    if n / 512 = pageNumber virt / 512 then some (phys / 2 ^ 21 * 2 ^ 21 + n % 512 * 4096, flags)
    else m n
  | .unmapPage virt => Function.update m (pageNumber virt) none

/-- What the kernel does, on the tables below `root`. -/
def run (nx : Bool) (root : Nat) (s : Phys) : Command → Option Phys
  | .mapPage virt phys flags => Mm.mapPage nx s (root * 4096) virt phys flags
  | .mapPageHuge virt phys flags => Mm.mapPageHuge nx s (root * 4096) virt phys flags
  | .unmapPage virt => some (Mm.unmapPage s (root * 4096) virt)

def virt : Command → Nat
  | .mapPage virt _ _ => virt
  | .mapPageHuge virt _ _ => virt
  | .unmapPage virt => virt

end Command

open Command

/-- `vmm_virt_to_phys` computes the map. -/
def Phys.Computes (s : Phys) (root : Nat) (m : PageMap) : Prop :=
  ∀ virt, vmmVirtToPhys s.mem (root * 4096) virt = m.lookup virt

def everywhere : Fin 512 → Prop := fun _ => True

lemma entryPath_path (virt : Nat) : EntryPath everywhere (path virt) :=
  ⟨by simp [path], by simp [path], fun _ _ => trivial⟩

lemma path_eq_iff_number (v w : Nat) : path v = path w ↔ pageNumber v = pageNumber w := by
  simp only [path, cons.injEq, Fin.mk.injEq, and_true, ptIdx, pdIdx, pdpIdx, pml4Idx, pageNumber]
  omega

lemma update_number {α : Type} (m : Nat → α) (v w : Nat) (x : α) :
    Function.update m (pageNumber w) x (pageNumber v) = if path v = path w then x else m (pageNumber v) := by
  simp only [Function.update_apply, path_eq_iff_number]

lemma directory_eq_iff_number (v w : Nat) :
    (path v).tail = (path w).tail ↔ pageNumber v / 512 = pageNumber w / 512 := by
  simp only [path, tail_cons, cons.injEq, Fin.mk.injEq, and_true, pdIdx, pdpIdx, pml4Idx, pageNumber]
  omega

/-! ## Entries -/

variable {nx : Bool}

section

variable {phys flags : Nat}

section

variable (low : finalFlags nx flags < 4096)

include low

lemma pageDown_pageEntry : pageDown (pageEntry nx phys flags) = pageDown phys := by
  rw [pageDown, pageEntry, or_div _ (by decide), or_div _ low, pageDown, Nat.mul_div_cancel _ (by decide)]

lemma pageEntry_lt (small : phys < 2 ^ 64) : pageEntry nx phys flags < 2 ^ 64 := by
  have down : pageDown phys < 2 ^ 64 := lt_of_le_of_lt (div_mul_le_self _ _) small
  exact or_lt_two_pow (or_lt_two_pow down (low.trans (by decide))) (by decide)

lemma hugeEntry_base : hugeEntry nx phys flags / 2 ^ 21 = phys / 2 ^ 21 := by
  have none_above : finalFlags nx flags / 2 ^ 21 = 0 := div_eq_of_lt (low.trans (by decide))
  rw [hugeEntry, or_div_two_pow, or_div_two_pow, or_div_two_pow, none_above, Nat.mul_div_cancel _ (by decide)]
  simp [ptePresent, pteHuge]

lemma hugeEntry_lt (small : phys < 2 ^ 64) : hugeEntry nx phys flags < 2 ^ 64 := by
  have down : phys / 2 ^ 21 * 2 ^ 21 < 2 ^ 64 := lt_of_le_of_lt (div_mul_le_self _ _) small
  exact or_lt_two_pow (or_lt_two_pow (or_lt_two_pow down (low.trans (by decide))) (by decide)) (by decide)

end

end

/-! ## An empty root -/

variable {root : Nat} {s s' : Phys}

section

lemma live_of_empty (vacant : ∀ i, present (s.entry root i) = false) (q : List (Fin 512)) :
    s.live root q = none := by
  cases q with
  | nil => rfl
  | cons j p =>
    rcases eq_nil_or_concat p with rfl | ⟨l, i, rfl⟩
    · rw [live_cons (t := root) rfl, filter_some, vacant j]
      rfl
    have missing : s.table root [i] = none :=
      table_absent (t := root) rfl (by simp [isTable, vacant i])
    have gone : s.table root (l.concat i) = none := node_below_none missing ⟨l, by simp⟩
    rw [Phys.live, gone]
    rfl

lemma Tables.of_empty (vacant : ∀ i, present (s.entry root i) = false) (used : root ∉ s.free)
    (valid : ∀ f ∈ s.free, f < 2 ^ 52) (nodup : s.free.Nodup) :
    Tables everywhere root s ∧ s.Computes root .empty := by
  have alone : ∀ p t, s.table root p = some t → p = [] := by
    intro p t found
    rcases eq_nil_or_concat p with isNil | ⟨l, i, rfl⟩
    · exact isNil
    have missing : s.table root [i] = none :=
      table_absent (t := root) rfl (by simp [isTable, vacant i])
    cases (node_below_none missing ⟨l, by simp⟩).symm.trans found
  refine ⟨⟨⟨tablePath_tail, fun p q f _ _ left right => ?_⟩, fun p t _ found => ?_, fun i _ there => ?_,
    valid, nodup⟩, fun virt => ?_⟩
  · rw [alone p f left, alone q f right]
  · obtain rfl := alone p t found
    cases found
    exact used
  · cases (vacant i).symm.trans there
  · have entry : present (s.mem.word (root * 4096 + 8 * pml4Idx virt) 8) = false :=
      vacant ⟨pml4Idx virt, mod_lt _ (by decide)⟩
    simp only [vmmVirtToPhys, entry]
    rfl

end

/-! ## Mixed page sizes -/

/-- The command meets no large page where it expects a table, and its flags are flags. -/
def Command.Fits (nx : Bool) (root : Nat) (s : Phys) : Command → Prop
  | .mapPage virt phys flags => s.Small root virt ∧ phys < 2 ^ 64 ∧ finalFlags nx flags < 4096
  | .mapPageHuge virt phys flags =>
    s.leaf root (path virt).tail.tail = none ∧ phys < 2 ^ 64 ∧ finalFlags nx flags < 4096
  | .unmapPage virt => s.Small root virt

instance (nx : Bool) (root : Nat) (s : Phys) (op : Command) : Decidable (op.Fits nx root s) :=
  match op with
  | .mapPage virt phys flags =>
    inferInstanceAs (Decidable (s.Small root virt ∧ phys < 2 ^ 64 ∧ finalFlags nx flags < 4096))
  | .mapPageHuge virt phys flags => inferInstanceAs (Decidable
      (s.leaf root (path virt).tail.tail = none ∧ phys < 2 ^ 64 ∧ finalFlags nx flags < 4096))
  | .unmapPage virt => inferInstanceAs (Decidable (s.Small root virt))

/-- A command that meets its condition. -/
def Command.Step (nx : Bool) (root : Nat) (s : Phys) (op : Command) (s' : Phys) : Prop :=
  op.Fits nx root s ∧ op.run nx root s = some s'

/-- All writes went to frames that hold a table. -/
def WritesTables (root : Nat) (s s' : Phys) : Prop :=
  ∃ new, s'.writes = new ++ s.writes ∧
    ∀ w ∈ new, ∀ x, w.1 ≤ x → x < w.1 + w.2 → Tables.Holds everywhere root s' (x / 4096)

variable {m : PageMap}

section

lemma writesTables_of_along {q : List (Fin 512)} (at_q : TablePath everywhere q)
    (touches : s.Touches (fun x => Along root s' q (x / 4096)) s') : WritesTables root s s' := by
  obtain ⟨new, log, inside⟩ := touches.log
  refine ⟨new, log, fun w listed x lower upper => ?_⟩
  obtain ⟨⟨r, above, found⟩, -⟩ := inside w listed x lower upper
  exact ⟨r, tablePath_suffix at_q above, found⟩

lemma tablePath_directory (virt : Nat) : TablePath everywhere (path virt).tail :=
  ⟨by simp [path], fun _ _ => trivial⟩

lemma Command.step_spec {op : Command} (inv : Tables everywhere root s) (computes : s.Computes root m)
    (step : op.Step nx root s s') :
    Tables everywhere root s' ∧ s'.Computes root (op.update m) ∧ WritesTables root s s' := by
  obtain ⟨fits, ran⟩ := step
  have before : ∀ v, s.translation root v = m.lookup v := fun v =>
    (inv.virtToPhys (entryPath_path v)).symm.trans (computes v)
  cases op with
  | mapPage virt phys flags =>
    obtain ⟨small, wide, low⟩ := fits
    have maps := inv.mapPage_spec (entryPath_path virt) small (pageEntry_lt low wide) ran
    refine ⟨maps.inv, fun v => ?_, writesTables_of_along (tablePath_directory virt) maps.touches⟩
    rw [maps.inv.virtToPhys (entryPath_path v), maps.translation (entryPath_path v) small, before v,
      pageDown_pageEntry low, PageMap.lookup, PageMap.lookup, update]
    rw [update_number]
    split
    · rfl
    · rfl
  | mapPageHuge virt phys flags =>
    obtain ⟨small, wide, low⟩ := fits
    have maps := inv.mapPageHuge_spec (entryPath_path virt) small (hugeEntry_lt low wide) ran
    refine ⟨maps.inv, fun v => ?_, writesTables_of_along
      (tablePath_suffix (tablePath_directory virt) (tail_suffix _)) maps.touches⟩
    rw [maps.inv.virtToPhys (entryPath_path v), maps.translation (entryPath_path v) small, before v,
      hugeEntry_base low, PageMap.lookup, PageMap.lookup, update]
    by_cases same : pageNumber v / 512 = pageNumber virt / 512
    · simp only [if_pos ((directory_eq_iff_number v virt).mpr same), if_pos same]
      simp only [pageNumber]
      omega
    · simp only [if_neg fun eq => same ((directory_eq_iff_number v virt).mp eq), if_neg same]
  | unmapPage virt =>
    cases ran
    have unmaps := inv.unmapPage_spec (entryPath_path virt) fits
    refine ⟨unmaps.inv, fun v => ?_, writesTables_of_along (tablePath_directory virt) unmaps.touches⟩
    rw [unmaps.inv.virtToPhys (entryPath_path v), unmaps.translation (entryPath_path v) fits, before v,
      PageMap.lookup, PageMap.lookup, update]
    rw [update_number]
    split
    · rfl
    · rfl

lemma Command.run_spec {ops : List Command} (run : Run (Step nx root) s ops s')
    (inv : Tables everywhere root s) (computes : s.Computes root m) :
    Tables everywhere root s' ∧ s'.Computes root (ops.foldl update m) := by
  induction run generalizing m with
  | nil => exact ⟨inv, computes⟩
  | cons first _ ih =>
    obtain ⟨inv', computes', -⟩ := step_spec inv computes first
    exact ih inv' computes'

/-- As long as no 4 KiB page is mapped or unmapped under a large page, and no 2 MiB page
    under a 1 GiB one, the tables compute the map and only tables are written. -/
theorem mixed_sizes_of_fits (inv : Tables everywhere root s) (computes : s.Computes root m)
    {ops : List Command} (run : Run (Command.Step nx root) s ops s') :
    s'.Computes root (ops.foldl update m) ∧
      ∀ op s'', Command.Step nx root s' op s'' → WritesTables root s' s'' := by
  obtain ⟨inv', computes'⟩ := run_spec run inv computes
  exact ⟨computes', fun op s'' step => (step_spec inv' computes' step).2.2⟩

/-- Memory of zeros, with an empty root in frame 7. -/
def blank : Phys := ⟨fun _ => 0, [1, 2, 3, 4, 5, 6], []⟩

lemma blank_vacant (i : Fin 512) : present (blank.entry 7 i) = false :=
  congrArg present (Bytes.word_zero fun _ _ _ => rfl)

lemma blank_tables : Tables everywhere 7 blank ∧ blank.Computes 7 .empty :=
  of_empty blank_vacant (by decide) (by decide) (by decide)

/-- The step of a command, if it meets its condition. -/
def Command.next (nx : Bool) (root : Nat) (s : Phys) (op : Command) : Option Phys :=
  if op.Fits nx root s then op.run nx root s else none

lemma Command.Step.of_next {op : Command} (stepped : op.next nx root s = some s') : op.Step nx root s s' := by
  unfold next at stepped
  split at stepped
  next fits => exact ⟨fits, stepped⟩
  · cases stepped

theorem neighbouring_sizes : ∃ s, Run (Command.Step true 7) blank
    [.mapPageHuge 0xffff8000fee00000 0xfee00000 2, .mapPage 0xffff8000ff000000 0x5000 2] s ∧
    vmmVirtToPhys s.mem (7 * 4096) 0xffff8000fee01234 = 0xfee01234 ∧
    vmmVirtToPhys s.mem (7 * 4096) 0xffff8000ff000234 = 0x5234 := by
  obtain ⟨s, run⟩ : ∃ s, Run (Command.Step true 7) blank
      [.mapPageHuge 0xffff8000fee00000 0xfee00000 2, .mapPage 0xffff8000ff000000 0x5000 2] s := by
    refine ⟨_, .of_foldlM (fun _ _ _ => Command.Step.of_next) (some_get ?_).symm⟩
    decide +kernel
  have computes := (mixed_sizes_of_fits blank_tables.1 blank_tables.2 run).1
  refine ⟨s, run, ?_, ?_⟩
  · rw [computes]
    decide
  · rw [computes]
    decide

/-- A page mapped inside a 2 MiB page is not seen, and its entry is written into the
    mapped frame: here the registers of the local APIC. -/
theorem large_page_hides_small : ∃ s, [Command.mapPageHuge 0xffff8000fee00000 0xfee00000 2,
      .mapPage 0xffff8000fee01000 0x5000 2].foldlM (fun s op => Command.run true 7 s op) blank = some s ∧
    ¬ s.Computes 7 ([Command.mapPageHuge 0xffff8000fee00000 0xfee00000 2,
      .mapPage 0xffff8000fee01000 0x5000 2].foldl Command.update .empty) ∧
    (0xfee00008, 8) ∈ s.writes := by
  refine ⟨_, (some_get ?_).symm, fun computes => ?_, ?_⟩
  · decide +kernel
  · exact absurd (computes 0xffff8000fee01000) (by decide +kernel)
  · decide +kernel

end

/-! ## Pages of 4 KiB only -/

/-- The upper 17 bits of the address are equal. -/
def Canonical (virt : Nat) : Prop := virt < 2 ^ 47 ∨ 2 ^ 64 - 2 ^ 47 ≤ virt ∧ virt < 2 ^ 64

lemma Canonical.number_eq_iff {v w : Nat} (left : Canonical v) (right : Canonical w) :
    pageNumber v = pageNumber w ↔ v / 4096 = w / 4096 := by
  simp only [Canonical, pageNumber] at left right ⊢
  omega

/-- The operations on 4 KiB pages, with flags among bits 0 to 11 and `PTE_NX`. -/
def Command.Plain (nx : Bool) : Command → Prop
  | .mapPage virt phys flags => Canonical virt ∧ phys % 4096 = 0 ∧ phys < 2 ^ 52 ∧
      flags % 2 ^ 63 < 4096 ∧ (flags < 2 ^ 63 ∨ flags < 2 ^ 64 ∧ nx = true)
  | .mapPageHuge _ _ _ => False
  | .unmapPage virt => Canonical virt

section

lemma finalFlags_low {flags : Nat} (low : flags % 2 ^ 63 < 4096)
    (allowed : flags < 2 ^ 63 ∨ flags < 2 ^ 64 ∧ nx = true) : finalFlags nx flags < 4096 := by
  unfold finalFlags
  split
  · rwa [pteNx, and_two_pow_sub_one_eq_mod]
  rename_i off
  rcases allowed with small | ⟨-, on⟩
  · rwa [mod_eq_of_lt small] at low
  · exact absurd on off

variable {b : Nat} {ops : List Command}

lemma finalFlags_testBit (nx : Bool) (flags : Nat) (low : b < 63) :
    (finalFlags nx flags).testBit b = flags.testBit b := by
  unfold finalFlags
  split
  · rw [pteNx, testBit_and, testBit_two_pow_sub_one]; simp [low]
  · rfl

lemma pageEntry_testBit (nx : Bool) (phys flags : Nat) (positive : 0 < b) (low : b < 12) :
    (pageEntry nx phys flags).testBit b = flags.testBit b := by
  have frame : (pageDown phys).testBit b = false := by
    rw [pageDown, show 4096 = 2 ^ 12 from rfl, testBit_mul_two_pow]
    simp [low]
  have one : ptePresent.testBit b = false := Bool.eq_false_iff.mpr fun set =>
    positive.ne' (testBit_one_eq_true_iff_self_eq_zero.mp set)
  rw [pageEntry, testBit_or, testBit_or, frame, one, finalFlags_testBit nx flags (by omega)]
  simp

/-- The tables hold exactly the pages of the map, each with its flags. -/
structure Renders (nx : Bool) (root : Nat) (s : Phys) (m : PageMap) : Prop where
  inv : Tables everywhere root s
  small : ∀ q, EntryPath everywhere q → q.length < 4 → s.leaf root q = none
  leaf : ∀ v, s.leaf root (path v) =
    (m (pageNumber v)).map fun (frame, flags) => pageEntry nx frame flags
  user : ∀ v frame flags, m (pageNumber v) = some (frame, flags) → flags.testBit 2 = true →
    ∀ r, r ≠ [] → r <:+ (path v).tail → ∃ e, s.live root r = some e ∧ e.testBit 2 = true

section

variable (renders : Renders nx root s m)

include renders

lemma Renders.isSmall (virt : Nat) : s.Small root virt :=
  small_of_short (entryPath_path virt) renders.small

variable {op : Command} {virt : Nat}

lemma Renders.fits (plain : op.Plain nx) : op.Fits nx root s := by
  cases op with
  | mapPage virt phys flags =>
    obtain ⟨-, -, small, low, allowed⟩ := plain
    exact ⟨renders.isSmall virt, small.trans (by decide), finalFlags_low low allowed⟩
  | mapPageHuge _ _ _ => exact plain.elim
  | unmapPage virt => exact renders.isSmall virt

lemma Renders.map {phys flags : Nat}
    (maps : Maps everywhere root s s' virt flags (pageEntry nx phys flags)) :
    Renders nx root s' ((Command.mapPage virt phys flags).update m) where
  inv := maps.inv
  small q at_q short := by
    rw [maps.leaf q at_q, if_neg, renders.small q at_q short]
    rintro rfl
    simp [path] at short
  leaf v := by
    rw [maps.leaf _ (entryPath_path v), update]
    rw [update_number]
    split
    · simp only [pageEntry, pageDown, Nat.mul_div_cancel _ (show 0 < 4096 by decide), map_some]
    rw [renders.leaf v]
  user v frame flags' there bit r nonempty above := by
    have at_r := entryPath_suffix (entryPath_directory (entryPath_path v)) above nonempty
    rw [update] at there
    by_cases same : pageNumber v = pageNumber virt
    · rw [same, Function.update_self] at there
      cases there
      rw [(path_eq_iff_number v virt).mpr same] at above
      exact maps.marked bit r nonempty above
    rw [Function.update_of_ne same] at there
    obtain ⟨e, live, set⟩ := renders.user v frame flags' there bit r nonempty above
    obtain ⟨e', live', bits⟩ := maps.grows r at_r (lt_of_le_of_lt above.length_le (by simp [path])) e live
    exact ⟨e', live', bits 2 set⟩

lemma Renders.unmap (unmaps : Unmaps everywhere root s s' virt) :
    Renders nx root s' ((Command.unmapPage virt).update m) where
  inv := unmaps.inv
  small q at_q short := by
    rw [unmaps.leaf q at_q, if_neg, renders.small q at_q short]
    rintro rfl
    simp [path] at short
  leaf v := by
    rw [unmaps.leaf _ (entryPath_path v), update]
    rw [update_number]
    split
    · rfl
    rw [renders.leaf v]
  user v frame flags there bit r nonempty above := by
    have at_r := entryPath_suffix (entryPath_directory (entryPath_path v)) above nonempty
    rw [update] at there
    by_cases same : pageNumber v = pageNumber virt
    · rw [same, Function.update_self] at there
      cases there
    rw [Function.update_of_ne same] at there
    obtain ⟨e, live, set⟩ := renders.user v frame flags there bit r nonempty above
    exact ⟨e, (unmaps.upper r at_r (lt_of_le_of_lt above.length_le (by simp [path]))).trans live, set⟩

lemma Renders.step (plain : op.Plain nx) (ran : op.run nx root s = some s') :
    Renders nx root s' (op.update m) := by
  have fits := renders.fits plain
  cases op with
  | mapPage virt phys flags =>
    obtain ⟨small, wide, low⟩ := fits
    exact renders.map (renders.inv.mapPage_spec (entryPath_path virt) small (pageEntry_lt low wide) ran)
  | mapPageHuge _ _ _ => exact plain.elim
  | unmapPage virt =>
    cases ran
    exact renders.unmap (renders.inv.unmapPage_spec (entryPath_path virt) fits)

lemma Renders.step_total (plain : op.Plain nx) (enough : 3 ≤ s.free.length) :
    ∃ s', op.run nx root s = some s' ∧ s.free.length ≤ s'.free.length + 3 := by
  have fits := renders.fits plain
  cases op with
  | mapPage virt phys flags =>
    obtain ⟨small, wide, low⟩ := fits
    obtain ⟨s', ran⟩ := mapPage_total enough nx (root * 4096) virt phys flags
    exact ⟨s', ran, (renders.inv.mapPage_spec (entryPath_path virt) small (pageEntry_lt low wide) ran).supply⟩
  | mapPageHuge _ _ _ => exact plain.elim
  | unmapPage virt =>
    refine ⟨_, rfl, ?_⟩
    rw [(renders.inv.unmapPage_spec (entryPath_path virt) fits).supply]
    omega

end

lemma Renders.run (renders : Renders nx root s m)
    (plain : ∀ op ∈ ops, op.Plain nx)
    (ran : ops.foldlM (fun s op => op.run nx root s) s = some s') :
    Renders nx root s' (ops.foldl update m) ∧ Run (Step nx root) s ops s' := by
  induction ops generalizing s m with
  | nil =>
    cases ran
    exact ⟨renders, .nil _⟩
  | cons op ops ih =>
    obtain ⟨s₁, first, rest⟩ := bind_eq_some_iff.mp ran
    have plain' := forall_mem_cons.mp plain
    obtain ⟨renders', run⟩ := ih (renders.step plain'.1 first) plain'.2 rest
    exact ⟨renders', .cons ⟨renders.fits plain'.1, first⟩ run⟩

lemma Renders.run_total (renders : Renders nx root s m)
    (plain : ∀ op ∈ ops, op.Plain nx) (enough : 3 * ops.length ≤ s.free.length) :
    ∃ s', ops.foldlM (fun s op => op.run nx root s) s = some s' := by
  induction ops generalizing s m with
  | nil => exact ⟨s, rfl⟩
  | cons op ops ih =>
    have plain' := forall_mem_cons.mp plain
    rw [length_cons] at enough
    obtain ⟨s₁, first, left⟩ := renders.step_total plain'.1 (by omega)
    obtain ⟨s', rest⟩ := ih (renders.step plain'.1 first) plain'.2 (by omega)
    exact ⟨s', by rw [foldlM_cons]; exact bind_eq_some_iff.mpr ⟨s₁, first, rest⟩⟩

lemma Renders.of_empty (vacant : ∀ i, present (s.entry root i) = false)
    (inv : Tables everywhere root s) : Renders nx root s .empty := by
  have noLeaf : ∀ q, s.leaf root q = none := fun q => by
    rw [Phys.leaf, live_of_empty vacant]
    rfl
  exact ⟨inv, fun q _ _ => noLeaf q, fun v => noLeaf _, fun _ _ _ there => by cases there⟩

/-- What every command of a 4 KiB address space leaves behind: the tables compute the
    map, each leaf has the flags of its page, user mode gets through the tables above a
    user page, and no other page is affected. With three frames for each command none
    of them runs out of memory. -/
theorem small_pages (vacant : ∀ i, present (s.entry root i) = false) (used : root ∉ s.free)
    (valid : ∀ f ∈ s.free, f < 2 ^ 52) (nodup : s.free.Nodup) {ops : List Command}
    (plain : ∀ op ∈ ops, op.Plain nx) :
    (3 * ops.length ≤ s.free.length → ∃ s', ops.foldlM (fun s op => op.run nx root s) s = some s') ∧
    ∀ s', ops.foldlM (fun s op => op.run nx root s) s = some s' →
      s'.Computes root (ops.foldl update .empty) ∧
      (∀ v frame flags, ops.foldl update .empty (pageNumber v) = some (frame, flags) →
        (∃ e, s'.leaf root (path v) = some e ∧ e.testBit 1 = flags.testBit 1 ∧
          e.testBit 2 = flags.testBit 2) ∧
        (flags.testBit 2 = true → ∀ r, r ≠ [] → r <:+ (path v).tail →
          ∃ e, s'.live root r = some e ∧ e.testBit 2 = true)) ∧
      ∀ (op : Command) (s'' : Phys), op.Plain nx → op.run nx root s' = some s'' → ∀ v, Canonical v →
        v / 4096 ≠ op.virt / 4096 →
        vmmVirtToPhys s''.mem (root * 4096) v = vmmVirtToPhys s'.mem (root * 4096) v := by
  obtain ⟨inv, computes⟩ := of_empty vacant used valid nodup
  have start : Renders nx root s .empty := .of_empty vacant inv
  refine ⟨start.run_total plain, fun s' ran => ?_⟩
  obtain ⟨renders, run⟩ := start.run plain ran
  obtain ⟨inv', computes'⟩ := run_spec run inv computes
  refine ⟨computes', fun v frame flags there => ⟨?_, renders.user v frame flags there⟩,
    fun op s'' plain' stepped v canonical other => ?_⟩
  · refine ⟨pageEntry nx frame flags, ?_, pageEntry_testBit nx frame flags (by decide) (by decide),
      pageEntry_testBit nx frame flags (by decide) (by decide)⟩
    rw [renders.leaf v, there, map_some]
  obtain ⟨-, after, -⟩ := step_spec inv' computes' ⟨renders.fits plain', stepped⟩
  rw [after v, computes' v, PageMap.lookup, PageMap.lookup]
  cases op with
  | mapPage virt phys flags =>
    rw [update, Function.update_of_ne fun same =>
      other ((canonical.number_eq_iff plain'.1).mp same)]
  | mapPageHuge _ _ _ => exact plain'.elim
  | unmapPage virt =>
    rw [update, Function.update_of_ne fun same =>
      other ((canonical.number_eq_iff plain').mp same)]

theorem remapped_page_translates : ∃ s', [Command.mapPage 0x401000 0x9000 7, .mapPage 0x401000 0xA000 5,
      .mapPage 0x402000 0xB000 7, .unmapPage 0x402000].foldlM (fun s op => op.run true 7 s) blank = some s' ∧
    vmmVirtToPhys s'.mem (7 * 4096) 0x401234 = 0xA234 ∧
    vmmVirtToPhys s'.mem (7 * 4096) 0x402234 = 0 := by
  obtain ⟨s', ran⟩ : ∃ s', [Command.mapPage 0x401000 0x9000 7, .mapPage 0x401000 0xA000 5,
      .mapPage 0x402000 0xB000 7, .unmapPage 0x402000].foldlM (fun s op => op.run true 7 s) blank =
        some s' := by
    refine ⟨_, (some_get ?_).symm⟩
    decide +kernel
  have computes := ((small_pages blank_vacant (by decide) (by decide) (by decide)
    (by simp [Command.Plain, Canonical])).2 s' ran).1
  refine ⟨s', ran, ?_, ?_⟩
  · rw [computes]
    decide
  · rw [computes]
    decide

end

end Znu.Mm
