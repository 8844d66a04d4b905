import Znu.Modl.Reading

/-! # Relocated fields

A relocation is applied without a look at whether its value fits into the field, and without a look at
what other relocations have put there. So a load can succeed with fields that do not hold what they
should. It does so exactly when a value does not fit, or a later relocation puts another byte into the
field of an earlier one.
-/

namespace Znu.Modl.Elf

open Lib Program Option List Bytes Applied Nat Function

/-! ## Fields -/

/-- The number of a field of four bytes as 64 bits. -/
def signExtend (v : Nat) : Nat := if v < 2 ^ 31 then v else v + (2 ^ 64 - 2 ^ 32)

/-- The field of a relocation as it is used. -/
def Applied.seen (r : Applied) (m : Bytes) : Nat :=
  let held := (field .block r.place r.kind.width).value m
  match r.kind with
  | .abs64 => held
  | .pc32 => signExtend held
  | .plt32 => signExtend held
  | .abs32 => held
  | .abs32s => signExtend held

/-- The value of the relocation can be put into its field. -/
def Applied.Fits (r : Applied) : Prop :=
  match r.kind with
  | .abs64 => True
  | .pc32 => r.value < 2 ^ 31 ∨ 2 ^ 64 - 2 ^ 31 ≤ r.value
  | .plt32 => r.value < 2 ^ 31 ∨ 2 ^ 64 - 2 ^ 31 ≤ r.value
  | .abs32 => r.value < 2 ^ 32
  | .abs32s => r.value < 2 ^ 31 ∨ 2 ^ 64 - 2 ^ 31 ≤ r.value

/-- The byte a relocation puts at an address. -/
def Applied.byteAt (r : Applied) (a : Nat) : Option UInt8 :=
  ((range r.kind.width).find? fun j => (r.place + j) % 2 ^ 64 == a).map (digit r.value)

/-- The byte that is left at an address after some relocations, if they put one there. -/
def leftAt : List Applied → Nat → Option UInt8
  | [], _ => none
  | r :: later, a => (leftAt later a).or (r.byteAt a)

/-- No later relocation puts another byte into the field. -/
def Applied.Undisturbed (r : Applied) (applied : List Applied) : Prop :=
  ∀ j < r.kind.width, leftAt applied ((r.place + j) % 2 ^ 64) = some (digit r.value j)

/-- If the relocations have all been processed, each value fits and each field holds it. -/
def FieldsRight (env : Env) (name : Text) (m : Bytes) : Prop :=
  ∀ mod, (loadRelocated env name).value m = some mod →
    ∀ r ∈ mod.applied, r.Fits ∧ r.seen ((loadRelocated env name).after m) = r.value

/-! ## What relocations leave in memory -/

def leaves (applied : List Applied) (m : Bytes) : Bytes := fun a => (leftAt applied a).getD (m a)

lemma leftAt_append (first second : List Applied) (a : Nat) :
    leftAt (first ++ second) a = (leftAt second a).or (leftAt first a) := by
  induction first with
  | nil => simp [leftAt]
  | cons r first ih => simp [leftAt, ih, Option.or_assoc]

lemma leaves_append (first second : List Applied) (m : Bytes) :
    leaves (first ++ second) m = leaves second (leaves first m) := by
  funext a
  rw [leaves, leaves, leaves, leftAt_append]
  cases leftAt second a with
  | none | some _ => simp

variable {a base : Nat} {m : Bytes} {env : Env} {placed : Placed} {mod : Relocated}

lemma after_putMany_concat {bytes : List UInt8} {byte : UInt8} :
    (putMany a (bytes ++ [byte])).after m =
      update ((putMany a bytes).after m) ((a + bytes.length) % 2 ^ 64) byte := by
  induction bytes generalizing a m with
  | nil => rfl
  | cons b bytes ih =>
    simp only [cons_append, putMany, after_bind, length_cons]
    rw [ih, add_assoc, add_comm 1]

lemma after_putMany {n x : Nat} (short : n ≤ 2 ^ 64) {v : Nat} :
    (putMany a (littleEndian n v)).after m x =
      (((range n).find? fun j => (a + j) % 2 ^ 64 == x).map (digit v)).getD (m x) := by
  induction n with
  | zero => rfl
  | succ n ih =>
    have split : littleEndian (n + 1) v = littleEndian n v ++ [digit v n] := by
      rw [littleEndian, range_succ, map_append]
      rfl
    rw [split, after_putMany_concat, length_littleEndian, range_succ, find?_append]
    by_cases here : (a + n) % 2 ^ 64 = x
    · have before : ((range n).find? fun j => (a + j) % 2 ^ 64 == x) = none := by
        rw [find?_eq_none]
        intro j member
        have earlier := mem_range.mp member
        rw [beq_iff_eq]
        omega
      have last : ([n].find? fun j => (a + j) % 2 ^ 64 == x) = some n :=
        find?_cons_of_pos (beq_iff_eq.mpr here)
      rw [before, last, here]
      simp
    · have last : ([n].find? fun j => (a + j) % 2 ^ 64 == x) = none :=
        find?_cons_of_neg (by simpa using here)
      rw [update_of_ne (Ne.symm here), ih (by omega), last, or_none]

variable {applied : List Applied} {name : Text} {r : Applied} {rela total : Nat}

lemma after_applyRela {symval offset : Nat} :
    (applyRela base rela symval offset).after m =
      leaves ((applyRela base rela symval offset).value m).toList m := by
  have nothing : leaves [] m = m := rfl
  simp only [applyRela, value_bind, after_bind, rOffset, rAddend, rInfo, reads_field.after]
  cases Kind.ofType ((field .buffer (rela + 8) 8).value m % 2 ^ 32) with
  | none => simp [nothing]
  | some kind =>
    have short : kind.width ≤ 2 ^ 64 := by cases kind <;> decide
    simp only [after_bind, value_bind, value_pure, after_pure, toList_some]
    funext x
    rw [after_putMany short]
    rfl

lemma after_relocate {tables : Tables} :
    (relocate env base placed tables rela).after m =
      leaves ((relocate env base placed tables rela).value m).toList m := by
  simp only [relocate, value_bind, after_bind, rInfo, reads_field.after, reads_symbolValue.after]
  cases (symbolValue env base placed tables.strtab _).value m with
  | none => rfl
  | some symval => exact after_applyRela

/-- What has been applied in a section is at the end of the list, and is all that is written. -/
lemma after_relocateSection (env : Env) (base : Nat) (placed : Placed) (tables : Tables)
    (left rela : Nat) (applied : List Applied) (m : Bytes) :
    ∃ new, ((relocateSection env base placed tables left rela applied).value m).1 = applied ++ new ∧
      (relocateSection env base placed tables left rela applied).after m = leaves new m := by
  induction left generalizing rela applied m with
  | zero => exact ⟨[], by simp [relocateSection], rfl⟩
  | succ left ih =>
    simp only [relocateSection, value_bind, after_bind, after_relocate]
    cases (relocate env base placed tables rela).value m with
    | none => exact ⟨[], by simp, rfl⟩
    | some r =>
      obtain ⟨new, value, after⟩ := ih (rela + 24) (applied ++ [r]) (leaves [r] m)
      refine ⟨r :: new, ?_, ?_⟩
      · simpa using value
      · exact after.trans (leaves_append [r] new m).symm

lemma after_processSection {shdr i : Nat} (state : List Applied × Bool) (m : Bytes) :
    ∃ new, ((processSection env base placed shdr i state).value m).value.1 = state.1 ++ new ∧
      (processSection env base placed shdr i state).after m = leaves new m := by
  simp only [processSection, value_bind, after_bind, reads_relocationTables.after]
  cases (relocationTables env.file placed shdr i).value m with
  | none => exact ⟨[], by simp [ForInStep.value], rfl⟩
  | some tables =>
    obtain ⟨new, value, after⟩ :=
      after_relocateSection env base placed tables tables.count tables.rela state.1 m
    simp only [value_bind, after_bind, value_pure, after_pure]
    refine ⟨new, ?_, after⟩
    split
    · exact value
    · exact value

lemma after_processRelocations :
    (processRelocations env base placed).after m =
      leaves ((processRelocations env base placed).value m).1 m := by
  apply sectionLoop_keeps (I := fun (s : List Applied × Bool) after => after = leaves s.1 m)
  · intro i s after before
    obtain ⟨new, value, changed⟩ := after_processSection s after
    rw [changed, value, before, leaves_append]
  · rfl

lemma after_relocateModule {info : Info} {symbols : Symbols}
    (loaded : (relocateModule env base total placed info symbols).value m = some mod) :
    ∃ before, (relocateModule env base total placed info symbols).after m = leaves mod.applied before := by
  simp only [relocateModule, value_bind, after_bind, value_pure, after_pure] at loaded ⊢
  split at loaded
  · rw [← some.inj loaded]
    exact ⟨m, after_processRelocations⟩
  cases loaded

lemma after_fillBlock
    (loaded : (fillBlock env name base total placed).value m = some mod) :
    ∃ before, (fillBlock env name base total placed).after m = leaves mod.applied before := by
  simp only [fillBlock, value_bind, after_bind] at loaded ⊢
  split at loaded
  · cases loaded
  rename_i resolved
  rw [if_neg resolved]
  simp only [value_bind, after_bind] at loaded ⊢
  exact after_relocateModule loaded

/-- The memory in which a load leaves a module is what its relocations have made of another one. -/
lemma after_loadRelocated (loaded : (loadRelocated env name).value m = some mod) :
    ∃ before, (loadRelocated env name).after m = leaves mod.applied before := by
  rw [loadRelocated] at loaded ⊢
  split at loaded
  · cases loaded
  rename_i accepted
  rw [if_neg accepted]
  simp only [value_bind, after_bind] at loaded ⊢
  split at loaded
  · rename_i valid
    rw [if_pos valid]
    simp only [value_bind, after_bind] at loaded ⊢
    split at loaded
    · cases loaded
    rename_i sized
    rw [if_neg sized]
    split at loaded
    · cases loaded
    · rename_i base allocated
      exact after_fillBlock loaded
  · cases loaded

/-! ## Fields that hold their value -/

lemma width_le (kind : Kind) : kind.width ≤ 8 := by cases kind <;> decide

lemma Applied.value_lt (r : Applied) : r.value < 2 ^ 64 := by
  rw [value]
  split <;> exact mod_lt _ (by decide)

/-- What is seen in a field decides what the field holds. -/
lemma Applied.seen_eq_iff (r : Applied) (m : Bytes) (fits : r.Fits) :
    r.seen m = r.value ↔ (field .block r.place r.kind.width).value m = r.value % 256 ^ r.kind.width := by
  have small := r.value_lt
  have bound : (field .block r.place r.kind.width).value m < 256 ^ r.kind.width := by
    rw [field_value]
    exact word_lt _ _ _
  have extended : ∀ held < 2 ^ 32, (r.value < 2 ^ 31 ∨ 2 ^ 64 - 2 ^ 31 ≤ r.value) →
      (signExtend held = r.value ↔ held = r.value % 2 ^ 32) := by
    intro held small' fits
    rw [signExtend]
    split <;> omega
  have whole : ∀ held, held = r.value ↔ held = r.value % 2 ^ 64 := by
    intro held
    rw [mod_eq_of_lt small]
  have half : ∀ held, r.value < 2 ^ 32 → (held = r.value ↔ held = r.value % 2 ^ 32) := by
    intro held fits
    rw [mod_eq_of_lt fits]
  obtain ⟨kind, place, symbol, addend⟩ := r
  cases kind with
  | abs64 => exact whole _
  | pc32 | plt32 => exact extended _ bound fits
  | abs32 => exact half _ fits
  | abs32s => exact extended _ bound fits

lemma Applied.byteAt_own (r : Applied) {j : Nat} (inside : j < r.kind.width) :
    r.byteAt ((r.place + j) % 2 ^ 64) = some (digit r.value j) := by
  have narrow := width_le r.kind
  rw [byteAt]
  cases found : (range r.kind.width).find? fun i => (r.place + i) % 2 ^ 64 == (r.place + j) % 2 ^ 64 with
  | none =>
    have other := find?_eq_none.mp found j (mem_range.mpr inside)
    simp at other
  | some i =>
    have same := find?_some found
    have bound := mem_range.mp (mem_of_find?_eq_some found)
    rw [beq_iff_eq] at same
    have same : i = j := by omega
    rw [same]
    rfl

lemma leftAt_of_mem (member : r ∈ applied) (put : (r.byteAt a).isSome) : (leftAt applied a).isSome := by
  induction applied with
  | nil => cases member
  | cons first later ih =>
    rw [leftAt, isSome_or]
    cases mem_cons.mp member with
    | inl here => simp [← here, put]
    | inr there => simp [ih there]

/-- A field keeps its value through all relocations just if it is undisturbed. -/
lemma Applied.seen_leaves_iff (member : r ∈ applied) (m : Bytes) :
    r.Fits ∧ r.seen (leaves applied m) = r.value ↔ r.Fits ∧ r.Undisturbed applied := by
  apply and_congr_right
  intro fits
  rw [r.seen_eq_iff _ fits, field_value, word_eq_iff]
  apply forall₂_congr
  intro j inside
  have put : (r.byteAt ((r.place + j) % 2 ^ 64)).isSome := by
    rw [r.byteAt_own inside]
    rfl
  obtain ⟨byte, left⟩ := isSome_iff_exists.mp (leftAt_of_mem member put)
  simp only [leaves, left, getD_some, some_inj]

/-- A load that succeeds leaves every field with its value if and only if every value fits and no
    field is disturbed. -/
theorem fields_right_iff (env : Env) (name : Text) (m : Bytes) :
    FieldsRight env name m ↔
      ∀ mod, (loadRelocated env name).value m = some mod →
        ∀ r ∈ mod.applied, r.Fits ∧ r.Undisturbed mod.applied := by
  apply forall₂_congr
  intro mod loaded
  obtain ⟨before, after⟩ := after_loadRelocated loaded
  rw [after]
  exact forall₂_congr fun r member => Applied.seen_leaves_iff member before

/-- One call of a symbol of the kernel, in a module without anything else. -/
def callImage : List UInt8 :=
  [0x7f, 0x45, 0x4c, 0x46, 2, 1] ++ replicate 10 0 ++ littleEndian 2 1 ++ littleEndian 2 62 ++
    replicate 20 0 ++ littleEndian 8 64 ++ replicate 12 0 ++ littleEndian 2 3 ++ [0, 0] ++
    (littleEndian 4 0 ++ littleEndian 4 8 ++ littleEndian 8 2 ++ littleEndian 8 0 ++ littleEndian 8 304 ++
      littleEndian 8 4 ++ littleEndian 4 0 ++ littleEndian 4 0 ++ littleEndian 8 1 ++ littleEndian 8 0) ++
    (littleEndian 4 0 ++ littleEndian 4 4 ++ littleEndian 8 0 ++ littleEndian 8 0 ++ littleEndian 8 256 ++
      littleEndian 8 24 ++ littleEndian 4 2 ++ littleEndian 4 0 ++ littleEndian 8 8 ++ littleEndian 8 24) ++
    (littleEndian 4 0 ++ littleEndian 4 2 ++ littleEndian 8 0 ++ littleEndian 8 0 ++ littleEndian 8 280 ++
      littleEndian 8 24 ++ littleEndian 4 0 ++ littleEndian 4 0 ++ littleEndian 8 8 ++ littleEndian 8 24) ++
    littleEndian 8 0 ++ littleEndian 8 2 ++ littleEndian 8 (2 ^ 64 - 4) ++
    replicate 24 0 ++ [0x6b, 0]

/-- The heap begins at `0xffff900000000000`, and the kernel lies above `0xffffffff80000000`. -/
def callEnv : Env where
  file := 0xffff900000100000
  len := 306
  args := none
  full := false
  tables := true
  alloc := fun _ => some 0xffff900000000010
  copies := fun _ => none
  dependencies := true
  kernel := [([0x6b], 0xffffffff80100000)]
  exports := []

def callMemory : Bytes := fun a => if a < callEnv.file then 0 else callImage.getD (a - callEnv.file) 0

theorem call_out_of_reach : ¬FieldsRight callEnv [] callMemory := by
  intro right
  have applied : ((loadRelocated callEnv []).value callMemory).map Relocated.applied =
      some [⟨.pc32, 0xffff900000000010, 0xffffffff80100000, 2 ^ 64 - 4⟩] := by decide +kernel
  obtain ⟨mod, loaded, applied⟩ := map_eq_some_iff.mp applied
  have fits := (right mod loaded _ (by rw [applied]; exact mem_singleton_self _)).1
  revert fits
  simp [Applied.Fits, Applied.value]

end Znu.Modl.Elf
