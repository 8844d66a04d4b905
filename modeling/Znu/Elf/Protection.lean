import Znu.Elf.Contents
import Znu.Mm.UserMemory

/-! # Page protection of a loaded image

Which pages of a loaded image can be written. As the contents of the pages do, the
protection follows from the program headers in their order: the first segment over a
page decides, a TLS block overrules it, and a `PT_GNU_RELRO` header takes the right to
write away in the end. The no-execute bit never gets into a page table.
-/

variable {own : Nat → Prop} {root : Nat} {s s' : Phys} {P : Prot} {nx : Bool}

namespace Znu.Mm

open Lib Lib.Radix Option List Tables

/-- The writable bit of the leaf of each mapped user address. -/
abbrev Prot := Nat → Option Bool

namespace Prot

def set (P : Prot) (virt : Nat) (b : Bool) : Prot :=
  fun w => if w / 4096 = virt / 4096 then some b else P w

/-- The `n` pages from `a` on that are not mapped get the bit. -/
def mapMissing (P : Prot) (a n : Nat) (b : Bool) : Prot :=
  fun w => if a ≤ w ∧ w < a + 4096 * n then (P w).or (some b) else P w

/-- The `n` pages from `a` on get the bit. -/
def mapFresh (P : Prot) (a n : Nat) (b : Bool) : Prot :=
  fun w => if a ≤ w ∧ w < a + 4096 * n then some b else P w

/-- The mapped ones of the `n` pages from `a` on get the bit. -/
def remap (P : Prot) (a n : Nat) (b : Bool) : Prot :=
  fun w => if a ≤ w ∧ w < a + 4096 * n then (P w).map fun _ => b else P w

end Prot

/-- The leaves have these writable bits, and the tables above them do not interfere. -/
structure Guards (own : Nat → Prop) (root : Nat) (s : Phys) (P : Prot) : Prop where
  inv : UserTree own root s
  leaf : ∀ w < userEnd, (s.leaf root (path w)).map (·.testBit 1) = P w
  opened : s.OpenTables root

/-- User mode can write to the page: its leaf and the tables above it allow it. -/
def Phys.PageWritable (s : Phys) (root v : Nat) : Prop :=
  (∃ e, s.leaf root (path v) = some e ∧ e.testBit 1 = true) ∧
    ∀ r, r ≠ [] → r <:+ (path v).tail → ∃ e, s.live root r = some e ∧ e.testBit 1 = true

namespace Guards

lemma congr (guards : Guards own root s P) {Q : Prot} (same : ∀ w < userEnd, P w = Q w) :
    Guards own root s Q :=
  ⟨guards.inv, fun w user => (guards.leaf w user).trans (same w user), guards.opened⟩

variable {flags n page v w : Nat}

lemma page_eq (inv : UserTree own root s) (user : w < userEnd) :
    s.page root w = (s.leaf root (path w)).map (· / 4096) := by
  rw [Phys.page, inv.walk_eq_live (entryPath_user user), UserTree.leaf_full (by simp [path])]

section

variable (guards : Guards own root s P)

include guards

lemma uniform (userV : v < userEnd) (userW : w < userEnd) (same : v / 4096 = w / 4096) : P v = P w := by
  rw [← guards.leaf v userV, ← guards.leaf w userW, (path_eq_iff userV userW).mpr same]

/-- The translation is 0 exactly for the addresses that are not mapped. -/
lemma translate_eq_zero_iff (user : w < userEnd) : vmmVirtToPhys s.mem (root * 4096) w = 0 ↔ P w = none := by
  have page := page_eq guards.inv user
  rw [← guards.leaf w user, guards.inv.translate user, page]
  cases there : s.leaf root (path w) with
  | none => simp
  | some e =>
    rw [there, map_some] at page
    have positive := (guards.inv.valid _ (guards.inv.owned _ _ (userPath_path user) page).1).1
    refine ⟨fun (zero : e / 4096 * 4096 + w % 4096 = 0) => ?_, nofun⟩
    omega

lemma writable_iff (user : v < userEnd) : s.PageWritable root v ↔ P v = some true := by
  rw [← guards.leaf v user, map_eq_some_iff]
  refine ⟨fun writable => writable.1, fun there => ⟨there, fun r nonempty above => ?_⟩⟩
  obtain ⟨e, leaf, -⟩ := there
  have at_r := entryPath_suffix (entryPath_directory (entryPath_user user)) above nonempty
  cases table : s.live root r with
  | none =>
    obtain ⟨i, p, rfl⟩ := exists_cons_of_ne_nil nonempty
    have gone := live_below_none table (above.trans (tail_suffix _))
    rw [UserTree.leaf_full (by simp [path]), gone] at leaf
    cases leaf
  | some e' =>
    have short : r.length < 4 := lt_of_le_of_lt above.length_le (by simp [path])
    exact ⟨e', rfl, guards.opened r e' at_r short table⟩

/-- No leaf has the no-execute bit. -/
lemma executable (physical : ∀ f, own f → f < 2 ^ 40) {e : Nat} (user : v < userEnd)
    (leaf : s.leaf root (path v) = some e) : e.testBit 63 = false := by
  have page := page_eq guards.inv user
  rw [leaf, map_some] at page
  have small := physical _ (guards.inv.owned _ _ (userPath_path user) page).1
  exact Nat.testBit_eq_false_of_lt (by omega)

/-- `map_page` sets the bit of one page. -/
lemma set {virt phys f : Nat} (user : virt < userEnd)
    (mapped : mapPage nx s (root * 4096) virt phys flags = some s') (frame : phys / 4096 = f)
    (low : finalFlags nx flags < 4096) (mine : own f) (used : f ∉ s.free)
    (source : (∀ q, userPath q → s.walk root q ≠ some f) ∨ s.page root virt = some f) :
    Guards own root s' (P.set virt (flags.testBit 1)) := by
  have inv := guards.inv
  have result := inv.mapPage_spec user mapped frame low mine used source
  have small := small_of_short (entryPath_user user) fun _ => inv.leaf_short
  have wide : phys < 2 ^ 64 := by
    have valid := (inv.valid f mine).2
    omega
  have maps := inv.tables.mapPage_spec (entryPath_user user) small (pageEntry_lt low wide) mapped
  refine ⟨result.inv, fun w userW => ?_, fun r e at_r short there => ?_⟩
  · rw [maps.leaf _ (entryPath_user userW), Prot.set]
    by_cases same : w / 4096 = virt / 4096
    · rw [if_pos ((path_eq_iff userW user).mpr same), if_pos same, map_some,
        pageEntry_testBit nx phys flags (by decide) (by decide)]
    · rw [if_neg fun eq => same ((path_eq_iff userW user).mp eq), if_neg same, guards.leaf w userW]
  · cases before : s.live root r with
    | none => exact maps.opened r at_r short e there before
    | some e₀ =>
      obtain ⟨e', there', bits⟩ := maps.grows r at_r short e₀ before
      cases there'.symm.trans there
      exact bits 1 (guards.opened r e₀ at_r short before)

/-- Memory that agrees on all tables has the same protection. -/
lemma keep (inv : UserTree own root s')
    (tables : ∀ g, s.IsTable root g → ∀ x, x / 4096 = g → s'.mem x = s.mem x)
    (taken : s'.free <:+ s.free) : Guards own root s' P := by
  have same : ∀ g, Holds userHalf root s g → ∀ x, x / 4096 = g → s'.mem x = s.mem x := by
    rintro g ⟨q, at_q, found⟩
    refine tables g ⟨q, userPath_of_table at_q, ?_, (guards.inv.table_eq_walk at_q).symm.trans found⟩
    exact Nat.lt_succ_of_le at_q.1
  obtain ⟨-, -, lives⟩ := guards.inv.tables.congr same taken
  refine ⟨inv, fun w user => ?_, fun r e at_r short there => ?_⟩
  · rw [← guards.leaf w user, Phys.leaf, Phys.leaf, lives _ (entryPath_user user)]
  · exact guards.opened r e at_r short ((lives r at_r).symm.trans there)

/-- `palloc_zero` followed by `map_page`. -/
lemma mapFresh {virt a : Nat} {s₁ : Phys} (user : virt < userEnd)
    (allocated : s.pallocZero = some (s₁, a))
    (mapped : mapPage nx s₁ (root * 4096) virt a flags = some s') (low : finalFlags nx flags < 4096) :
    Guards own root s' (P.set virt (flags.testBit 1)) := by
  obtain ⟨f, rfl, mine, listed, used, inv₁, -, fresh, -, same, touches⟩ := guards.inv.palloc allocated
  have guards₁ : Guards own root s₁ P := by
    refine guards.keep inv₁ ?_ touches.taken
    rintro g ⟨q, at_q, -, reached⟩ x inside
    refine same x fun isNew => (guards.inv.owned q g at_q reached).2 ?_
    rw [← inside, isNew]
    exact listed
  exact guards₁.set user mapped (Nat.mul_div_cancel _ (by decide)) low mine used (.inl fresh)

/-- One store through the page table, at `extra` bytes past the translation of `uva`. -/
lemma storeVirt (uva extra n : Nat) (src : Nat → UInt8) (user : uva < userEnd)
    (fits : uva % 4096 + extra + n ≤ 4096) :
    Guards own root (s.store (vmmVirtToPhys s.mem (root * 4096) uva + extra) n src) P := by
  have safe : ∀ x, vmmVirtToPhys s.mem (root * 4096) uva + extra ≤ x →
      x < vmmVirtToPhys s.mem (root * 4096) uva + extra + n → ¬ s.IsTable root (x / 4096) := by
    intro x lower upper
    cases found : s.page root uva with
    | some f =>
      rw [guards.inv.translate_mapped user found] at lower upper
      have frame : x / 4096 = f := by omega
      rw [frame]
      exact guards.inv.page_not_table (userPath_path user) (by simp [path]) found
    | none =>
      rw [guards.inv.translate_unmapped user found] at lower upper
      rintro ⟨q, at_q, -, reached⟩
      have positive := (guards.inv.valid _ (guards.inv.owned q _ at_q reached).1).1
      omega
  obtain ⟨inv', -⟩ := Refines.store_pages guards.inv src safe
  refine guards.keep inv' ?_ suffix_rfl
  rintro g isTable x rfl
  exact Bytes.store_outside fun range => safe x range.1 range.2 isTable

end

/-! ## Loops -/

open Elf Option List

section

variable (guards : Guards own root s P) (aligned : page % 4096 = 0) (user : page + 4096 * n ≤ userEnd)
   (low : finalFlags nx flags < 4096)

include guards aligned user low

lemma mapPages_spec (mapped : mapPages nx (root * 4096) flags n page s = some s') :
    Guards own root s' (P.mapMissing page n (flags.testBit 1)) := by
  induction n generalizing s page P with
  | zero =>
    cases mapped
    exact guards.congr fun w _ => (if_neg (by omega)).symm
  | succ n ih =>
    have userPage : page < userEnd := by omega
    rw [mapPages] at mapped
    split at mapped
    next absent =>
      simp only [bind_eq_bind, bind_eq_some_iff] at mapped
      obtain ⟨⟨s₁, phys⟩, allocated, s₂, entered, rest⟩ := mapped
      have later := ih (guards.mapFresh userPage allocated entered low) (by omega) (by omega) rest
      have nothing := (guards.translate_eq_zero_iff userPage).mp absent
      refine later.congr fun w userW => ?_
      refine pages_succ (Option.or · (some _)) P (P.set page _) aligned (fun first => ?_) (if_neg ·)
      rw [guards.uniform userW userPage first, nothing, none_or, Prot.set, if_pos first]
    rename_i there
    have later := ih guards (by omega) (by omega) mapped
    refine later.congr fun w userW => ?_
    refine pages_succ (Option.or · (some _)) P P aligned (fun first => ?_) fun _ => rfl
    obtain ⟨b, bit⟩ := ne_none_iff_exists'.mp fun nothing =>
      there ((guards.translate_eq_zero_iff userPage).mpr nothing)
    rw [guards.uniform userW userPage first, bit, some_or]

lemma mapFreshPages_spec (mapped : mapFreshPages nx (root * 4096) flags n page s = some s') :
    Guards own root s' (P.mapFresh page n (flags.testBit 1)) := by
  induction n generalizing s page P with
  | zero =>
    cases mapped
    exact guards.congr fun w _ => (if_neg (by omega)).symm
  | succ n ih =>
    have userPage : page < userEnd := by omega
    obtain ⟨s₁, phys, s₂, allocated, entered, rest⟩ := mapFreshPages_succ userPage mapped
    have later := ih (guards.mapFresh userPage allocated entered low) (by omega) (by omega) rest
    refine later.congr fun w _ => ?_
    exact pages_succ (fun _ => some _) P (P.set page _) aligned (if_pos ·) (if_neg ·)

lemma remapPages_spec (mapped : remapPages nx (root * 4096) flags n page s = some s') :
    Guards own root s' (P.remap page n (flags.testBit 1)) := by
  induction n generalizing s page P with
  | zero =>
    cases mapped
    exact guards.congr fun w _ => (if_neg (by omega)).symm
  | succ n ih =>
    have userPage : page < userEnd := by omega
    rw [remapPages] at mapped
    split at mapped
    next there =>
      obtain ⟨s₁, entered, rest⟩ := bind_eq_some_iff.mp mapped
      cases found : s.page root page with
      | none => exact absurd (guards.inv.translate_unmapped userPage found) there
      | some f =>
        have frame : vmmVirtToPhys s.mem (root * 4096) page / 4096 = f := by
          rw [guards.inv.translate_mapped userPage found]
          omega
        obtain ⟨mine, used⟩ := guards.inv.owned _ f (userPath_path userPage) found
        have later := ih (guards.set userPage entered frame low mine used (.inr found)) (by omega)
          (by omega) rest
        refine later.congr fun w userW => ?_
        obtain ⟨b, bit⟩ := ne_none_iff_exists'.mp fun nothing =>
          there ((guards.translate_eq_zero_iff userPage).mpr nothing)
        refine pages_succ (Option.map fun _ => _) P (P.set page _) aligned (fun first => ?_) (if_neg ·)
        rw [guards.uniform userW userPage first, bit, map_some, Prot.set, if_pos first]
    rename_i absent
    have nothing := (guards.translate_eq_zero_iff userPage).mp (not_not.mp absent)
    refine (ih guards (by omega) (by omega) mapped).congr fun w userW => ?_
    refine pages_succ (Option.map fun _ => _) P P aligned (fun first => ?_) fun _ => rfl
    rw [guards.uniform userW userPage first, nothing, map_none]

end

/-- `hhdm_copy_to_user`, for a range that starts on a page boundary or is short enough for
    the misplaced copy to stay in its page. -/
lemma hhdmCopyToUser_spec (guards : Guards own root s P) (uva len : Nat) (src : Nat → UInt8)
    (user : uva + len ≤ userEnd)
    (place : len = 0 ∨ uva % 4096 = 0 ∨ 2 * (uva % 4096) + len ≤ 4096) :
    Guards own root (hhdmCopyToUser s (root * 4096) uva src len) P := by
  induction len using Nat.strong_induction_on generalizing s uva src with
  | _ len ih =>
    rw [hhdmCopyToUser]
    split
    · exact guards
    rename_i more
    obtain ⟨positive, atMost, inPage, noWrap⟩ := chunkLen_facts more user
    have first := guards.storeVirt uva (uva % 4096) (chunkLen uva len) src (by omega) (by omega)
    refine ih _ (by omega) first _ _ (by omega) ?_
    by_cases whole : chunkLen uva len = len
    · exact .inl (by omega)
    refine .inr (.inl ?_)
    unfold chunkLen at whole ⊢
    omega

end Guards

end Znu.Mm

namespace Znu.Elf

open Lib Mm Option List

/-! ## Headers -/

namespace Phdr

/-- The page of the address has a byte of the header's range. -/
def meets (p : Phdr) (v : Nat) : Prop :=
  0 < p.pMemsz ∧ p.pVaddr < pageDown v + 4096 ∧ pageDown v < p.pVaddr + p.pMemsz

/-- A `PT_LOAD` segment covers the page. -/
def Covers (p : Phdr) (v : Nat) : Prop := p.pType = ptLoad ∧ p.meets v

/-- A `PT_GNU_RELRO` header covers the page. -/
def Relro (p : Phdr) (v : Nat) : Prop := p.pType = ptGnuRelro ∧ p.meets v

/-- The page belongs to the block of a `PT_TLS` header. -/
def TlsPage (p : Phdr) (v : Nat) : Prop :=
  p.pType = ptTls ∧ tlsUserBase ≤ v ∧ v < tlsUserBase + 4096 * p.tlsCount

/-- An empty `PT_GNU_RELRO` header inside the page. `remap_user_range` visits that page. -/
def EmptyRelro (p : Phdr) (v : Nat) : Prop :=
  p.pType = ptGnuRelro ∧ p.pMemsz = 0 ∧ p.pVaddr % 4096 ≠ 0 ∧ v / 4096 = p.pVaddr / 4096

variable (p : Phdr) (v : Nat)

instance : Decidable (p.meets v) := inferInstanceAs (Decidable (_ ∧ _))
instance : Decidable (p.Covers v) := inferInstanceAs (Decidable (_ ∧ _))
instance : Decidable (p.Relro v) := inferInstanceAs (Decidable (_ ∧ _))
instance : Decidable (p.TlsPage v) := inferInstanceAs (Decidable (_ ∧ _))
instance : Decidable (p.EmptyRelro v) := inferInstanceAs (Decidable (_ ∧ _))

def guardInto (P : Prot) : Prot :=
  if p.pType = ptLoad then
    if p.pMemsz = 0 then P else P.mapMissing p.base p.pages (pfW p.pFlags)
  else if p.pType = ptTls then P.mapFresh tlsUserBase p.tlsCount true
  else P

def relroInto (P : Prot) : Prot :=
  if p.pType = ptGnuRelro then P.remap p.base p.pages false else P

variable {p v}

lemma pages_meet (used : 0 < p.pMemsz) : (p.base ≤ v ∧ v < p.base + 4096 * p.pages) ↔ p.meets v := by
  unfold meets base pages pageDown
  omega

lemma pages_empty (empty : p.pMemsz = 0) : (p.base ≤ v ∧ v < p.base + 4096 * p.pages) ↔
    p.pVaddr % 4096 ≠ 0 ∧ v / 4096 = p.pVaddr / 4096 := by
  unfold base pages pageDown
  omega

lemma guardInto_at (P : Prot) : p.guardInto P v =
    if p.TlsPage v then some true else if p.Covers v then (P v).or (some (pfW p.pFlags)) else P v := by
  by_cases isLoad : p.pType = ptLoad
  · have notTls : ¬ p.TlsPage v := fun tls => absurd (isLoad.symm.trans tls.1) (by decide)
    rw [if_neg notTls, guardInto, if_pos isLoad]
    by_cases empty : p.pMemsz = 0
    · have notCovered : ¬ p.Covers v := fun covers => covers.2.1.ne' empty
      rw [if_pos empty, if_neg notCovered]
    · rw [if_neg empty, Prot.mapMissing]
      exact if_congr ((pages_meet (Nat.pos_of_ne_zero empty)).trans (and_iff_right isLoad).symm) rfl rfl
  · have notCovered : ¬ p.Covers v := fun covers => isLoad covers.1
    rw [if_neg notCovered, guardInto, if_neg isLoad]
    by_cases isTls : p.pType = ptTls
    · rw [if_pos isTls, Prot.mapFresh]
      exact if_congr (and_iff_right isTls).symm rfl rfl
    · have notTls : ¬ p.TlsPage v := fun tls => isTls tls.1
      rw [if_neg isTls, if_neg notTls]

lemma relroInto_at (P : Prot) : p.relroInto P v =
    if p.Relro v ∨ p.EmptyRelro v then (P v).map fun _ => false else P v := by
  unfold relroInto Relro EmptyRelro
  by_cases isRelro : p.pType = ptGnuRelro
  · rw [if_pos isRelro, Prot.remap]
    refine if_congr ?_ rfl rfl
    by_cases empty : p.pMemsz = 0
    · have notMet : ¬ p.meets v := fun meets => meets.1.ne' empty
      simp only [pages_empty empty, isRelro, empty, notMet, true_and, false_or]
    · simp only [pages_meet (Nat.pos_of_ne_zero empty), isRelro, empty, true_and, false_and, or_false]
  · simp only [isRelro, if_false, false_and, or_false]

end Phdr

/-- The writable bits after the second pass. -/
def guardAll (ps : List Phdr) (P : Prot) : Prot := ps.foldl (fun P p => p.guardInto P) P

/-- The writable bits after the third pass. -/
def relroAll (ps : List Phdr) (P : Prot) : Prot := ps.foldl (fun P p => p.relroInto P) P

/-- A TLS block overrules the segments, and the first segment over a page the later ones. -/
lemma guardAll_at (ps : List Phdr) (P : Prot) (v : Nat) : guardAll ps P v =
    if ∃ p ∈ ps, p.TlsPage v then some true
    else (P v).or ((ps.find? (·.Covers v)).map fun p => pfW p.pFlags) := by
  induction ps generalizing P with
  | nil => simp [guardAll]
  | cons p ps ih =>
    refine (ih (p.guardInto P)).trans ?_
    simp only [exists_mem_cons_iff, find?_cons, p.guardInto_at P]
    by_cases later : ∃ q ∈ ps, q.TlsPage v
    · simp only [later, or_true, if_true]
    simp only [later, or_false, if_false]
    by_cases tls : p.TlsPage v
    · simp only [tls, if_true, some_or]
    simp only [tls, if_false]
    by_cases covers : p.Covers v
    · simp only [covers, if_true, decide_true, map_some]
      cases P v <;> simp
    · simp only [covers, if_false, decide_false]

lemma relroAll_at (ps : List Phdr) (P : Prot) (v : Nat) : relroAll ps P v =
    if ∃ p ∈ ps, p.Relro v ∨ p.EmptyRelro v then (P v).map fun _ => false else P v := by
  induction ps generalizing P with
  | nil => simp [relroAll]
  | cons p ps ih =>
    refine (ih (p.relroInto P)).trans ?_
    simp only [exists_mem_cons_iff, p.relroInto_at P]
    by_cases later : ∃ q ∈ ps, q.Relro v ∨ q.EmptyRelro v
    · simp only [later, or_true, if_true]
      split <;> simp
    · simp only [later, or_false, if_false]

/-! ## The passes -/

variable {l : Loaded} {ps : List Phdr}

variable {image : Bytes}

section

variable {p : Phdr}

lemma elfFlagsToPte_writable (nx : Bool) (pflags : Nat) :
    (elfFlagsToPte nx pflags).testBit 1 = pfW pflags := by
  unfold elfFlagsToPte
  cases nx <;> cases pfW pflags <;> cases pfX pflags <;> decide

lemma tlsFlags_writable (nx : Bool) : (tlsFlags nx).testBit 1 = true := by
  cases nx <;> decide

lemma relroFlags_writable (nx : Bool) : (relroFlags nx).testBit 1 = false := by
  cases nx <;> decide

section

variable (guards : Guards own root s P)

include guards

lemma loadSegment_guards (tame : p.TameLoad)
    (loaded : loadSegment nx s (root * 4096) image p = some s') :
    Guards own root s' (P.mapMissing p.base p.pages (pfW p.pFlags)) := by
  rw [loadSegment_eq tame.user] at loaded
  obtain ⟨s₁, mapped, rfl⟩ := map_eq_some_iff.mp loaded
  have guards₁ := guards.mapPages_spec (Nat.mul_mod_left ..) (Phdr.cover_user tame.user)
    (elfFlagsToPte_low nx p.pFlags) mapped
  rw [elfFlagsToPte_writable] at guards₁
  exact guards₁.hhdmCopyToUser_spec p.pVaddr p.pFilesz (p.data image) tame.fileUser tame.place

lemma elfSetupTls_guards (tame : p.TameTls) {tls : Nat}
    (loaded : elfSetupTls nx s (root * 4096) (p.data image) p.pFilesz p.pMemsz = some (s', tls)) :
    Guards own root s' (P.mapFresh tlsUserBase p.tlsCount true) ∧ tls ≠ 0 := by
  have fileUser := tame.fileUser
  have words := tame.words
  obtain ⟨blockUser, tcbUser, tcbOffset⟩ := tame.block
  rw [elfSetupTls_eq tame] at loaded
  obtain ⟨s₁, mapped, same⟩ := map_eq_some_iff.mp loaded
  cases same
  have guards₁ := guards.mapFreshPages_spec rfl blockUser (tlsFlags_low nx) mapped
  rw [tlsFlags_writable] at guards₁
  have copy := guards₁.hhdmCopyToUser_spec tlsUserBase p.pFilesz (p.data image)
    (by simp only [tlsUserBase, userEnd]; omega) (.inr (.inl rfl))
  have self := copy.storeVirt p.tcb 0 8 (Bytes.digit p.tcb) (by omega) (by omega)
  refine ⟨self.storeVirt (p.tcb + 8) 0 8 (Bytes.digit 0) (by omega) (by omega), ?_⟩
  rw [Phdr.tcb, tlsUserBase]
  omega

lemma loadHeaders_guards (tame : ∀ p ∈ ps, p.Tame)
    {r : Option Loaded} (loaded : loadHeaders nx (root * 4096) image ps s l = some (s', r)) :
    Guards own root s' (guardAll ps P) := by
  refine (loadHeaders_simulates (R := Guards own root) (f := fun P p => p.guardInto P)
    (fun p listed isLoad used s₁ s₂ P₁ guards₁ segment => ?_)
    (fun p listed isTls s₁ s₂ P₁ t guards₁ block => ?_) (fun p P₁ notLoad notTls => ?_) guards loaded).2
  · rw [Phdr.guardInto, if_pos isLoad, if_neg used]
    exact loadSegment_guards guards₁ ((tame p listed).load isLoad used) segment
  · rw [Phdr.guardInto, if_neg (by rw [isTls]; decide), if_pos isTls]
    exact elfSetupTls_guards guards₁ ((tame p listed).tls isTls) block
  · rw [Phdr.guardInto, if_neg notTls]
    split
    next isLoad => rw [if_pos (notLoad isLoad)]
    · rfl

lemma relroHeaders_guards
    (user : ∀ p ∈ ps, p.pType = ptGnuRelro → p.pVaddr + p.pMemsz ≤ userEnd)
    (remapped : relroHeaders nx (root * 4096) ps s = some s') :
    Guards own root s' (relroAll ps P) := by
  induction ps generalizing s P with
  | nil =>
    cases remapped
    exact guards
  | cons p ps ih =>
    obtain ⟨head, tail⟩ := forall_mem_cons.mp user
    unfold relroHeaders at remapped
    rw [relroAll, foldl_cons, Phdr.relroInto]
    split at remapped
    next isRelro =>
      obtain ⟨s₁, first, rest⟩ := bind_eq_some_iff.mp remapped
      have bound := head isRelro
      have small : (p.pVaddr + p.pMemsz) % 2 ^ 64 = p.pVaddr + p.pMemsz :=
        Nat.mod_eq_of_lt (by simp only [userEnd] at bound; omega)
      rw [remapUserRange, small, pageCount_user bound] at first
      have guards₁ := guards.remapPages_spec (Nat.mul_mod_left ..) (Phdr.cover_user bound)
        (relroFlags_low nx) first
      rw [relroFlags_writable] at guards₁
      rw [if_pos isRelro]
      exact ih guards₁ tail rest
    next other =>
      rw [if_neg other]
      exact ih guards tail remapped

end

end

/-! ## The whole image -/

/-- An accepted image whose segments are in the user half. -/
structure UserImage (image : Bytes) : Prop where
  valid : elfValidate image = true
  user : ∀ p ∈ phdrs image, p.pType = ptLoad ∨ p.pType = ptGnuRelro → p.pVaddr + p.pMemsz ≤ userEnd

/-- The copies of the file stay in the pages they are meant for or in page 0, and TLS blocks
    in the user half. -/
structure InPlace (image : Bytes) : Prop where
  load : ∀ p ∈ phdrs image, p.pType = ptLoad → p.pMemsz ≠ 0 → p.pVaddr + p.pFilesz ≤ userEnd ∧
    (p.pFilesz = 0 ∨ p.pVaddr % 4096 = 0 ∨ 2 * (p.pVaddr % 4096) + p.pFilesz ≤ 4096)
  tls : ∀ p ∈ phdrs image, p.pType = ptTls → p.TameTls

/-- Pages have the protection that the headers over them ask for. -/
structure Protected (nx : Bool) (image : Bytes) (s : Phys) (root : Nat) : Prop where
  write : ∀ v < userEnd, ∀ e, s.leaf root (path v) = some e → (¬ ∃ p ∈ phdrs image, p.Relro v) →
    (s.PageWritable root v ↔ ∃ p ∈ phdrs image, p.Covers v ∧ pfW p.pFlags = true)
  execute : ∀ v < userEnd, ∀ e, s.leaf root (path v) = some e → (¬ ∃ p ∈ phdrs image, p.Relro v) →
    (e.testBit 63 = true ↔ nx = true ∧ ¬ ∃ p ∈ phdrs image, p.Covers v ∧ pfX p.pFlags = true)
  relro : ∀ v < userEnd, (∃ p ∈ phdrs image, p.Relro v) → ¬ s.PageWritable root v

/-- The headers over a page agree as far as it matters. Pages under a `PT_GNU_RELRO` header
    are not considered. -/
structure Coherent (nx : Bool) (ps : List Phdr) : Prop where
  /-- where some segment is writable, so is the first one, or a TLS block is there -/
  shared : ∀ v < userEnd, (¬ ∃ p ∈ ps, p.Relro v) → ∀ p, ps.find? (·.Covers v) = some p →
    (∃ q ∈ ps, q.Covers v ∧ pfW q.pFlags = true) → pfW p.pFlags = true ∨ ∃ q ∈ ps, q.TlsPage v
  /-- a TLS block is only where a segment is writable -/
  tls : ∀ v < userEnd, (¬ ∃ p ∈ ps, p.Relro v) → (¬ ∃ p ∈ ps, p.EmptyRelro v) →
    (∃ p ∈ ps, p.TlsPage v) → ∃ q ∈ ps, q.Covers v ∧ pfW q.pFlags = true
  /-- an empty `PT_GNU_RELRO` header is only where no segment is writable -/
  empty : ∀ v < userEnd, (¬ ∃ p ∈ ps, p.Relro v) → (∃ p ∈ ps, p.EmptyRelro v) →
    ¬ ∃ q ∈ ps, q.Covers v ∧ pfW q.pFlags = true
  /-- with support for no-execute, all pages are executable -/
  execute : nx = true → ∀ v < userEnd, (¬ ∃ p ∈ ps, p.Relro v) →
    (∃ p ∈ ps, p.Covers v ∨ p.TlsPage v) → ∃ q ∈ ps, q.Covers v ∧ pfX q.pFlags = true

section

lemma UserImage.tame (accepted : UserImage image) (placed : InPlace image) : ∀ p ∈ phdrs image, p.Tame := by
  intro p listed
  refine ⟨fun isLoad used => ?_, placed.tls p listed, fun isRelro => ?_⟩
  · obtain ⟨fileUser, place⟩ := placed.load p listed isLoad used
    exact ⟨accepted.user p listed (.inl isLoad), fileUser, place⟩
  · have user := accepted.user p listed (.inr isRelro)
    rw [Phdr.TameRelro, pageUp_user user]
    exact le_max_of_le_left (userEnd_aligned user)

variable {v : Nat}

/-- A page is mapped where there is a segment or a TLS block. -/
lemma guardAll_mapped : guardAll ps (fun _ => none) v ≠ none ↔ ∃ p ∈ ps, p.Covers v ∨ p.TlsPage v := by
  rw [guardAll_at]
  by_cases tls : ∃ p ∈ ps, p.TlsPage v
  · obtain ⟨p, listed, isTls⟩ := tls
    simp only [if_pos (⟨p, listed, isTls⟩ : ∃ p ∈ ps, p.TlsPage v)]
    exact ⟨fun _ => ⟨p, listed, .inr isTls⟩, fun _ => some_ne_none _⟩
  rw [if_neg tls, none_or, Ne, map_eq_none_iff, find?_eq_none]
  push Not
  constructor
  · rintro ⟨p, listed, covers⟩
    exact ⟨p, listed, .inl (of_decide_eq_true covers)⟩
  · rintro ⟨p, listed, covers | isTls⟩
    · exact ⟨p, listed, decide_eq_true covers⟩
    · exact absurd ⟨p, listed, isTls⟩ tls

/-- A page is writable in the end if no `PT_GNU_RELRO` header visits it, and a TLS block or the
    first segment over it makes it so. -/
lemma relroAll_writable :
    relroAll ps (guardAll ps fun _ => none) v = some true ↔
      (¬ ∃ p ∈ ps, p.Relro v ∨ p.EmptyRelro v) ∧ ((∃ p ∈ ps, p.TlsPage v) ∨
        ∃ p, ps.find? (·.Covers v) = some p ∧ pfW p.pFlags = true) := by
  rw [relroAll_at, guardAll_at]
  by_cases visited : ∃ p ∈ ps, p.Relro v ∨ p.EmptyRelro v
  · simp [visited]
  by_cases tls : ∃ p ∈ ps, p.TlsPage v <;> simp [visited, tls]

lemma vmmCreateUserPml4_guards {kernelPml4 pml4 : Nat} (sound : s.Sound)
    (created : vmmCreateUserPml4 s kernelPml4 = some (s', pml4)) :
    ∃ root, pml4 = root * 4096 ∧ Guards (· ∈ s.free) root s' fun _ => none := by
  obtain ⟨root, address, -, tree, missing, -⟩ := vmmCreateUserPml4_tree sound created
  have nothing : ∀ q, EntryPath userHalf q → s'.live root q = none := by
    intro q at_q
    have vacant := missing q (userPath_of_entry at_q) (length_pos_iff.mp at_q.1)
    rwa [tree.walk_eq_live at_q, map_eq_none_iff] at vacant
  refine ⟨root, address, tree, fun w user => ?_, fun r e at_r _ there => ?_⟩
  · rw [UserTree.leaf_full (by simp [path]), nothing _ (entryPath_user user), map_none]
  · cases (nothing r at_r).symm.trans there

lemma elfLoadSegments_guards (guards : Guards own root s fun _ => none)
    (accepted : UserImage image) (placed : InPlace image)
    (loaded : elfLoadSegments nx s (root * 4096) image = some (s', some l)) :
    Guards own root s' (relroAll (phdrs image) (guardAll (phdrs image) fun _ => none)) := by
  obtain ⟨s₁, l₁, headers, remapped, -⟩ := elfLoadSegments_loaded loaded
  exact relroHeaders_guards (loadHeaders_guards guards (accepted.tame placed) headers)
    (fun p listed isRelro => accepted.user p listed (.inr isRelro)) remapped

/-- Whether the pages are protected as the headers ask is a matter of the headers alone. -/
lemma protected_iff (physical : ∀ f, own f → f < 2 ^ 40)
    (guards : Guards own root s (relroAll (phdrs image) (guardAll (phdrs image) fun _ => none))) :
    Protected nx image s root ↔ Coherent nx (phdrs image) := by
  have writable := fun v user => (guards.writable_iff (v := v) user).trans relroAll_writable
  have mapped : ∀ v < userEnd, (∃ p ∈ phdrs image, p.Covers v ∨ p.TlsPage v) →
      ∃ e, s.leaf root (path v) = some e := by
    intro v user some_header
    have there := guardAll_mapped.mpr some_header
    have bit := guards.leaf v user
    rw [relroAll_at] at bit
    refine ne_none_iff_exists'.mp fun absent => there ?_
    rw [absent, map_none] at bit
    split at bit
    · exact map_eq_none_iff.mp bit.symm
    · exact bit.symm
  have unmapped : ∀ v < userEnd, ∀ e, s.leaf root (path v) = some e →
      ∃ p ∈ phdrs image, p.Covers v ∨ p.TlsPage v := by
    intro v user e leaf
    refine guardAll_mapped.mp fun absent => ?_
    have bit := guards.leaf v user
    rw [relroAll_at, absent, leaf] at bit
    split at bit <;> cases bit
  have visited : ∀ {v}, (¬ ∃ p ∈ phdrs image, p.Relro v) → (¬ ∃ p ∈ phdrs image, p.EmptyRelro v) →
      ¬ ∃ p ∈ phdrs image, p.Relro v ∨ p.EmptyRelro v := by
    rintro v outside notEmpty ⟨p, listed, relro | isEmpty⟩
    · exact outside ⟨p, listed, relro⟩
    · exact notEmpty ⟨p, listed, isEmpty⟩
  constructor
  · intro guarded
    refine ⟨fun v user outside p first some_write => ?_, fun v user outside notEmpty some_tls => ?_,
      fun v user outside some_empty some_write => ?_, fun isNx v user outside some_header => ?_⟩
    · obtain ⟨q, listed, covers, -⟩ := id some_write
      obtain ⟨e, leaf⟩ := mapped v user ⟨q, listed, .inl covers⟩
      obtain ⟨-, tls | ⟨p', first', writes⟩⟩ :=
        (writable v user).mp ((guarded.write v user e leaf outside).mpr some_write)
      · exact .inr tls
      · exact .inl (some.inj (first'.symm.trans first) ▸ writes)
    · obtain ⟨p, listed, isTls⟩ := id some_tls
      obtain ⟨e, leaf⟩ := mapped v user ⟨p, listed, .inr isTls⟩
      exact (guarded.write v user e leaf outside).mp
        ((writable v user).mpr ⟨visited outside notEmpty, .inl some_tls⟩)
    · obtain ⟨q, listed, covers, -⟩ := id some_write
      obtain ⟨e, leaf⟩ := mapped v user ⟨q, listed, .inl covers⟩
      obtain ⟨p, listed', isEmpty⟩ := some_empty
      exact ((writable v user).mp ((guarded.write v user e leaf outside).mpr some_write)).1
        ⟨p, listed', .inr isEmpty⟩
    · obtain ⟨e, leaf⟩ := mapped v user some_header
      have clear := guards.executable physical user leaf
      by_contra none_executes
      rw [(guarded.execute v user e leaf outside).mpr ⟨isNx, none_executes⟩] at clear
      cases clear
  · intro coherent
    refine ⟨fun v user e leaf outside => ⟨fun writes => ?_, fun some_write => ?_⟩,
      fun v user e leaf outside => ?_, fun v user some_relro writes => ?_⟩
    · obtain ⟨unvisited, tls | ⟨p, first, writes⟩⟩ := (writable v user).mp writes
      · exact coherent.tls v user outside
          (fun ⟨p, listed, isEmpty⟩ => unvisited ⟨p, listed, .inr isEmpty⟩) tls
      · have covers := find?_some first
        exact ⟨p, mem_of_find?_eq_some first, of_decide_eq_true covers, writes⟩
    · have notEmpty := fun some_empty => coherent.empty v user outside some_empty some_write
      refine (writable v user).mpr ⟨visited outside notEmpty, ?_⟩
      obtain ⟨q, listed, covers, -⟩ := id some_write
      cases first : (phdrs image).find? (·.Covers v) with
      | none => exact absurd (decide_eq_true covers) (find?_eq_none.mp first q listed)
      | some p =>
        rcases coherent.shared v user outside p first some_write with writes | tls
        · exact .inr ⟨p, rfl, writes⟩
        · exact .inl tls
    · rw [guards.executable physical user leaf]
      refine ⟨nofun, fun ⟨isNx, none_executes⟩ => absurd ?_ none_executes⟩
      exact coherent.execute isNx v user outside (unmapped v user e leaf)
    · obtain ⟨p, listed, relro⟩ := some_relro
      exact ((writable v user).mp writes).1 ⟨p, listed, .inl relro⟩

/-- The pages of a loaded image have the protection its headers ask for exactly if the headers
    over each page agree and, with support for no-execute, all of it is executable. -/
theorem page_protection_iff {s₀ : Phys} {kernelPml4 pml4 : Nat} {l : Loaded} (sound : s₀.Sound)
    (physical : ∀ f ∈ s₀.free, f < 2 ^ 40) (created : vmmCreateUserPml4 s₀ kernelPml4 = some (s, pml4))
    (accepted : UserImage image) (placed : InPlace image)
    (loaded : elfLoadSegments nx s pml4 image = some (s', some l)) :
    Protected nx image s' (pml4 / 4096) ↔ Coherent nx (phdrs image) := by
  obtain ⟨root, rfl, guards⟩ := vmmCreateUserPml4_guards sound created
  rw [Nat.mul_div_cancel _ (by decide)]
  exact protected_iff physical (elfLoadSegments_guards guards accepted placed loaded)

end

/-! ## Two examples -/

section

lemma oneByteImage_headers : phdrs (oneByteImage 0) = [oneByteHeader 0x400000] := by decide +kernel

lemma oneByteImage_user : UserImage (oneByteImage 0) := by
  refine ⟨by decide +kernel, ?_⟩
  rw [oneByteImage_headers]
  simp [oneByteHeader, userEnd]

lemma oneByteImage_inPlace : InPlace (oneByteImage 0) := by
  constructor <;> rw [oneByteImage_headers]
  · simp [oneByteHeader, userEnd]
  · simp [oneByteHeader, ptLoad, ptTls]

lemma smallMachine_physical : ∀ f ∈ smallMachine.free, f < 2 ^ 40 := by decide

/-- Without support for no-execute a writable segment is protected as it should be. -/
theorem writable_page_protected : ∃ s pml4 s' l,
    vmmCreateUserPml4 smallMachine 0x100000 = some (s, pml4) ∧
    elfLoadSegments false s pml4 (oneByteImage 0) = some (s', some l) ∧
    Protected false (oneByteImage 0) s' (pml4 / 4096) := by
  have ran : ((vmmCreateUserPml4 smallMachine 0x100000).bind fun c =>
      (elfLoadSegments false c.1 c.2 (oneByteImage 0)).map fun r => r.2.isSome) = some true := by
    decide +kernel
  obtain ⟨⟨s, pml4⟩, created, rest⟩ := bind_eq_some_iff.mp ran
  obtain ⟨⟨s', r⟩, loaded, success⟩ := map_eq_some_iff.mp rest
  obtain ⟨l, rfl⟩ := isSome_iff_exists.mp success
  refine ⟨s, pml4, s', l, created, loaded, (page_protection_iff smallMachine_sound smallMachine_physical
    created oneByteImage_user oneByteImage_inPlace loaded).mpr ⟨?_, ?_, ?_, nofun⟩⟩
  all_goals rw [oneByteImage_headers]
  · rintro v user outside p first -
    left
    have listed := mem_of_find?_eq_some first
    rw [mem_singleton.mp listed]
    rfl
  · simp [Phdr.TlsPage, oneByteHeader, ptLoad, ptTls]
  · simp [Phdr.EmptyRelro, oneByteHeader, ptLoad, ptGnuRelro]

/-- With it, the page of a segment that is not executable can be executed. -/
theorem data_page_executable : ∃ s pml4 s' l,
    vmmCreateUserPml4 smallMachine 0x100000 = some (s, pml4) ∧ UserImage (oneByteImage 0) ∧
    elfLoadSegments true s pml4 (oneByteImage 0) = some (s', some l) ∧
    ¬ Protected true (oneByteImage 0) s' (pml4 / 4096) := by
  obtain ⟨s, pml4, s', l, created, loaded⟩ := smallMachine_loads (oneByteImage 0) (by decide +kernel)
  refine ⟨s, pml4, s', l, created, oneByteImage_user, loaded, fun guarded => ?_⟩
  obtain ⟨root, rfl, guards⟩ := vmmCreateUserPml4_guards smallMachine_sound created
  rw [Nat.mul_div_cancel _ (by decide)] at guarded
  have coherent := (protected_iff smallMachine_physical
    (elfLoadSegments_guards guards oneByteImage_user oneByteImage_inPlace loaded)).mp guarded
  have executes := coherent.execute rfl 0x400000 (by simp [userEnd])
  revert executes
  decide

end

end Znu.Elf
