import Znu.Mm.Operations

/-! # User address spaces

What a process sees of its memory is a partial map from user addresses to bytes.
`Refines` relates it to page tables in physical memory, and each operation the
loader performs on the tables is shown to be an operation on the map: mapping a
fresh page adds a page of zeros, a store into a mapped page replaces some bytes,
and changing the protection of a page changes nothing.
-/

namespace Znu.Mm

open Lib Lib.Radix Option Phys Bytes

/-- The bytes of the mapped user addresses. -/
abbrev Space := Nat → Option UInt8

variable {A : Space} {a n : Nat}

namespace Space

/-- The page that holds `virt` becomes a page of zeros. -/
def mapZero (A : Space) (virt : Nat) : Space :=
  fun w => if w / 4096 = virt / 4096 then some 0 else A w

/-- The mapped ones of `n` bytes from `a` on are replaced. -/
def fill (A : Space) (a n : Nat) (src : Nat → UInt8) : Space :=
  fun w => if a ≤ w ∧ w < a + n then (A w).map fun _ => src (w - a) else A w

variable {w : Nat}

variable {src : Nat → UInt8}

lemma fill_inside (lower : a ≤ w) (upper : w < a + n) : A.fill a n src w = (A w).map fun _ => src (w - a) :=
  if_pos ⟨lower, upper⟩

lemma fill_outside (outside : ¬ (a ≤ w ∧ w < a + n)) : A.fill a n src w = A w :=
  if_neg outside

lemma fill_fill (A : Space) (a n k : Nat) (src : Nat → UInt8) :
    (A.fill a n src).fill (a + n) k (fun i => src (n + i)) = A.fill a (n + k) src := by
  funext w
  by_cases first : a ≤ w ∧ w < a + n
  · rw [fill_outside (by omega), fill_inside first.1 first.2, fill_inside first.1 (by omega)]
  by_cases second : a + n ≤ w ∧ w < a + n + k
  · rw [fill_inside second.1 second.2, fill_outside first, fill_inside (by omega) (by omega),
      show n + (w - (a + n)) = w - a by omega]
  · rw [fill_outside second, fill_outside first, fill_outside (by omega)]

lemma fill_ne_none (there : A w ≠ none) : A.fill a n src w ≠ none := by
  unfold fill
  split
  · rwa [Ne, map_eq_none_iff]
  · exact there

lemma fill_zero (A : Space) (a : Nat) (src : Nat → UInt8) : A.fill a 0 src = A := by
  funext w
  exact fill_outside (by omega)

end Space

/-- The address space of a table without user entries. -/
def Space.empty : Space := fun _ => none

/-- A read of a user address through the page table gives this byte. -/
def ReadsAs (s : Phys) (pml4 virt : Nat) (b : UInt8) : Prop :=
  vmmVirtToPhys s.mem pml4 virt ≠ 0 ∧ s.mem (vmmVirtToPhys s.mem pml4 virt) = b

structure Refines (own : Nat → Prop) (root : Nat) (s : Phys) (A : Space) : Prop where
  inv : UserTree own root s
  bytes : ∀ w < userEnd, s.peek root w = A w

variable {own : Nat → Prop} {root : Nat} {s s' s'' : Phys}

namespace Refines

variable {virt : Nat}

section

variable (refines : Refines own root s A) (user : virt < userEnd) {nx : Bool}

include refines user

lemma mapped_iff : (∃ f, s.page root virt = some f) ↔ (A virt).isSome := by
  rw [← refines.bytes virt user, peek, isSome_map, isSome_iff_exists]

lemma mapped_owned (there : A virt ≠ none) : ∃ f, s.page root virt = some f ∧ own f := by
  obtain ⟨f, found⟩ := (refines.mapped_iff user).mpr (isSome_iff_ne_none.mpr there)
  exact ⟨f, found, (refines.inv.owned _ f (userPath_path user) found).1⟩

/-- The translation is 0 exactly for the addresses that are not mapped. -/
lemma translate_eq_zero_iff : vmmVirtToPhys s.mem (root * 4096) virt = 0 ↔ A virt = none := by
  rw [refines.inv.translate user]
  cases found : s.page root virt with
  | none =>
    have absent := refines.bytes virt user
    rw [peek, found] at absent
    simpa using absent.symm
  | some f =>
    have owned := refines.inv.owned _ f (userPath_path user) found
    have positive := (refines.inv.valid f owned.1).1
    have there := (refines.mapped_iff user).mp ⟨f, found⟩
    have nonzero : f * 4096 + virt % 4096 ≠ 0 := by omega
    simp only [nonzero, false_iff]
    intro absent
    rw [absent] at there
    cases there

/-- A byte of the space is what a read through the page table gives. -/
lemma read {b : UInt8} (byte : A virt = some b) : ReadsAs s (root * 4096) virt b := by
  constructor
  · rw [Ne, refines.translate_eq_zero_iff user, byte]
    exact some_ne_none b
  · have seen := refines.bytes virt user
    rw [byte, peek] at seen
    obtain ⟨f, found, value⟩ := map_eq_some_iff.mp seen
    rw [refines.inv.translate user, found]
    exact value

/-- Bytes of mapped pages that were not touched are still there. -/
lemma peek_congr (page : s'.page root virt = s.page root virt)
    (contents : ∀ g, g ∉ s.free → ¬ s.IsTable root g → ∀ x, x / 4096 = g → s'.mem x = s.mem x) :
    s'.peek root virt = A virt := by
  rw [← refines.bytes virt user, peek, peek, page]
  cases found : s.page root virt with
  | none => rfl
  | some f =>
    have inside := userPath_path user
    have used := (refines.inv.owned _ f inside found).2
    have notTable := refines.inv.page_not_table inside (by simp [path]) found
    simp only [map_some, some.injEq]
    exact contents f used notTable _ (by omega)

/-- `palloc_zero` followed by `map_page`. -/
lemma mapFresh {flags : Nat} {s₁ : Phys} (allocated : s.pallocZero = some (s₁, a))
    (mapped : mapPage nx s₁ (root * 4096) virt a flags = some s') (low : finalFlags nx flags < 4096) :
    Refines own root s' (A.mapZero virt) ∧ s.Touches (Writable own root) s' ∧
      ∃ f, s.free = f :: s₁.free ∧ (s.walk root (path virt).tail ≠ none → s'.free = s₁.free) ∧
        ∀ w < userEnd, s'.page root w = if w / 4096 = virt / 4096 then some f else s.page root w := by
  obtain ⟨f, rfl, mine, listed, used, inv₁, walks, fresh, zero, same, touches⟩ :=
    refines.inv.palloc allocated
  obtain ⟨f', same', free, -⟩ := pallocZero_spec allocated refines.inv.nodup
  obtain rfl : f = f' := by omega
  have result := inv₁.mapPage_spec user mapped (Nat.mul_div_cancel _ (by decide)) low mine used (.inl fresh)
  have notTable : ¬ s₁.IsTable root f := fun ⟨q, at_q, _, reached⟩ => fresh q at_q reached
  have refines₁ : Refines own root s₁ A := by
    refine ⟨inv₁, fun w userW => refines.peek_congr userW (walks _ (userPath_path userW)) ?_⟩
    intro g inUse _ x inFrame
    refine same x fun isNew => inUse ?_
    rw [← inFrame, isNew]
    exact listed
  refine ⟨⟨result.inv, fun w userW => ?_⟩, touches.trans result.touches, f, free,
    fun there => result.settled ?_, fun w userW => ?_⟩
  · unfold Space.mapZero
    split
    next samePage =>
      rw [peek, result.page w userW, if_pos samePage, map_some,
        result.contents f used notTable _ (by omega), zero _ (by omega)]
    next otherPage =>
      refine refines₁.peek_congr userW ?_ result.contents
      rw [result.page w userW, if_neg otherPage]
  · rw [walks (path virt).tail (userPath_tail _ _ (userPath_path user))]
    exact there
  · rw [result.page w userW, page, page, walks _ (userPath_path userW)]

/-- `map_page` with the frame the page already has. -/
lemma remap {phys flags f : Nat} (there : s.page root virt = some f)
    (frame : phys / 4096 = f) (mapped : mapPage nx s (root * 4096) virt phys flags = some s')
    (low : finalFlags nx flags < 4096) :
    Refines own root s' A ∧ s.Touches (Writable own root) s' ∧
      ∀ w < userEnd, s'.page root w = s.page root w := by
  obtain ⟨mine, used⟩ := refines.inv.owned _ f (userPath_path user) there
  have result := refines.inv.mapPage_spec user mapped frame low mine used (.inr there)
  have pages : ∀ w < userEnd, s'.page root w = s.page root w := by
    intro w userW
    rw [result.page w userW]
    split
    next samePage => rw [← there, page, page, (path_eq_iff userW user).mpr samePage]
    · rfl
  exact ⟨⟨result.inv, fun w userW => refines.peek_congr userW (pages w userW) result.contents⟩,
    result.touches, pages⟩

end

lemma store_pages (inv : UserTree own root s) (src : Nat → UInt8)
    (safe : ∀ x, a ≤ x → x < a + n → ¬ s.IsTable root (x / 4096)) :
    UserTree own root (s.store a n src) ∧ ∀ w < userEnd, (s.store a n src).page root w = s.page root w := by
  have tables : ∀ g, s.IsTable root g → ∀ x, x / 4096 = g → (s.store a n src).mem x = s.mem x := by
    rintro g isTable x rfl
    exact store_outside fun range => safe x range.1 range.2 isTable
  obtain ⟨inv', walks⟩ := inv.congr tables List.suffix_rfl
  exact ⟨inv', fun w userW => walks _ (userPath_path userW)⟩

lemma storePage (refines : Refines own root s A) {f o : Nat} (src : Nat → UInt8)
    (user : virt < userEnd) (there : s.page root virt = some f) (fits : o + n ≤ 4096) :
    Refines own root (s.store (f * 4096 + o) n src) (A.fill (virt / 4096 * 4096 + o) n src) ∧
      s.Touches (· / 4096 = f) (s.store (f * 4096 + o) n src) ∧
      ∀ w < userEnd, (s.store (f * 4096 + o) n src).page root w = s.page root w := by
  have inside := userPath_path user
  have used := (refines.inv.owned _ f inside there).2
  have notTable := refines.inv.page_not_table inside (by simp [path]) there
  have safe : ∀ x, f * 4096 + o ≤ x → x < f * 4096 + o + n → ¬ s.IsTable root (x / 4096) := by
    intro x lower upper
    have frame : x / 4096 = f := by omega
    rwa [frame]
  obtain ⟨inv', pages⟩ := store_pages refines.inv src safe
  refine ⟨⟨inv', fun w userW => ?_⟩, s.store_touches_frame src used fits, pages⟩
  rw [peek, pages w userW]
  cases found : s.page root w with
  | none =>
    have absent := refines.bytes w userW
    rw [peek, found] at absent
    unfold Space.fill
    split <;> simp [← absent]
  | some g =>
    have byte := refines.bytes w userW
    rw [peek, found, map_some] at byte
    rw [map_some, store_mem]
    by_cases range : virt / 4096 * 4096 + o ≤ w ∧ w < virt / 4096 * 4096 + o + n
    · have samePage : w / 4096 = virt / 4096 := by omega
      have sameFrame : g = f := by
        rw [page, (path_eq_iff userW user).mpr samePage] at found
        exact some.inj (found.symm.trans there)
      rw [Space.fill_inside range.1 range.2, ← byte, sameFrame, store_inside (by omega) (by omega)]
      congr 2
      omega
    · rw [Space.fill_outside range, ← byte, store_outside]
      rintro ⟨lower, upper⟩
      refine range ?_
      obtain rfl : g = f := by omega
      have samePage := (path_eq_iff userW user).mp
        (refines.inv.walk_unique (userPath_path userW) inside found there)
      omega

/-- A store into frames that are not part of the address space. -/
lemma storeOutside (refines : Refines own root s A) (src : Nat → UInt8)
    (outside : ∀ x, a ≤ x → x < a + n → ¬ own (x / 4096)) :
    Refines own root (s.store a n src) A ∧ ∀ w < userEnd, (s.store a n src).page root w = s.page root w := by
  obtain ⟨inv', pages⟩ := store_pages refines.inv src fun x lower upper isTable => by
    obtain ⟨q, at_q, -, reached⟩ := isTable
    exact outside x lower upper (refines.inv.owned q _ at_q reached).1
  refine ⟨⟨inv', fun w userW => ?_⟩, pages⟩
  rw [← refines.bytes w userW, peek, peek, pages w userW]
  cases found : s.page root w with
  | none => rfl
  | some g =>
    refine congrArg some (store_outside fun range => outside _ range.1 range.2 ?_)
    rw [show (g * 4096 + w % 4096) / 4096 = g by omega]
    exact (refines.inv.owned _ g (userPath_path userW) found).1

end Refines

/-- Writes through the page table that turn the address space into `B`. They keep
    the pages, and they stay within any set that holds the frames of the addresses
    of `range`, provided these are mapped. -/
structure Wrote (own : Nat → Prop) (root : Nat) (s s' : Phys) (B : Space) (range : Nat → Prop) :
    Prop where
  refines : Refines own root s' B
  pages : ∀ w < userEnd, s'.page root w = s.page root w
  touches : ∀ target : Nat → Prop,
    (∀ w, range w → ∃ f, s.page root w = some f ∧ target f) → s.Touches (fun x => target (x / 4096)) s'

variable {B : Space} {range range' : Nat → Prop}

lemma Wrote.trans
    (first : Wrote own root s s' A range) (second : Wrote own root s' s'' B range')
    (user : ∀ w, range' w → w < userEnd) :
    Wrote own root s s'' B (fun w => range w ∨ range' w) where
  refines := second.refines
  pages := fun w userW => (second.pages w userW).trans (first.pages w userW)
  touches := fun target inside =>
    (first.touches target fun w inRange => inside w (.inl inRange)).trans
      (second.touches target fun w inRange => by
        rw [first.pages w (user w inRange)]
        exact inside w (.inr inRange))

lemma Wrote.widen (wrote : Wrote own root s s' A range)
    (wider : ∀ w, range w → range' w) :
    Wrote own root s s' A range' where
  refines := wrote.refines
  pages := wrote.pages
  touches := fun target inside => wrote.touches target fun w inRange => inside w (wider w inRange)

lemma Wrote.touches_own (wrote : Wrote own root s s' B range)
    (refines : Refines own root s A) (there : ∀ w, range w → w < userEnd ∧ A w ≠ none) :
    s.Touches (Writable own root) s' := by
  refine (wrote.touches (fun f => own f ∧ f ≠ root) fun w inRange => ?_).mono
    fun x inside => ⟨inside.1, fun isRoot => absurd isRoot inside.2⟩
  obtain ⟨user, mapped⟩ := there w inRange
  obtain ⟨f, found, mine⟩ := refines.mapped_owned user mapped
  exact ⟨f, found, mine, refines.inv.page_ne_root user found⟩

end Znu.Mm
