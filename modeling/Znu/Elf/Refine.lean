import Znu.Elf.Load

/-! # The loader's steps on the address space

Each loop of the loader is an operation on the user's address space, as long as it
stays in the user half. The copy loop adds the page offset a second time to a
translation that already has it, so what it fills is the range moved up by that
offset.
-/

variable {A : Space}

namespace Znu.Mm.Space

/-- Every address of `n` pages from `a` on that is not mapped reads as zero. -/
def mapMissing (A : Space) (a n : Nat) : Space :=
  fun w => if a ≤ w ∧ w < a + 4096 * n then (A w).or (some 0) else A w

/-- The `n` pages from `a` on are pages of zeros. -/
def mapFresh (A : Space) (a n : Nat) : Space :=
  fun w => if a ≤ w ∧ w < a + 4096 * n then some 0 else A w

variable {a n w : Nat}

lemma mapMissing_inside (inside : a ≤ w ∧ w < a + 4096 * n) :
    A.mapMissing a n w = (A w).or (some 0) := if_pos inside

lemma mapMissing_outside (outside : ¬ (a ≤ w ∧ w < a + 4096 * n)) : A.mapMissing a n w = A w := if_neg outside

lemma mapFresh_inside (inside : a ≤ w ∧ w < a + 4096 * n) : A.mapFresh a n w = some 0 := if_pos inside

lemma mapFresh_outside (outside : ¬ (a ≤ w ∧ w < a + 4096 * n)) : A.mapFresh a n w = A w := if_neg outside

end Znu.Mm.Space

namespace Znu.Mm

/-- The page at `a` is done and the `n` pages behind it come next. -/
lemma pages_succ {α : Type} (g : α → α) (A B : Nat → α) {a n w : Nat} (aligned : a % 4096 = 0)
    (first : w / 4096 = a / 4096 → B w = g (A w)) (rest : w / 4096 ≠ a / 4096 → B w = A w) :
    (if a + 4096 ≤ w ∧ w < a + 4096 + 4096 * n then g (B w) else B w) =
      if a ≤ w ∧ w < a + 4096 * (n + 1) then g (A w) else A w := by
  by_cases same : w / 4096 = a / 4096
  · rw [if_neg (by omega), if_pos (by omega), first same]
  · rw [rest same]
    exact if_congr (by omega) rfl rfl

end Znu.Mm

namespace Znu.Elf

open Mm Option

/-- What a copy in the user half does first. -/
lemma chunkLen_facts {uva len : Nat} (more : len ≠ 0) (user : uva + len ≤ userEnd) :
    0 < chunkLen uva len ∧ chunkLen uva len ≤ len ∧ chunkLen uva len ≤ 4096 - uva % 4096 ∧
      (uva + chunkLen uva len) % 2 ^ 64 = uva + chunkLen uva len := by
  have atMost : chunkLen uva len ≤ len := Nat.min_le_right ..
  simp only [userEnd] at user
  exact ⟨chunkLen_pos uva more, atMost, Nat.min_le_left .., Nat.mod_eq_of_lt (by omega)⟩

lemma mapFreshPages_succ {nx : Bool} {pml4 flags n page : Nat} {s s' : Phys} (user : page < userEnd)
    (mapped : mapFreshPages nx pml4 flags (n + 1) page s = some s') :
    ∃ s₁ phys s₂, s.pallocZero = some (s₁, phys) ∧ mapPage nx s₁ pml4 page phys flags = some s₂ ∧
      mapFreshPages nx pml4 flags n (page + 4096) s₂ = some s' := by
  have noWrap : (page + 4096) % 2 ^ 64 = page + 4096 := by
    simp only [userEnd] at user
    omega
  rw [mapFreshPages, noWrap] at mapped
  simp only [bind_eq_bind, bind_eq_some_iff] at mapped
  obtain ⟨⟨s₁, phys⟩, allocated, s₂, entered, rest⟩ := mapped
  exact ⟨s₁, phys, s₂, allocated, entered, rest⟩

end Znu.Elf

namespace Znu.Mm.Refines

open Lib Elf Option

variable {own : Nat → Prop} {root : Nat} {s s' : Phys}

lemma uniform (refines : Refines own root s A) {v w : Nat} (userV : v < userEnd)
    (userW : w < userEnd) (same : v / 4096 = w / 4096) : (A v).isSome ↔ (A w).isSome := by
  rw [← refines.mapped_iff userV, ← refines.mapped_iff userW, Phys.page, Phys.page,
    (path_eq_iff userV userW).mpr same]

lemma congr (refines : Refines own root s A) {B : Space} (same : ∀ w < userEnd, A w = B w) :
    Refines own root s B :=
  ⟨refines.inv, fun w user => (refines.bytes w user).trans (same w user)⟩

variable {nx : Bool} {flags n page : Nat}

section

variable (refines : Refines own root s A)

include refines

lemma mapPages_spec (aligned : page % 4096 = 0) (user : page + 4096 * n ≤ userEnd)
    (low : finalFlags nx flags < 4096) (mapped : mapPages nx (root * 4096) flags n page s = some s') :
    Refines own root s' (A.mapMissing page n) ∧ s.Touches (Writable own root) s' := by
  induction n generalizing s page A with
  | zero =>
    obtain rfl := some.inj mapped
    refine ⟨refines.congr fun w _ => ?_, .refl _ s⟩
    rw [Space.mapMissing_outside (by omega)]
  | succ n ih =>
    have userPage : page < userEnd := by omega
    rw [mapPages] at mapped
    split at mapped
    next absent =>
      simp only [bind_eq_bind, bind_eq_some_iff] at mapped
      obtain ⟨⟨s₁, phys⟩, allocated, s₂, entered, rest⟩ := mapped
      obtain ⟨refines', touches, -⟩ := refines.mapFresh userPage allocated entered low
      obtain ⟨refines'', touches'⟩ := ih refines' (by omega) (by omega) rest
      refine ⟨refines''.congr fun w userW => ?_, touches.trans touches'⟩
      refine pages_succ (or · (some 0)) A (A.mapZero page) aligned (fun first => ?_) (if_neg ·)
      have uniform := refines.uniform userW userPage first
      rw [(refines.translate_eq_zero_iff userPage).mp absent] at uniform
      have vacant : A w = none := by simpa using uniform
      rw [vacant, Space.mapZero, if_pos first, none_or]
    rename_i there
    obtain ⟨refines', touches⟩ := ih refines (by omega) (by omega) mapped
    refine ⟨refines'.congr fun w userW => ?_, touches⟩
    refine pages_succ (or · (some 0)) A A aligned (fun first => ?_) fun _ => rfl
    have something : (A page).isSome := by
      rw [isSome_iff_ne_none]
      exact fun nothing => there ((refines.translate_eq_zero_iff userPage).mpr nothing)
    obtain ⟨b, byte⟩ := isSome_iff_exists.mp ((refines.uniform userW userPage first).mpr something)
    rw [byte, some_or]

lemma mapFreshPages_spec (aligned : page % 4096 = 0) (user : page + 4096 * n ≤ userEnd)
    (low : finalFlags nx flags < 4096)
    (mapped : mapFreshPages nx (root * 4096) flags n page s = some s') :
    Refines own root s' (A.mapFresh page n) ∧ s.Touches (Writable own root) s' := by
  induction n generalizing s page A with
  | zero =>
    obtain rfl := some.inj mapped
    refine ⟨refines.congr fun w _ => ?_, .refl _ s⟩
    rw [Space.mapFresh_outside (by omega)]
  | succ n ih =>
    have userPage : page < userEnd := by omega
    obtain ⟨s₁, phys, s₂, allocated, entered, rest⟩ := mapFreshPages_succ userPage mapped
    obtain ⟨refines', touches, -⟩ := refines.mapFresh userPage allocated entered low
    obtain ⟨refines'', touches'⟩ := ih refines' (by omega) (by omega) rest
    refine ⟨refines''.congr fun w _ => ?_, touches.trans touches'⟩
    exact pages_succ (fun _ => some 0) A (A.mapZero page) aligned (if_pos ·) (if_neg ·)

lemma remapPages_spec (user : page + 4096 * n ≤ userEnd) (low : finalFlags nx flags < 4096)
    (mapped : remapPages nx (root * 4096) flags n page s = some s') :
    Refines own root s' A ∧ s.Touches (Writable own root) s' := by
  induction n generalizing s page with
  | zero =>
    obtain rfl := some.inj mapped
    exact ⟨refines, .refl _ s⟩
  | succ n ih =>
    have userPage : page < userEnd := by omega
    rw [remapPages] at mapped
    split at mapped
    next there =>
      obtain ⟨s₁, entered, rest⟩ := bind_eq_some_iff.mp mapped
      cases found : s.page root page with
      | none => exact absurd (refines.inv.translate_unmapped userPage found) there
      | some f =>
        have frame : vmmVirtToPhys s.mem (root * 4096) page / 4096 = f := by
          rw [refines.inv.translate_mapped userPage found]
          omega
        obtain ⟨refines', touches, -⟩ := refines.remap userPage found frame entered low
        obtain ⟨refines'', touches'⟩ := ih refines' (by omega) rest
        exact ⟨refines'', touches.trans touches'⟩
    · exact ih refines (by omega) mapped

/-- One store through the page table, at `extra` bytes past the translation of
    `uva`. An address that is not mapped sends it to physical page 0. -/
lemma storeVirt (uva extra n : Nat) (src : Nat → UInt8) (user : uva < userEnd)
    (fits : uva % 4096 + extra + n ≤ 4096) :
    Wrote own root s (s.store (vmmVirtToPhys s.mem (root * 4096) uva + extra) n src)
      (A.fill (uva + extra) n src) (· = uva) := by
  cases found : s.page root uva with
  | some f =>
    obtain ⟨refines', touches, pages⟩ :=
      refines.storePage (f := f) (o := uva % 4096 + extra) (n := n) src user found fits
    have place : uva / 4096 * 4096 + (uva % 4096 + extra) = uva + extra := by omega
    rw [place] at refines'
    rw [refines.inv.translate_mapped user found, Nat.add_assoc]
    refine ⟨refines', pages, fun target inside => touches.mono ?_⟩
    rintro x rfl
    obtain ⟨h, there, member⟩ := inside uva rfl
    exact some.inj (found.symm.trans there) ▸ member
  | none =>
    have absent : A uva = none := by
      rw [← refines.bytes uva user, Phys.peek, found]
      rfl
    rw [refines.inv.translate_unmapped user found, Nat.zero_add]
    have outside : ∀ x, extra ≤ x → x < extra + n → ¬ own (x / 4096) := by
      intro x lower upper mine
      have positive := (refines.inv.valid _ mine).1
      omega
    obtain ⟨refines', pages⟩ := refines.storeOutside src outside
    refine ⟨refines'.congr fun w userW => ?_, pages, fun target inside => ?_⟩
    · by_cases range : uva + extra ≤ w ∧ w < uva + extra + n
      · have uniform := refines.uniform userW user (by omega)
        rw [absent] at uniform
        have vacant : A w = none := by simpa using uniform
        rw [Space.fill_inside range.1 range.2, vacant]
        rfl
      · rw [Space.fill_outside range]
    · obtain ⟨f, there, -⟩ := inside uva rfl
      rw [found] at there
      cases there

/-- `hhdm_write64` of a word that does not straddle two pages. -/
lemma hhdmWrite64_spec (uva val : Nat) (user : uva < userEnd) (fits : uva % 4096 + 8 ≤ 4096) :
    Wrote own root s (hhdmWrite64 s (root * 4096) uva val) (A.fill uva 8 (Bytes.digit val)) (· = uva) :=
  refines.storeVirt uva 0 8 (Bytes.digit val) user fits

/-- `hhdm_copy_to_user`, for a range that starts on a page boundary or is short
    enough for the misplaced copy to stay in its page. -/
lemma hhdmCopyToUser_spec (uva len : Nat) (src : Nat → UInt8) (user : uva + len ≤ userEnd)
    (place : len = 0 ∨ uva % 4096 = 0 ∨ 2 * (uva % 4096) + len ≤ 4096) :
    Wrote own root s (hhdmCopyToUser s (root * 4096) uva src len)
      (A.fill (uva + uva % 4096) len src) (fun w => uva ≤ w ∧ w < uva + len) := by
  induction len using Nat.strong_induction_on generalizing s A uva src with
  | _ len ih =>
    rw [hhdmCopyToUser]
    split
    next nothing =>
      rw [nothing, Space.fill_zero]
      exact ⟨refines, fun _ _ => rfl, fun _ _ => .refl _ s⟩
    rename_i more
    obtain ⟨positive, atMost, inPage, noWrap⟩ := chunkLen_facts more user
    have first := refines.storeVirt uva (uva % 4096) (chunkLen uva len) src (by omega) (by omega)
    simp only [noWrap]
    by_cases whole : chunkLen uva len = len
    · rw [whole, Nat.sub_self, hhdmCopyToUser, dif_pos rfl]
      rw [whole] at first
      refine ⟨first.refines, first.pages, fun target inside => first.touches target ?_⟩
      rintro w rfl
      exact inside w ⟨le_refl _, by omega⟩
    have aligned : (uva + chunkLen uva len) % 4096 = 0 := by
      unfold chunkLen at whole ⊢
      omega
    have start : uva % 4096 = 0 := by
      omega
    have rest := ih (len - chunkLen uva len) (by omega) first.refines
      (uva + chunkLen uva len) (fun i => src (chunkLen uva len + i)) (by omega)
      (.inr (.inl aligned))
    have joined := Space.fill_fill A uva (chunkLen uva len) (len - chunkLen uva len) src
    rw [Nat.add_sub_cancel' atMost] at joined
    simp only [start, aligned, Nat.add_zero] at first rest ⊢
    rw [joined] at rest
    refine ⟨rest.refines, fun w userW => (rest.pages w userW).trans (first.pages w userW),
      fun target inside => (first.touches target ?_).trans (rest.touches target ?_)⟩
    · rintro w rfl
      exact inside w ⟨le_refl _, by omega⟩
    · rintro w ⟨lower, upper⟩
      rw [first.pages w (by omega)]
      exact inside w ⟨by omega, by omega⟩

end

end Znu.Mm.Refines
