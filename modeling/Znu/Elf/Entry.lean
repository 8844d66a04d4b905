import Znu.Elf.StackContents

/-! # What a program finds at its entry

The stack pointer, the address of the program headers in the auxiliary vector and the
thread pointer are all computed from the image. Each of them is what the processor's ABI
asks for under a condition on the arguments or on the headers, which the theorems name.
-/

namespace Znu.Elf

open Lib Mm Option List Space Nat

/-! ## The stack pointer -/

/-- The pointer moves by 8 a word, also where it wraps. -/
lemma pushWords_mod (pml4 : Nat) (ws : List Nat) (s : Phys) (sp : Nat) :
    (pushWords pml4 ws s sp).2 % 16 = (sp + 8 * ws.length) % 16 := by
  induction ws generalizing s sp with
  | nil => rfl
  | cons w ws ih =>
    rw [pushWords, ih, length_cons, sub64]
    split <;> omega

lemma pushVectors_mod (pml4 seed : Nat) (h : Ehdr) (loadBase platform execfn : Nat)
    (uargv uenvp : List Nat) (s : Phys) :
    (pushVectors pml4 seed h loadBase platform execfn uargv uenvp s).2 % 16 =
      8 * (uargv.length + uenvp.length + 1) % 16 := by
  have aligned (sp : Nat) : alignStack uargv.length uenvp.length sp % 16 = 0 := mul_mod_left _ 16
  have pad := aligned (pushWords pml4 [xorshift (xorshift seed), xorshift seed] s platform).2
  have entries := @auxv_length execfn _ h loadBase platform
    (pushWords pml4 [xorshift (xorshift seed), xorshift seed] s platform).2 rfl
  simp only [pushVectors, pushWords_mod, length_append, length_cons, length_reverse,
    length_nil, auxvWords_length, entries]
  omega

lemma elfBuildStack_mod (s : Phys) (pml4 seed : Nat) (argv envp : List CString) (h : Ehdr)
    (loadBase : Nat) (execfn : Option CString) :
    (elfBuildStack s pml4 seed argv envp h loadBase execfn).2 % 16 =
      8 * (argv.length + envp.length + 1) % 16 := by
  simp only [elfBuildStack, pushVectors_mod, pushStrings_length]

/-- The padding does not survive the rounding that follows it, so the stack pointer is a multiple of
    16 exactly if the number of strings is odd. -/
theorem stack_aligned_iff (s : Phys) (pml4 seed : Nat) (argv envp : List CString) (h : Ehdr)
    (loadBase : Nat) (execfn : Option CString) :
    (elfBuildStack s pml4 seed argv envp h loadBase execfn).2 % 16 = 0 ↔
      (argv.length + envp.length) % 2 = 1 := by
  rw [elfBuildStack_mod]
  omega

/-- One argument and one environment string. -/
theorem two_strings_misalign :
    (elfBuildStack smallMachine 4096 1 [⟨[0x61], by decide⟩] [⟨[0x62], by decide⟩]
      (ehdr (oneByteImage 0)) 0x400000 none).2 % 16 = 8 := by
  rw [elfBuildStack_mod, length_singleton, length_singleton]

/-! ## The program headers -/

/-- The addresses of the segments that are mapped. -/
def loadVaddrs (ps : List Phdr) : List Nat :=
  (ps.filter fun p => p.pType = ptLoad ∧ p.pMemsz ≠ 0).map Phdr.pVaddr

/-- The lowest address of a segment, where `UINTPTR_MAX` is taken for 0. -/
def lowestVaddr (ps : List Phdr) : Nat :=
  let lowest := (loadVaddrs ps).foldl min (2 ^ 64 - 1)
  if lowest = 2 ^ 64 - 1 then 0 else lowest

/-- The program header table lies in the file range of this segment. -/
structure Phdr.HoldsTable (image : Bytes) (p : Phdr) : Prop where
  load : p.pType = ptLoad
  fits : p.pFilesz ≤ p.pMemsz
  lower : p.pOffset ≤ (ehdr image).ePhoff
  upper : (ehdr image).ePhoff + 56 * (ehdr image).ePhnum ≤ p.pOffset + p.pFilesz

section

variable {nx : Bool} {pml4 : Nat} {image : Bytes} {ps : List Phdr} {s s' : Phys} {l l' : Loaded}

lemma loadHeaders_base (loaded : loadHeaders nx pml4 image ps s l = some (s', some l')) :
    l'.loadBase = (loadVaddrs ps).foldl min l.loadBase := by
  induction ps generalizing s l with
  | nil =>
    cases loaded
    rfl
  | cons p ps ih =>
    unfold loadHeaders at loaded
    split at loaded
    case isTrue isLoad =>
      split at loaded
      case isTrue empty => simpa [loadVaddrs, isLoad, empty] using ih loaded
      case isFalse used =>
        obtain ⟨s₁, -, rest⟩ := bind_eq_some_iff.mp loaded
        have lower : (l.track p).loadBase = min l.loadBase p.pVaddr := by grind [Loaded.track]
        simpa [loadVaddrs, isLoad, used, lower] using ih rest
    case isFalse other =>
      have same : loadVaddrs (p :: ps) = loadVaddrs ps := by simp [loadVaddrs, other]
      rw [same]
      split at loaded
      · obtain ⟨⟨s₁, tls⟩, -, rest⟩ := bind_eq_some_iff.mp loaded
        dsimp only at rest
        split at rest
        · cases rest
        · exact (ih rest :)
      · split at loaded <;> exact (ih loaded :)

lemma elfLoadSegments_base (loaded : elfLoadSegments nx s pml4 image = some (s', some l)) :
    l.loadBase = lowestVaddr (phdrs image) := by
  obtain ⟨s₁, l₁, headers, -, rfl⟩ := elfLoadSegments_loaded loaded
  have base : l₁.loadBase = (loadVaddrs (phdrs image)).foldl min (2 ^ 64 - 1) :=
    loadHeaders_base headers
  unfold lowestVaddr Loaded.finish
  grind

/-- The entry `AT_PHDR`, which has type 3, is on the stack that was built and has this value. -/
structure Announces (built : Phys × Nat) (pml4 argc envc value : Nat) : Prop where
  type : ReadsWord built.1 pml4 (built.2 + 8 * (argc + envc + 3)) 3
  value : ReadsWord built.1 pml4 (built.2 + 8 * (argc + envc + 4)) value

/-- The last entry that is pushed comes first on the stack. -/
lemma vectors_phdr (h : Ehdr) (loadBase platform execfn : Nat) (uargv uenvp : List Nat) :
    (vectors h loadBase platform execfn uargv uenvp)[uargv.length + uenvp.length + 3]? = some 3 ∧
    (vectors h loadBase platform execfn uargv uenvp)[uargv.length + uenvp.length + 4]? =
      some ((loadBase + h.ePhoff) % 2 ^ 64) := by
  obtain ⟨rest, last⟩ : ∃ rest, (auxvWords (auxv h loadBase platform execfn (platform - 16))).reverse =
      3 :: (loadBase + h.ePhoff) % 2 ^ 64 :: rest := by
    simp [auxvWords, auxv]
  have length : (uargv.length :: (uargv ++ 0 :: uenvp)).length = uargv.length + uenvp.length + 2 := by
    simp only [length_cons, length_append]
    omega
  rw [vectors, last, getElem?_append_right (by omega), getElem?_append_right (by omega), length]
  constructor
  · rw [show uargv.length + uenvp.length + 3 - (uargv.length + uenvp.length + 2) = 1 by omega]
    rfl
  · rw [show uargv.length + uenvp.length + 4 - (uargv.length + uenvp.length + 2) = 2 by omega]
    rfl

variable {own : Nat → Prop} {root : Nat} {argv envp : List CString} {execfn : Option CString}

lemma announces_iff (tree : UserTree own root s) (spared : Spared root s (platformPlace argv envp execfn))
    (seed : Nat) (h : Ehdr) (loadBase : Nat) (fits : stackUse argv envp execfn ≤ stackPages * 4096) (value : Nat) :
    Announces (elfBuildStack s (root * 4096) seed argv envp h loadBase execfn) (root * 4096) argv.length
      envp.length value ↔ (loadBase + h.ePhoff) % 2 ^ 64 = value := by
  obtain ⟨uexecfn, uargv, uenvp, count, countEnv, reads⟩ :=
    elfBuildStack_vectors tree spared seed h loadBase fits
  obtain ⟨type, word⟩ := vectors_phdr h loadBase (platformPlace argv envp execfn) uexecfn uargv uenvp
  rw [count, countEnv] at type word
  have there := reads _ _ word (Nat.mod_lt _ (by decide))
  refine ⟨fun announces => there.2.symm.trans announces.value.2, ?_⟩
  rintro rfl
  exact ⟨reads _ _ type (by decide), there⟩

/-- The value of `AT_PHDR` on the stack is right exactly if the lowest segment is as far below the segment
    with the table as that one's offset says. -/
theorem at_phdr_iff {p : Phdr} {s₁ : Phys} (loaded : elfLoadSegments nx s pml4 image = some (s', some l))
    (covers : p.HoldsTable image) (tree : UserTree own root s₁)
    (spared : Spared root s₁ (platformPlace argv envp execfn))
    (fits : stackUse argv envp execfn ≤ stackPages * 4096) (seed : Nat) :
    Announces (elfBuildStack s₁ (root * 4096) seed argv envp (ehdr image) l.loadBase execfn) (root * 4096)
        argv.length envp.length ((p.pVaddr + ((ehdr image).ePhoff - p.pOffset)) % 2 ^ 64) ↔
      (lowestVaddr (phdrs image) + p.pOffset) % 2 ^ 64 = p.pVaddr % 2 ^ 64 := by
  have lower := covers.lower
  rw [announces_iff tree spared _ _ _ fits, elfLoadSegments_base loaded]
  omega

end

/-- The image of one segment with 120 bytes of the file from `offset`, at `0x400000 + offset`. -/
def tableImage (offset : UInt8) : Bytes := fun a =>
  if a = 72 then offset else if a = 96 ∨ a = 104 then 120 else oneByteImage offset a

def tableHeader (offset : Nat) : Phdr := ⟨ptLoad, 6, offset, 0x400000 + offset, 120, 120, 0x1000⟩

lemma tableHeader_tame {offset : Nat} (early : offset ≤ 64) : (tableHeader offset).Tame where
  load _ _ := by
    refine ⟨?_, ?_, .inr (.inr ?_)⟩ <;> simp only [tableHeader, userEnd] <;> omega
  tls isTls := absurd isTls (by simp [tableHeader, ptLoad, ptTls])
  relro isRelro := absurd isRelro (by simp [tableHeader, ptLoad, ptGnuRelro])

/-- A machine that has loaded the image and mapped a stack; the frame after that of its last page is free. -/
lemma tableImage_loads {offset : UInt8} (early : offset.toNat ≤ 64)
    (headers : phdrs (tableImage offset) = [tableHeader offset.toNat])
    (ran : ((vmmCreateUserPml4 (freshMachine (range' 1 40)) 0x100000).bind fun c =>
      (elfLoadSegments true c.1 c.2 (tableImage offset)).bind fun r =>
        (allocUserStack true r.1 c.2 false).map fun s => decide (r.2.isSome ∧
          vmmVirtToPhys s.mem c.2 0x7FFFF000FFF8 / 4096 + 1 ∈ s.free)) = some true) :
    ∃ s root s' l s₁, elfLoadSegments true s (root * 4096) (tableImage offset) = some (s', some l) ∧
      allocUserStack true s' (root * 4096) false = some s₁ ∧
      UserTree (· ∈ (freshMachine (range' 1 40)).free) root s₁ ∧
      Spared root s₁ (platformPlace [] [] none) := by
  obtain ⟨⟨s, pml4⟩, created, ran⟩ := bind_eq_some_iff.mp ran
  obtain ⟨⟨s', r⟩, loaded, ran⟩ := bind_eq_some_iff.mp ran
  obtain ⟨s₁, allocated, checked⟩ := map_eq_some_iff.mp ran
  obtain ⟨success, free⟩ := of_decide_eq_true checked
  obtain ⟨l, rfl⟩ := isSome_iff_exists.mp success
  obtain ⟨root, rfl, -, refines, -⟩ := vmmCreateUserPml4_spec (s := freshMachine (range' 1 40))
    ⟨by decide, by decide⟩ created
  have tame : ∀ p ∈ phdrs (tableImage offset), p.Tame := by
    rw [headers]
    simpa using tableHeader_tame early
  obtain ⟨refines', -⟩ := elfLoadSegments_refines refines tame loaded
  obtain ⟨refines₁, -⟩ := allocUserStack_spec refines' allocated
  have top : stackTop = 0x7FFFF0010000 := by
    unfold stackTop userStackBase stackPages
    rfl
  have user : stackTop ≤ userEnd := stackTop_place.2.1
  refine ⟨s, root, s', l, s₁, loaded, allocated, refines₁.inv, fun w lower upper => ?_, ?_⟩
  · have base := stackTop_place.2.2.1
    rw [refines₁.mapped_iff (by omega), mapFresh_inside (by unfold stackPages; omega)]
    rfl
  · rintro w f lower upper found ⟨q, at_q, -, reached⟩
    have inside : 0x7FFFF000FFF8 ≤ w := by
      simp only [platformPlace, stringsSize, map_nil, sum_nil, toList_none] at lower
      omega
    have same : path 0x7FFFF000FFF8 = path w := (path_eq_iff (by omega) (by omega)).mpr (by omega)
    have page : s₁.page root 0x7FFFF000FFF8 = some f := by rw [← found, Phys.page, same, Phys.page]
    rw [refines₁.inv.translate_mapped (by omega) page,
      show (f * 4096 + 0x7FFFF000FFF8 % 4096) / 4096 = f by omega] at free
    exact (refines₁.inv.owned q _ at_q reached).2 free

theorem table_at_start_right : ∃ s root s' l s₁,
    elfLoadSegments true s (root * 4096) (tableImage 0) = some (s', some l) ∧
    allocUserStack true s' (root * 4096) false = some s₁ ∧
    tableHeader 0 ∈ phdrs (tableImage 0) ∧ (tableHeader 0).HoldsTable (tableImage 0) ∧
    Announces (elfBuildStack s₁ (root * 4096) 0 [] [] (ehdr (tableImage 0)) l.loadBase none) (root * 4096)
      0 0 (0x400000 + 64) := by
  have headers : phdrs (tableImage 0) = [tableHeader 0] := by decide +kernel
  obtain ⟨s, root, s', l, s₁, loaded, allocated, tree, spared⟩ :=
    tableImage_loads (by decide) headers (by decide +kernel)
  have covers : (tableHeader 0).HoldsTable (tableImage 0) := by constructor <;> decide +kernel
  have right : (lowestVaddr (phdrs (tableImage 0)) + (tableHeader 0).pOffset) % 2 ^ 64 =
      (tableHeader 0).pVaddr % 2 ^ 64 := by decide +kernel
  have announced := (at_phdr_iff loaded covers tree spared (by decide) 0).mpr right
  have place : ((tableHeader 0).pVaddr + ((ehdr (tableImage 0)).ePhoff - (tableHeader 0).pOffset)) %
      2 ^ 64 = 0x400000 + 64 := by decide +kernel
  rw [place] at announced
  exact ⟨s, root, s', l, s₁, loaded, allocated, by simp [headers], covers, announced⟩

/-- A table at the start of a segment that begins at offset 64 is announced 64 bytes too high. -/
theorem table_at_offset_misplaced : ∃ s root s' l s₁,
    elfLoadSegments true s (root * 4096) (tableImage 64) = some (s', some l) ∧
    allocUserStack true s' (root * 4096) false = some s₁ ∧
    elfValidate (tableImage 64) = true ∧ (tableHeader 64).HoldsTable (tableImage 64) ∧
    tableHeader 64 ∈ phdrs (tableImage 64) ∧
    ¬ Announces (elfBuildStack s₁ (root * 4096) 0 [] [] (ehdr (tableImage 64)) l.loadBase none) (root * 4096)
      0 0 0x400040 := by
  have headers : phdrs (tableImage 64) = [tableHeader 64] := by decide +kernel
  obtain ⟨s, root, s', l, s₁, loaded, allocated, tree, spared⟩ :=
    tableImage_loads (by decide) headers (by decide +kernel)
  have covers : (tableHeader 64).HoldsTable (tableImage 64) := by constructor <;> decide +kernel
  refine ⟨s, root, s', l, s₁, loaded, allocated, by decide +kernel, covers, by simp [headers], ?_⟩
  intro announces
  have value := (announces_iff tree spared 0 _ _ (by decide) 0x400040).mp announces
  rw [elfLoadSegments_base loaded] at value
  exact absurd value (by decide +kernel)

/-! ## Thread-local storage -/

/-- The thread pointer and the block below it, where code with static thread-local storage
    expects them. -/
structure TlsPlaced (s : Phys) (pml4 tp : Nat) (image : Bytes) (p : Phdr) : Prop where
  aligned : tp % p.pAlign = 0
  self : ReadsWord s pml4 tp tp
  block : ∀ i < p.pMemsz, ReadsAs s pml4 (tp - (p.pMemsz + p.pAlign - 1) / p.pAlign * p.pAlign + i)
    (if i < p.pFilesz then p.data image i else 0)

/-- The block starts at a page and the thread pointer follows it directly, so both are right exactly
    if the size is a multiple of the alignment. -/
theorem tls_placed_iff {own : Nat → Prop} {root tp : Nat} {nx : Bool} {image : Bytes} {s s' : Phys}
    {A : Space} {p : Phdr} (refines : Refines own root s A) (tame : p.TameTls)
    (fits : p.pFilesz ≤ p.pMemsz) (power : ∃ k ≤ 12, p.pAlign = 2 ^ k)
    (loaded : elfSetupTls nx s (root * 4096) (p.data image) p.pFilesz p.pMemsz = some (s', tp)) :
    TlsPlaced s' (root * 4096) tp image p ↔ p.pMemsz % p.pAlign = 0 := by
  obtain ⟨rfl, refines', -⟩ := elfSetupTls_spec refines tame loaded
  obtain ⟨blockUser, tcbUser, -⟩ := tame.block
  obtain ⟨k, small, power⟩ := power
  have tcb : p.tcb = tlsUserBase + p.pMemsz := rfl
  have residue : p.tcb % p.pAlign = p.pMemsz % p.pAlign := by
    have divides : p.pAlign ∣ tlsUserBase :=
      power ▸ (pow_dvd_pow 2 small).trans (by decide : 2 ^ 12 ∣ tlsUserBase)
    rw [tcb, add_mod, mod_eq_zero_of_dvd divides, zero_add, mod_mod]
  have fresh : ∀ w, tlsUserBase ≤ w → w < p.tcb + 16 → A.mapFresh tlsUserBase p.tlsCount w = some 0 :=
    fun w lower upper => mapFresh_inside ⟨lower, by omega⟩
  refine ⟨fun placed => residue ▸ placed.aligned, fun whole => ⟨residue.trans whole, ?_, ?_⟩⟩
  · have digits : ∀ i < 8, ReadsAs s' (root * 4096) (p.tcb + i) (Bytes.digit p.tcb i) := by
      intro i inside
      refine refines'.read (by omega) ?_
      rw [fill_outside (by omega), fill_inside (by omega) (by omega),
        Nat.add_sub_cancel_left, fill_outside (by omega), fresh _ (by omega) (by omega)]
      rfl
    refine ⟨fun i inside => (digits i inside).1, ?_⟩
    rw [Bytes.word_digits fun i inside => (digits i inside).2, mod_eq_of_lt]
    simp only [userEnd] at blockUser
    omega
  · have start : p.tcb - (p.pMemsz + p.pAlign - 1) / p.pAlign * p.pAlign = tlsUserBase := by
      obtain ⟨m, size⟩ := dvd_of_mod_eq_zero whole
      have positive : 0 < p.pAlign := power ▸ Nat.two_pow_pos k
      rw [tcb, size, Nat.add_sub_assoc positive, Nat.mul_add_div positive,
        div_eq_of_lt (sub_one_lt_of_lt positive), add_zero, mul_comm m,
        Nat.add_sub_cancel]
    intro i inside
    rw [start]
    refine refines'.read (by omega) ?_
    rw [fill_outside (by omega), fill_outside (by omega)]
    split
    · rw [fill_inside (by omega) (by omega), Nat.add_sub_cancel_left, fresh _ (by omega) (by omega)]
      rfl
    · rw [fill_outside (by omega), fresh _ (by omega) (by omega)]

/-- A header of eight-byte aligned thread-local storage. -/
def tlsHeader (size : Nat) : Phdr := ⟨ptTls, 4, 120, 0, 1, size, 8⟩

theorem aligned_tls_placed : ∃ s pml4 s' tp,
    elfSetupTls true s pml4 ((tlsHeader 8).data (oneByteImage 0)) 1 8 = some (s', tp) ∧
      TlsPlaced s' pml4 tp (oneByteImage 0) (tlsHeader 8) := by
  obtain ⟨⟨s, pml4⟩, created, ran⟩ := bind_eq_some_iff.mp
    (by decide +kernel : ((vmmCreateUserPml4 smallMachine 0x100000).bind fun c =>
      (elfSetupTls true c.1 c.2 ((tlsHeader 8).data (oneByteImage 0)) 1 8).map (·.2)) =
        some (tlsUserBase + 8))
  obtain ⟨⟨s', tp⟩, loaded, -⟩ := map_eq_some_iff.mp ran
  obtain ⟨root, rfl, -, refines, -⟩ := vmmCreateUserPml4_spec smallMachine_sound created
  exact ⟨s, _, s', tp, loaded, (tls_placed_iff refines ⟨by decide, by decide, by decide⟩ (by decide)
    ⟨3, by decide, rfl⟩ loaded).mpr rfl⟩

/-- Four bytes of storage leave the thread pointer at a multiple of 4. -/
theorem small_tls_misaligned : ∃ s pml4 s' tp,
    elfSetupTls true s pml4 ((tlsHeader 4).data (oneByteImage 0)) 1 4 = some (s', tp) ∧
      ¬ TlsPlaced s' pml4 tp (oneByteImage 0) (tlsHeader 4) := by
  obtain ⟨⟨s, pml4⟩, -, ran⟩ := bind_eq_some_iff.mp
    (by decide +kernel : ((vmmCreateUserPml4 smallMachine 0x100000).bind fun c =>
      (elfSetupTls true c.1 c.2 ((tlsHeader 4).data (oneByteImage 0)) 1 4).map (·.2)) =
        some (tlsUserBase + 4))
  obtain ⟨⟨s', tp⟩, loaded, rfl⟩ := map_eq_some_iff.mp ran
  exact ⟨s, pml4, s', _, loaded, fun placed => absurd placed.aligned (by decide)⟩

end Znu.Elf
