import Znu.Elf.Refine

/-! # What loading an image does to the address space

`Phdr.loadInto` says what one program header does to the address space and
`Phdr.Tame` for which headers that is right: those whose pages stay in the user
half and whose misplaced copies stay in their page. `loadHeaders_refines` connects
the two over all headers.
-/

namespace Znu.Elf

open Lib Mm Option List Phdr Bytes Space

variable {A : Space}

namespace Phdr

variable (p : Phdr) (image : Bytes)

/-- The bytes of the file from `p_offset` on. -/
def data : Nat → UInt8 := fun i => image (p.pOffset + i)

/-- The first address of the segment's pages, and their number. -/
def base : Nat := pageDown p.pVaddr
def pages : Nat := (p.pVaddr + p.pMemsz + 0xFFF) / 4096 - p.pVaddr / 4096

/-- The number of pages of the TLS block and the control block after it. -/
def tlsCount : Nat := (p.pMemsz + tcbSize + 0xFFF) / 4096

/-- The address of the thread control block. -/
def tcb : Nat := tlsUserBase + p.pMemsz

def loadInto (A : Space) : Space :=
  if p.pType = ptLoad then
    if p.pMemsz = 0 then A
    else (A.mapMissing p.base p.pages).fill (p.pVaddr + p.pVaddr % 4096) p.pFilesz (p.data image)
  else if p.pType = ptTls then
    (((A.mapFresh tlsUserBase p.tlsCount).fill tlsUserBase p.pFilesz (p.data image)).fill
      p.tcb 8 (digit p.tcb)).fill (p.tcb + 8) 8 (digit 0)
  else A

lemma loadInto_load {p : Phdr} (isLoad : p.pType = ptLoad) (used : p.pMemsz ≠ 0) :
    p.loadInto image A =
      (A.mapMissing p.base p.pages).fill (p.pVaddr + p.pVaddr % 4096) p.pFilesz (p.data image) := by
  rw [loadInto, if_pos isLoad, if_neg used]

lemma loadInto_tls {p : Phdr} (isTls : p.pType = ptTls) : p.loadInto image A =
    (((A.mapFresh tlsUserBase p.tlsCount).fill tlsUserBase p.pFilesz (p.data image)).fill
      p.tcb 8 (digit p.tcb)).fill (p.tcb + 8) 8 (digit 0) := by
  rw [loadInto, if_neg (by rw [isTls]; decide), if_pos isTls]

lemma loadInto_other {p : Phdr} (notLoad : p.pType = ptLoad → p.pMemsz = 0)
    (notTls : p.pType ≠ ptTls) : p.loadInto image A = A := by
  rw [loadInto, if_neg notTls]
  split
  next isLoad => rw [if_pos (notLoad isLoad)]
  · rfl

structure TameLoad : Prop where
  user : p.pVaddr + p.pMemsz ≤ userEnd
  fileUser : p.pVaddr + p.pFilesz ≤ userEnd
  place : p.pFilesz = 0 ∨ p.pVaddr % 4096 = 0 ∨ 2 * (p.pVaddr % 4096) + p.pFilesz ≤ 4096

/-- The block ends in the user half, and neither word of the control block
    straddles two pages. -/
structure TameTls : Prop where
  user : p.pMemsz + tcbSize ≤ 2 ^ 32
  fileUser : p.pFilesz ≤ 2 ^ 32
  words : p.pMemsz % 4096 ≤ 4080 ∨ p.pMemsz % 4096 = 4088

/-- The pages a `PT_GNU_RELRO` header visits are user pages. -/
def TameRelro : Prop :=
  pageUp ((p.pVaddr + p.pMemsz) % 2 ^ 64) ≤ max userEnd (pageDown p.pVaddr)

structure Tame : Prop where
  load : p.pType = ptLoad → p.pMemsz ≠ 0 → p.TameLoad
  tls : p.pType = ptTls → p.TameTls
  relro : p.pType = ptGnuRelro → p.TameRelro

/-- The file bytes go only into pages mapped for the header. -/
structure Contained : Prop where
  load : p.pType = ptLoad → p.pMemsz ≠ 0 → p.pVaddr + p.pFilesz ≤ p.base + 4096 * p.pages
  tls : p.pType = ptTls → p.pFilesz ≤ 4096 * p.tlsCount

end Phdr

/-! ## Flags -/

lemma elfFlagsToPte_low (nx : Bool) (pflags : Nat) : finalFlags nx (elfFlagsToPte nx pflags) < 4096 := by
  unfold finalFlags elfFlagsToPte
  cases nx <;> cases pfW pflags <;> cases pfX pflags <;> decide

lemma tlsFlags_low (nx : Bool) : finalFlags nx (tlsFlags nx) < 4096 := by
  cases nx <;> decide

lemma relroFlags_low (nx : Bool) : finalFlags nx (relroFlags nx) < 4096 := by
  cases nx <;> decide

/-! ## Steps -/

section

variable {own : Nat → Prop} {root : Nat} {s s' : Phys} {nx : Bool} {image : Bytes} {p : Phdr}

variable {a pml4 start stop : Nat} {r : Option Loaded}

lemma pageUp_user (user : a ≤ userEnd) : pageUp (a % 2 ^ 64) = (a + 0xFFF) / 4096 * 4096 := by
  simp only [userEnd] at user
  rw [pageUp, pageDown, Nat.mod_eq_of_lt (by omega : a < 2 ^ 64), Nat.mod_eq_of_lt (by omega)]

lemma userEnd_aligned (user : a ≤ userEnd) : (a + 0xFFF) / 4096 * 4096 ≤ userEnd := by
  simp only [userEnd] at user ⊢
  omega

lemma pages_cover (order : start ≤ stop) :
    pageDown start + 4096 * ((stop + 0xFFF) / 4096 - start / 4096) = (stop + 0xFFF) / 4096 * 4096 := by
  unfold pageDown
  omega

/-- The pages that `map_user_range` and `remap_user_range` visit. -/
lemma pageCount_user (user : stop ≤ userEnd) :
    pageCount (pageDown start) (pageUp stop) = (stop + 0xFFF) / 4096 - start / 4096 := by
  have up := pageUp_user user
  rw [Nat.mod_eq_of_lt (by simp only [userEnd] at user; omega)] at up
  rw [up, pageCount, pageDown]
  omega

lemma Phdr.cover_user (user : p.pVaddr + p.pMemsz ≤ userEnd) : p.base + 4096 * p.pages ≤ userEnd :=
  (pages_cover (Nat.le_add_right ..)).trans_le (userEnd_aligned user)

/-- The `PT_LOAD` case for a header in the user half. -/
lemma loadSegment_eq (user : p.pVaddr + p.pMemsz ≤ userEnd) (s : Phys) (pml4 : Nat) :
    loadSegment nx s pml4 image p =
      (mapPages nx pml4 (elfFlagsToPte nx p.pFlags) p.pages p.base s).map fun s =>
        hhdmCopyToUser s pml4 p.pVaddr (p.data image) p.pFilesz := by
  have base : pageDown (pageDown p.pVaddr) = p.base := by
    unfold base pageDown
    omega
  have pages : ((p.pVaddr + p.pMemsz + 0xFFF) / 4096 * 4096 + 0xFFF) / 4096 -
      pageDown p.pVaddr / 4096 = p.pages := by
    unfold pages pageDown
    omega
  have count : pageCount p.base (pageUp ((p.pVaddr + p.pMemsz + 0xFFF) / 4096 * 4096)) = p.pages := by
    rw [← base, pageCount_user (userEnd_aligned user), pages]
  simp only [loadSegment, mapUserRange, pageUp_user user, base, count, hhdmCopyToUser_if]
  rw [map_eq_bind]
  rfl

/-- One `PT_LOAD` segment. -/
lemma loadSegment_spec (refines : Refines own root s A) (tame : p.TameLoad)
    (loaded : loadSegment nx s (root * 4096) image p = some s') :
    Refines own root s' ((A.mapMissing p.base p.pages).fill (p.pVaddr + p.pVaddr % 4096) p.pFilesz
        (p.data image)) ∧
      (p.pVaddr + p.pFilesz ≤ p.base + 4096 * p.pages → s.Touches (Writable own root) s') := by
  rw [loadSegment_eq tame.user] at loaded
  obtain ⟨s₁, mapped, rfl⟩ := map_eq_some_iff.mp loaded
  obtain ⟨refines₁, touches₁⟩ := refines.mapPages_spec (Nat.mul_mod_left ..) (cover_user tame.user)
    (elfFlagsToPte_low nx p.pFlags) mapped
  have copy := refines₁.hhdmCopyToUser_spec p.pVaddr p.pFilesz (p.data image) tame.fileUser tame.place
  refine ⟨copy.refines, fun inside => touches₁.trans (copy.touches_own refines₁ ?_)⟩
  rintro w ⟨lower, upper⟩
  have fileUser := tame.fileUser
  refine ⟨by omega, ?_⟩
  rw [mapMissing_inside (by unfold base pageDown at *; omega)]
  exact ne_none_iff_isSome.mpr (by simp)

/-- `elf_setup_tls` for a header whose block is in the user half. -/
lemma elfSetupTls_eq (tame : p.TameTls) (s : Phys) (pml4 : Nat) :
    elfSetupTls nx s pml4 (p.data image) p.pFilesz p.pMemsz =
      (mapFreshPages nx pml4 (tlsFlags nx) p.tlsCount tlsUserBase s).map fun s =>
        (hhdmWrite64 (hhdmWrite64 (hhdmCopyToUser s pml4 tlsUserBase (p.data image) p.pFilesz) pml4
          p.tcb p.tcb) pml4 (p.tcb + 8) 0, p.tcb) := by
  have user := tame.user
  have count : tlsPages p.pMemsz / 4096 = p.tlsCount := by
    have small : p.pMemsz + tcbSize ≤ userEnd := by simp only [userEnd]; omega
    rw [tlsPages, pageUp_user small, Nat.mul_div_cancel _ (by decide), tlsCount]
  have tcb : (tlsUserBase + p.pMemsz) % 2 ^ 64 = p.tcb := by
    rw [tcb, tlsUserBase] at *
    omega
  have tcb' : (p.tcb + 8) % 2 ^ 64 = p.tcb + 8 := by
    rw [Phdr.tcb, tlsUserBase] at *
    omega
  simp only [elfSetupTls, count, tcb, tcb', hhdmCopyToUser_if]
  rw [map_eq_bind]
  rfl

/-- The block stays in the user half and the control block within it. -/
lemma Phdr.TameTls.block (tame : p.TameTls) : tlsUserBase + 4096 * p.tlsCount ≤ userEnd ∧
    p.tcb + 16 ≤ tlsUserBase + 4096 * p.tlsCount ∧ p.tcb % 4096 = p.pMemsz % 4096 := by
  have user := tame.user
  refine ⟨?_, ?_, ?_⟩
  · simp only [tlsUserBase, userEnd, tlsCount, tcbSize] at *
    omega
  · simp only [tcb, tlsCount, tcbSize]
    omega
  · rw [tcb, tlsUserBase]
    omega

/-- One `PT_TLS` header. -/
lemma elfSetupTls_spec (refines : Refines own root s A) (tame : p.TameTls) {tls : Nat}
    (loaded : elfSetupTls nx s (root * 4096) (p.data image) p.pFilesz p.pMemsz = some (s', tls)) :
    tls = p.tcb ∧
      Refines own root s' ((((A.mapFresh tlsUserBase p.tlsCount).fill tlsUserBase p.pFilesz
        (p.data image)).fill p.tcb 8 (digit p.tcb)).fill (p.tcb + 8) 8 (digit 0)) ∧
      (p.pFilesz ≤ 4096 * p.tlsCount → s.Touches (Writable own root) s') := by
  have fileUser := tame.fileUser
  have words := tame.words
  obtain ⟨blockUser, tcbUser, tcbOffset⟩ := tame.block
  rw [elfSetupTls_eq tame] at loaded
  obtain ⟨s₁, mapped, same⟩ := map_eq_some_iff.mp loaded
  cases same
  obtain ⟨refines₁, touches₁⟩ := refines.mapFreshPages_spec rfl blockUser (tlsFlags_low nx) mapped
  have copy := refines₁.hhdmCopyToUser_spec tlsUserBase p.pFilesz
    (p.data image) (by simp only [tlsUserBase, userEnd]; omega) (.inr (.inl rfl))
  have self := copy.refines.hhdmWrite64_spec p.tcb p.tcb (by omega) (by omega)
  have dtv := self.refines.hhdmWrite64_spec (p.tcb + 8) 0 (by omega) (by omega)
  have there : ∀ w, tlsUserBase ≤ w → w < tlsUserBase + 4096 * p.tlsCount →
      A.mapFresh tlsUserBase p.tlsCount w ≠ none := by
    intro w lower upper
    rw [mapFresh_inside ⟨lower, upper⟩]
    exact some_ne_none _
  have above : tlsUserBase ≤ p.tcb := Nat.le_add_right ..
  refine ⟨rfl, dtv.refines, fun inside => touches₁.trans ?_⟩
  refine (copy.touches_own refines₁ fun w range => ?_).trans
    ((self.touches_own copy.refines ?_).trans (dtv.touches_own self.refines ?_))
  · exact ⟨by omega, there w range.1 (by omega)⟩
  · rintro w rfl
    exact ⟨by omega, fill_ne_none (there _ above (by omega))⟩
  · rintro w rfl
    exact ⟨by omega, fill_ne_none (fill_ne_none (there _ (by omega) (by omega)))⟩

variable {ps : List Phdr} {l : Loaded}

/-- What holds of the headers one by one holds of all of them: `R` relates memory to an
    abstract state on which `f` says what a header does. -/
lemma loadHeaders_simulates {X : Type} {R : Phys → X → Prop} {f : X → Phdr → X}
    {x : X}
    (load : ∀ p ∈ ps, p.pType = ptLoad → p.pMemsz ≠ 0 → ∀ s s' x, R s x →
      loadSegment nx s pml4 image p = some s' → R s' (f x p))
    (tls : ∀ p ∈ ps, p.pType = ptTls → ∀ s s' x t, R s x →
      elfSetupTls nx s pml4 (p.data image) p.pFilesz p.pMemsz = some (s', t) → R s' (f x p) ∧ t ≠ 0)
    (other : ∀ p x, (p.pType = ptLoad → p.pMemsz = 0) → p.pType ≠ ptTls → f x p = x) (start : R s x)
    (loaded : loadHeaders nx pml4 image ps s l = some (s', r)) :
    r.isSome ∧ R s' (ps.foldl f x) := by
  induction ps generalizing s x l with
  | nil =>
    cases loaded
    exact ⟨rfl, start⟩
  | cons p ps ih =>
    rw [forall_mem_cons] at load tls
    have ih' : ∀ {s₁ x₁ l₁}, R s₁ x₁ → loadHeaders nx pml4 image ps s₁ l₁ = some (s', r) →
        r.isSome ∧ R s' (ps.foldl f x₁) :=
      fun start rest => ih load.2 tls.2 start rest
    rw [foldl_cons]
    unfold loadHeaders at loaded
    by_cases isLoad : p.pType = ptLoad
    · rw [if_pos isLoad] at loaded
      by_cases empty : p.pMemsz = 0
      · rw [if_pos empty] at loaded
        rw [other p x (fun _ => empty) (by rw [isLoad]; decide)]
        exact ih' start loaded
      rw [if_neg empty] at loaded
      obtain ⟨s₁, segment, rest⟩ := bind_eq_some_iff.mp loaded
      exact ih' (load.1 isLoad empty s s₁ x start segment) rest
    rw [if_neg isLoad] at loaded
    by_cases isTls : p.pType = ptTls
    · rw [if_pos isTls] at loaded
      simp only [bind_eq_bind, bind_eq_some_iff] at loaded
      obtain ⟨⟨s₁, t⟩, block, rest⟩ := loaded
      obtain ⟨next, nonzero⟩ := tls.1 isTls s s₁ x t start block
      rw [if_neg nonzero] at rest
      exact ih' next rest
    · rw [if_neg isTls] at loaded
      rw [other p x (fun load => absurd load isLoad) isTls]
      split at loaded <;> exact ih' start loaded

/-- All headers, one after the other. -/
def loadAll (image : Bytes) (ps : List Phdr) (A : Space) : Space :=
  ps.foldl (fun A p => p.loadInto image A) A

lemma loadHeaders_refines (refines : Refines own root s A) (tame : ∀ p ∈ ps, p.Tame)
    (loaded : loadHeaders nx (root * 4096) image ps s l = some (s', r)) :
    r.isSome ∧ Refines own root s' (loadAll image ps A) ∧
      ((∀ p ∈ ps, p.Contained) → s.Touches (Writable own root) s') := by
  refine loadHeaders_simulates (R := fun s₁ A₁ => Refines own root s₁ A₁ ∧
    ((∀ p ∈ ps, p.Contained) → s.Touches (Writable own root) s₁))
    (fun p listed isLoad used s₁ s₂ A₁ => ?_) (fun p listed isTls s₁ s₂ A₁ t => ?_)
    (fun p A₁ => loadInto_other image)
    ⟨refines, fun _ => .refl _ s⟩ loaded
  · rintro ⟨refines₁, touches₁⟩ segment
    obtain ⟨refines₂, touches₂⟩ := loadSegment_spec refines₁ ((tame p listed).load isLoad used) segment
    rw [loadInto_load image isLoad used]
    exact ⟨refines₂, fun contained =>
      (touches₁ contained).trans (touches₂ ((contained p listed).load isLoad used))⟩
  · rintro ⟨refines₁, touches₁⟩ block
    obtain ⟨isTcb, refines₂, touches₂⟩ := elfSetupTls_spec refines₁ ((tame p listed).tls isTls) block
    have nonzero : t ≠ 0 := by
      rw [isTcb, tcb, tlsUserBase]
      omega
    rw [loadInto_tls image isTls]
    exact ⟨⟨refines₂, fun contained =>
      (touches₁ contained).trans (touches₂ ((contained p listed).tls isTls))⟩, nonzero⟩

lemma relroHeaders_refines (refines : Refines own root s A) (tame : ∀ p ∈ ps, p.Tame)
    (remapped : relroHeaders nx (root * 4096) ps s = some s') :
    Refines own root s' A ∧ s.Touches (Writable own root) s' := by
  induction ps generalizing s with
  | nil =>
    obtain rfl := some.inj remapped
    exact ⟨refines, .refl _ s⟩
  | cons p ps ih =>
    obtain ⟨head, tail⟩ := forall_mem_cons.mp tame
    unfold relroHeaders at remapped
    split at remapped
    next isRelro =>
      obtain ⟨s₁, first, rest⟩ := bind_eq_some_iff.mp remapped
      have bound := head.relro isRelro
      obtain ⟨refines₁, touches₁⟩ : Refines own root s₁ A ∧ s.Touches (Writable own root) s₁ := by
        unfold Phdr.TameRelro at bound
        unfold remapUserRange pageCount at first
        by_cases none : (pageUp ((p.pVaddr + p.pMemsz) % 2 ^ 64) - pageDown p.pVaddr) / 4096 = 0
        · rw [none] at first
          cases first
          exact ⟨refines, .refl _ s⟩
        · exact refines.remapPages_spec (by omega) (relroFlags_low nx) first
      obtain ⟨refines₂, touches₂⟩ := ih refines₁ tail rest
      exact ⟨refines₂, touches₁.trans touches₂⟩
    · exact ih refines tail remapped

lemma elfLoadSegments_loaded
    (loaded : elfLoadSegments nx s pml4 image = some (s', some l)) :
    ∃ s₁ l₁, loadHeaders nx pml4 image (phdrs image) s .start = some (s₁, some l₁) ∧
      relroHeaders nx pml4 (phdrs image) s₁ = some s' ∧ l₁.finish = l := by
  unfold elfLoadSegments at loaded
  split at loaded
  · cases loaded
  obtain ⟨⟨s₁, r⟩, headers, rest⟩ := bind_eq_some_iff.mp loaded
  cases r with
  | none => cases rest
  | some l₁ =>
    obtain ⟨s₂, remapped, same⟩ := bind_eq_some_iff.mp rest
    cases same
    exact ⟨s₁, l₁, headers, remapped, rfl⟩

/-- The whole of `elf_load_segments`. -/
lemma elfLoadSegments_refines (refines : Refines own root s A) (tame : ∀ p ∈ phdrs image, p.Tame)
    (loaded : elfLoadSegments nx s (root * 4096) image = some (s', some l)) :
    Refines own root s' (loadAll image (phdrs image) A) ∧
      ((∀ p ∈ phdrs image, p.Contained) → s.Touches (Writable own root) s') := by
  obtain ⟨s₁, l₁, headers, remapped, -⟩ := elfLoadSegments_loaded loaded
  obtain ⟨-, refines₁, touches₁⟩ := loadHeaders_refines refines tame headers
  obtain ⟨refines₂, touches₂⟩ := relroHeaders_refines refines₁ tame remapped
  exact ⟨refines₂, fun contained => (touches₁ contained).trans touches₂⟩

end

end Znu.Elf
