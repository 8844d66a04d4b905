import Znu.Elf.Fresh

/-! # The contents of a loaded image

For which images every segment shows its file bytes followed by zeros. The
argument is on address spaces alone: a header that is done shows its bytes, one
that is still to come finds only zeros where it wants zeros, and each step keeps
both.
-/

namespace Znu.Elf

open Lib Mm List Option Space

variable {vaddr w : Nat}

variable {p : Phdr} {image : Bytes} {A : Space}

namespace Phdr

/-- The header makes pages and file bytes appear. -/
def IsSegment (p : Phdr) : Prop := p.pType = ptLoad ∧ p.pMemsz ≠ 0

/-- The file bytes of the segment and then zeros. -/
structure Shows (p : Phdr) (image : Bytes) (A : Space) : Prop where
  file : ∀ i < p.pFilesz, A (p.pVaddr + i) = some (image (p.pOffset + i))
  zero : ∀ i, p.pFilesz ≤ i → i < p.pMemsz → A (p.pVaddr + i) = some 0

/-- Nothing but zeros where the segment wants zeros. -/
def Awaits (p : Phdr) (A : Space) : Prop :=
  ∀ i, p.pFilesz ≤ i → i < p.pMemsz → A (p.pVaddr + i) = none ∨ A (p.pVaddr + i) = some 0

def Disjoint (p q : Phdr) : Prop :=
  p.IsSegment → q.IsSegment → p.pVaddr + p.pMemsz ≤ q.pVaddr ∨ q.pVaddr + q.pMemsz ≤ p.pVaddr

/-- For `p` before `q`: a TLS block does not take the place of a segment loaded
    before it, and does not write where a later segment wants zeros. -/
structure TlsApart (p q : Phdr) : Prop where
  replaces : p.IsSegment → q.pType = ptTls → p.pVaddr + p.pMemsz ≤ tlsUserBase ∨
    tlsUserBase + max (4096 * q.tlsCount) q.pFilesz ≤ p.pVaddr
  dirties : p.pType = ptTls → q.IsSegment → ∀ w, q.pVaddr + q.pFilesz ≤ w →
    w < q.pVaddr + q.pMemsz → ¬ (tlsUserBase ≤ w ∧ w < tlsUserBase + p.pFilesz) ∧
      ¬ (p.tcb ≤ w ∧ w < p.tcb + 16)

variable {q : Phdr}

section

variable (place : p.pFilesz = 0 ∨ p.pVaddr % 4096 = 0)

include place

lemma loadInto_aligned (segment : p.IsSegment) :
    p.loadInto image A = (A.mapMissing p.base p.pages).fill p.pVaddr p.pFilesz (p.data image) := by
  rw [loadInto_load image segment.1 segment.2]
  rcases place with empty | aligned
  · rw [empty, fill_zero, fill_zero]
  · rw [aligned, Nat.add_zero]

omit place in
lemma inPages (p : Phdr) {i : Nat} (inside : i < p.pMemsz) :
    p.base ≤ p.pVaddr + i ∧ p.pVaddr + i < p.base + 4096 * p.pages := by
  unfold base pages pageDown
  omega

/-- A segment shows its bytes once it is loaded. -/
lemma shows_self (segment : p.IsSegment)
    (fits : p.pFilesz ≤ p.pMemsz) (awaits : p.Awaits A) : p.Shows image (p.loadInto image A) := by
  rw [loadInto_aligned place segment]
  constructor
  · intro i inside
    rw [fill_inside (by omega) (by omega), mapMissing_inside (p.inPages (by omega)), Nat.add_sub_cancel_left]
    cases A (p.pVaddr + i) <;> rfl
  · intro i past inside
    rw [fill_outside (by omega), mapMissing_inside (p.inPages inside)]
    rcases awaits i past inside with missing | zero
    · rw [missing]
      rfl
    · rw [zero]
      rfl

/-- Loading a segment leaves the bytes outside it, and at most maps zeros. -/
lemma loadInto_segment (image : Bytes) (A : Space) (segment : p.IsSegment)
    (fits : p.pFilesz ≤ p.pMemsz)
    (outside : w < p.pVaddr ∨ p.pVaddr + p.pMemsz ≤ w) :
    p.loadInto image A w = A w ∨ A w = none ∧ p.loadInto image A w = some 0 := by
  rw [loadInto_aligned place segment, fill_outside (by omega)]
  unfold mapMissing
  split
  · cases byte : A w with
    | none => exact .inr ⟨rfl, rfl⟩
    | some b => exact .inl rfl
  · exact .inl rfl

end

/-- A TLS header leaves the bytes outside its block and its copy. -/
lemma loadInto_tls_outside (isTls : p.pType = ptTls)
    (outside : w < tlsUserBase ∨ tlsUserBase + max (4096 * p.tlsCount) p.pFilesz ≤ w) :
    p.loadInto image A w = A w := by
  have block : p.tcb + 16 ≤ tlsUserBase + 4096 * p.tlsCount := by
    unfold tcb tlsCount tcbSize
    omega
  have above : tlsUserBase ≤ p.tcb := Nat.le_add_right ..
  rw [loadInto_tls image isTls, fill_outside (by omega), fill_outside (by omega),
    fill_outside (by omega), mapFresh_outside (by omega)]

/-- Where a TLS header writes nothing there is a zero or what was there. -/
lemma loadInto_tls_clean (image : Bytes) (A : Space) (isTls : p.pType = ptTls)
    (file : ¬ (tlsUserBase ≤ w ∧ w < tlsUserBase + p.pFilesz))
    (control : ¬ (p.tcb ≤ w ∧ w < p.tcb + 16)) :
    p.loadInto image A w = some 0 ∨ p.loadInto image A w = A w := by
  rw [loadInto_tls image isTls, fill_outside (by omega), fill_outside (by omega), fill_outside file]
  unfold mapFresh
  split
  · exact .inl rfl
  · exact .inr rfl

/-- What a single header needs for its own bytes to be right. -/
structure Placed (p : Phdr) : Prop where
  fits : p.IsSegment → p.pFilesz ≤ p.pMemsz
  aligned : p.IsSegment → p.pFilesz = 0 ∨ p.pVaddr % 4096 = 0

lemma Shows.loadInto (shows : q.Shows image A) (segment : q.IsSegment) (placed : q.Placed)
    (next : p.Placed) (disjoint : q.Disjoint p) (apart : q.TlsApart p) :
    q.Shows image (p.loadInto image A) := by
  have fits := placed.fits segment
  have kept : ∀ i b, i < q.pMemsz → A (q.pVaddr + i) = some b →
      p.loadInto image A (q.pVaddr + i) = some b := by
    intro i b inside byte
    by_cases load : p.IsSegment
    · have away := disjoint segment load
      rcases loadInto_segment (next.aligned load) image A load (next.fits load)
        (show q.pVaddr + i < p.pVaddr ∨ p.pVaddr + p.pMemsz ≤ q.pVaddr + i by omega) with same | ⟨missing, -⟩
      · rw [same, byte]
      · rw [missing] at byte
        cases byte
    · by_cases isTls : p.pType = ptTls
      · have away := apart.replaces segment isTls
        rw [loadInto_tls_outside isTls (by omega), byte]
      · rw [loadInto_other image (fun isLoad => by_contra fun used => load ⟨isLoad, used⟩) isTls, byte]
  exact ⟨fun i inside => kept i _ (by omega) (shows.file i inside),
    fun i past inside => kept i _ inside (shows.zero i past inside)⟩

/-- A segment that is still to come keeps finding zeros. -/
lemma Awaits.loadInto (awaits : q.Awaits A) (segment : q.IsSegment) (first : p.Placed)
    (disjoint : p.Disjoint q) (apart : p.TlsApart q) : q.Awaits (p.loadInto image A) := by
  intro i past inside
  have before := awaits i past inside
  by_cases load : p.IsSegment
  · have away := disjoint load segment
    rcases loadInto_segment (first.aligned load) image A load (first.fits load)
      (show q.pVaddr + i < p.pVaddr ∨ p.pVaddr + p.pMemsz ≤ q.pVaddr + i by omega) with same | ⟨-, zero⟩
    · rwa [same]
    · exact .inr zero
  · by_cases isTls : p.pType = ptTls
    · obtain ⟨file, control⟩ := apart.dirties isTls segment (q.pVaddr + i) (by omega) (by omega)
      rcases loadInto_tls_clean image A isTls file control with zero | same
      · exact .inr zero
      · rwa [same]
    · rwa [loadInto_other image (fun isLoad => by_contra fun used => load ⟨isLoad, used⟩) isTls]

end Phdr

section

variable {ps : List Phdr}

lemma loadAll_keeps (shows : p.Shows image A) (segment : p.IsSegment) (placed : p.Placed)
    (rest : ∀ q ∈ ps, q.Placed ∧ p.Disjoint q ∧ p.TlsApart q) : p.Shows image (loadAll image ps A) := by
  induction ps generalizing A with
  | nil => exact shows
  | cons q ps ih =>
    obtain ⟨⟨next, disjoint, apart⟩, later⟩ := forall_mem_cons.mp rest
    exact ih (shows.loadInto segment placed next disjoint apart) later

/-- Every segment of the image shows its bytes in the end. -/
lemma loadAll_shows (placed : ∀ p ∈ ps, p.Placed)
    (apart : ps.Pairwise fun p q => p.Disjoint q ∧ p.TlsApart q)
    (awaits : ∀ p ∈ ps, p.IsSegment → p.Awaits A) :
    ∀ p ∈ ps, p.IsSegment → p.Shows image (loadAll image ps A) := by
  induction ps generalizing A with
  | nil => simp
  | cons q ps ih =>
    obtain ⟨head, tail⟩ := pairwise_cons.mp apart
    obtain ⟨first, others⟩ := forall_mem_cons.mp placed
    intro p listed segment
    rcases mem_cons.mp listed with rfl | later
    · have own : p.Shows image (p.loadInto image A) := Phdr.shows_self (first.aligned segment) segment (first.fits segment) (awaits p listed segment)
      change p.Shows image (loadAll image ps (p.loadInto image A))
      exact loadAll_keeps own segment first fun r inRest => ⟨others r inRest, head r inRest⟩
    refine ih others tail (fun r inRest isSegment => ?_) p later segment
    exact (awaits r (mem_cons_of_mem q inRest) isSegment).loadInto isSegment first
      (head r inRest).1 (head r inRest).2

end

/-- An executable whose segments could be loaded as they are. -/
structure WellFormed (image : Bytes) : Prop where
  valid : elfValidate image = true
  user : ∀ p ∈ phdrs image, p.pType = ptLoad → p.pVaddr + p.pMemsz ≤ userEnd
  fits : ∀ p ∈ phdrs image, p.pType = ptLoad → p.pFilesz ≤ p.pMemsz
  disjoint : (phdrs image).Pairwise Phdr.Disjoint

/-- The images on which the loader's defects do not show: segments with data start
    on a page boundary, and the other headers keep away from them. -/
structure Gentle (image : Bytes) : Prop where
  aligned : ∀ p ∈ phdrs image, p.IsSegment → p.pFilesz = 0 ∨ p.pVaddr % 4096 = 0
  tls : ∀ p ∈ phdrs image, p.pType = ptTls → p.TameTls
  apart : (phdrs image).Pairwise Phdr.TlsApart
  relro : ∀ p ∈ phdrs image, p.pType = ptGnuRelro → p.TameRelro

/-- The bytes of a segment after a successful load. -/
def SegmentLoaded (image : Bytes) (s : Phys) (pml4 : Nat) (p : Phdr) : Prop :=
  (∀ i < p.pFilesz, ReadsAs s pml4 (p.pVaddr + i) (image (p.pOffset + i))) ∧
    ∀ i, p.pFilesz ≤ i → i < p.pMemsz → ReadsAs s pml4 (p.pVaddr + i) 0

theorem loaded_contents {nx : Bool} {s₀ s s' : Phys} {kernelPml4 pml4 : Nat} {image : Bytes}
    {l : Loaded} (sound : s₀.Sound) (created : vmmCreateUserPml4 s₀ kernelPml4 = some (s, pml4))
    (formed : WellFormed image) (gentle : Gentle image)
    (loaded : elfLoadSegments nx s pml4 image = some (s', some l)) :
    ∀ p ∈ phdrs image, p.pType = ptLoad → SegmentLoaded image s' pml4 p := by
  obtain ⟨root, rfl, -, refines, -⟩ := vmmCreateUserPml4_spec sound created
  have tame : ∀ p ∈ phdrs image, p.Tame := by
    intro p listed
    refine ⟨fun isLoad used => ?_, gentle.tls p listed, gentle.relro p listed⟩
    have user := formed.user p listed isLoad
    have fits := formed.fits p listed isLoad
    exact ⟨user, by omega, (gentle.aligned p listed ⟨isLoad, used⟩).imp_right .inl⟩
  have placed : ∀ p ∈ phdrs image, p.Placed := fun p listed =>
    ⟨fun segment => formed.fits p listed segment.1, gentle.aligned p listed⟩
  obtain ⟨refines', -⟩ := elfLoadSegments_refines refines tame loaded
  have awaits : ∀ p ∈ phdrs image, p.IsSegment → p.Awaits .empty := fun p _ _ i _ _ => .inl rfl
  have shows : ∀ p ∈ phdrs image, p.IsSegment → p.Shows image (loadAll image (phdrs image) .empty) :=
    loadAll_shows placed (formed.disjoint.and gentle.apart) awaits
  intro p listed isLoad
  have user := formed.user p listed isLoad
  have fits := formed.fits p listed isLoad
  by_cases used : p.pMemsz = 0
  · exact ⟨fun i inside => by omega, fun i past inside => by omega⟩
  have bytes := shows p listed ⟨isLoad, used⟩
  exact ⟨fun i inside => refines'.read (by omega) (bytes.file i inside),
    fun i past inside => refines'.read (by omega) (bytes.zero i past inside)⟩

/-- An image with one segment of one byte, loaded at `0x400000 + offset`. -/
def oneByteImage (offset : UInt8) : Bytes
  | 0 => 0x7F | 1 => 0x45 | 2 => 0x4C | 3 => 0x46 | 4 => 2 | 5 => 1
  | 16 => 2 | 18 => 62 | 32 => 64 | 54 => 56 | 56 => 1
  | 64 => 1 | 68 => 6 | 72 => 120 | 80 => offset | 82 => 0x40 | 96 => 1 | 104 => 1 | 113 => 0x10
  | 120 => 0x41
  | _ => 0

def smallMachine : Phys where
  mem := fun _ => 0
  free := [1, 2, 3, 4, 5]
  writes := []

lemma smallMachine_sound : smallMachine.Sound := ⟨by decide, by decide⟩

/-- The program header of `oneByteImage`. -/
def oneByteHeader (vaddr : Nat) : Phdr := ⟨ptLoad, 6, 120, vaddr, 1, 1, 0x1000⟩

lemma smallMachine_loads (image : Bytes)
    (ran : ((vmmCreateUserPml4 smallMachine 0x100000).bind fun c =>
      (elfLoadSegments true c.1 c.2 image).map fun r => r.2.isSome) = some true) :
    ∃ s pml4 s' l, vmmCreateUserPml4 smallMachine 0x100000 = some (s, pml4) ∧
      elfLoadSegments true s pml4 image = some (s', some l) := by
  obtain ⟨⟨s, pml4⟩, created, rest⟩ := bind_eq_some_iff.mp ran
  obtain ⟨⟨s', r⟩, loaded, success⟩ := map_eq_some_iff.mp rest
  obtain ⟨l, rfl⟩ := isSome_iff_exists.mp success
  exact ⟨s, pml4, s', l, created, loaded⟩

lemma oneByteImage_wellFormed {offset : UInt8}
    (valid : elfValidate (oneByteImage offset) = true)
    (headers : phdrs (oneByteImage offset) = [oneByteHeader vaddr]) (user : vaddr < userEnd) :
    WellFormed (oneByteImage offset) where
  valid := valid
  user := by
    rw [headers]
    simpa [oneByteHeader] using user
  fits := by
    rw [headers]
    simp [oneByteHeader]
  disjoint := by
    exact pairwise_singleton ..

lemma oneByteHeader_tame (user : vaddr < userEnd) (early : vaddr % 4096 < 2048) :
    (oneByteHeader vaddr).Tame where
  load := by
    intro _ _
    refine ⟨user, user, .inr (.inr ?_)⟩
    change 2 * (vaddr % 4096) + 1 ≤ 4096
    omega
  tls := fun isTls => absurd isTls (by simp [oneByteHeader, ptLoad, ptTls])
  relro := fun isRelro => absurd isRelro (by simp [oneByteHeader, ptLoad, ptGnuRelro])

/-- The byte of a segment at `0x400010` ends up at `0x400020`. -/
theorem unaligned_segment_misplaced : ∃ s pml4 s' l,
    vmmCreateUserPml4 smallMachine 0x100000 = some (s, pml4) ∧ WellFormed (oneByteImage 0x10) ∧
    elfLoadSegments true s pml4 (oneByteImage 0x10) = some (s', some l) ∧
    oneByteHeader 0x400010 ∈ phdrs (oneByteImage 0x10) ∧
    ¬ SegmentLoaded (oneByteImage 0x10) s' pml4 (oneByteHeader 0x400010) := by
  have headers : phdrs (oneByteImage 0x10) = [oneByteHeader 0x400010] := by decide +kernel
  have user : 0x400010 < userEnd := by simp [userEnd]
  obtain ⟨s, pml4, s', l, created, loaded⟩ :=
    smallMachine_loads (oneByteImage 0x10) (by decide +kernel)
  refine ⟨s, pml4, s', l, created, oneByteImage_wellFormed (by decide +kernel) headers user,
    loaded, by simp [headers], ?_⟩
  obtain ⟨root, rfl, -, refines, -⟩ := vmmCreateUserPml4_spec smallMachine_sound created
  have tame : ∀ p ∈ phdrs (oneByteImage 0x10), p.Tame := by
    rw [headers]
    simpa using oneByteHeader_tame user (by decide)
  obtain ⟨refines', -⟩ := elfLoadSegments_refines refines tame loaded
  have byte : loadAll (oneByteImage 0x10) (phdrs (oneByteImage 0x10)) .empty 0x400010 = some 0 := by
    rw [headers, loadAll, foldl_cons, foldl_nil, Phdr.loadInto_load _ rfl (by decide),
      fill_outside (by decide), mapMissing_inside (by decide)]
    rfl
  intro shown
  have zero := (refines'.read user byte).2
  have data := (shown.1 0 (by decide)).2
  exact absurd (zero.symm.trans data) (by decide)

theorem aligned_segment_loaded : ∃ s pml4 s' l,
    vmmCreateUserPml4 smallMachine 0x100000 = some (s, pml4) ∧
    elfLoadSegments true s pml4 (oneByteImage 0) = some (s', some l) ∧
    SegmentLoaded (oneByteImage 0) s' pml4 (oneByteHeader 0x400000) := by
  have headers : phdrs (oneByteImage 0) = [oneByteHeader 0x400000] := by decide +kernel
  have user : 0x400000 < userEnd := by simp [userEnd]
  obtain ⟨s, pml4, s', l, created, loaded⟩ :=
    smallMachine_loads (oneByteImage 0) (by decide +kernel)
  have gentle : Gentle (oneByteImage 0) := by
    refine ⟨?_, ?_, ?_, ?_⟩ <;> rw [headers]
    · simp [oneByteHeader]
    · simp [oneByteHeader, ptLoad, ptTls]
    · exact pairwise_singleton ..
    · simp [oneByteHeader, ptLoad, ptGnuRelro]
  exact ⟨s, pml4, s', l, created, loaded, loaded_contents smallMachine_sound created
    (oneByteImage_wellFormed (by decide +kernel) headers user) gentle loaded _ (by simp [headers]) rfl⟩

end Znu.Elf
