import Znu.Elf.StackContents

/-! # Populating a process

`process_populate_from_elf` builds the address space of a process from an image.
It should write only frames it allocates itself. Every run that gets as far as the
stack copies the platform string past the end of a page, into the physically next
frame, and keeps its pointers in two arrays of the kernel heap meanwhile, so this is
certain only of images that are refused before. The arrays are not modelled.
-/

namespace Znu.Elf

open Lib Mm Option List Nat Bytes Phys

/-- What a successful call stores in the process. -/
structure Populated where
  entry : Nat
  stackTop : Nat
  brkStart : Nat
  tlsBase : Nat
  deriving Repr, DecidableEq

/-- The state after the call, the value of `proc->pml4` if it was set, and the
    fields set on success. -/
structure Outcome where
  mem : Phys
  pml4 : Option Nat
  populated : Option Populated

def processPopulateFromElf (nxSupported : Bool) (seed : Nat) (s : Phys) (kernelPml4 : Nat)
    (image : Bytes) (argv envp : List CString) : Option Outcome :=
  if !elfValidate image then some ⟨s, none, none⟩ else do
    let (s, pml4) ← vmmCreateUserPml4 s kernelPml4
    match ← elfLoadSegments nxSupported s pml4 image with
    | (s, none) => some ⟨s, some pml4, none⟩
    | (s, some l) =>
      let s ← allocUserStack nxSupported s pml4 l.stackExec
      let (s, rsp) := elfBuildStack s pml4 seed argv envp (ehdr image) l.loadBase argv.head?
      if rsp = 0 then some ⟨s, some pml4, none⟩ else
        some ⟨s, some pml4, some ⟨(ehdr image).eEntry, rsp, pageUp l.maxVaddr, l.tlsBase⟩⟩

/-! ## Copies that run into the next frame -/

variable {argv envp : List CString}

variable {root : Nat} {s s' : Phys} {nx : Bool}

section

variable {own : Nat → Prop} {A : Space}

variable {f low n v w : Nat}

section

variable (refines : Refines own root s A)

include refines

/-- A store that covers parts of two mapped pages whose frames are adjacent. -/
lemma storeSpill {u o : Nat} (src : Nat → UInt8)
    (userU : u < userEnd) (userV : v < userEnd) (here : s.page root u = some f)
    (next : s.page root v = some (f + 1)) (fits : o + n ≤ 8192) :
    ∃ B, Wrote own root s (s.store (f * 4096 + o) n src) B (fun w => w = u ∨ w = v) := by
  have pageFacts : ∀ x, f * 4096 + o ≤ x → x < f * 4096 + o + n →
      ∃ w, (w = u ∨ w = v) ∧ w < userEnd ∧ s.page root w = some (x / 4096) := by
    intro x lower upper
    rcases (by omega : x / 4096 = f ∨ x / 4096 = f + 1) with isU | isV
    · exact ⟨u, .inl rfl, userU, isU ▸ here⟩
    · exact ⟨v, .inr rfl, userV, isV ▸ next⟩
  obtain ⟨inv', pages⟩ := Refines.store_pages refines.inv (a := f * 4096 + o) (n := n) src
    fun x lower upper => by
      obtain ⟨w, -, user, there⟩ := pageFacts x lower upper
      exact refines.inv.page_not_table (userPath_path user) (by simp [path]) there
  refine ⟨(s.store (f * 4096 + o) n src).peek root, ⟨inv', fun _ _ => rfl⟩, pages, ?_⟩
  intro target inside
  refine s.store_touches src fun x lower upper => ?_
  obtain ⟨w, isPage, user, there⟩ := pageFacts x lower upper
  obtain ⟨g, found, member⟩ := inside w isPage
  cases there.symm.trans found
  exact ⟨member, (refines.inv.owned _ _ (userPath_path user) there).2⟩

/-- A copy that starts in a page whose frame is followed by the one of the page before. -/
lemma hhdmCopyToUser_spill {uva : Nat} (len : Nat)
    (src : Nat → UInt8) (user : uva + len ≤ userEnd) (more : 0 < len) (here : s.page root uva = some f)
    (next : s.page root (uva - 4096) = some (f + 1)) :
    ∃ B, Wrote own root s (hhdmCopyToUser s (root * 4096) uva src len) B
      (fun w => uva ≤ w + 4096 ∧ w < uva + len) := by
  obtain ⟨positive, atMost, inPage, noWrap⟩ := chunkLen_facts (pos_iff_ne_zero.mp more) user
  obtain ⟨B, first⟩ := storeSpill refines (o := uva % 4096 + uva % 4096) (n := chunkLen uva len) src
    (by omega) (by omega) here next (by omega)
  rw [hhdmCopyToUser, dif_neg (by omega)]
  simp only [noWrap, refines.inv.translate_mapped (by omega) here, add_assoc (f * 4096)]
  have rest := first.refines.hhdmCopyToUser_spec (uva + chunkLen uva len) (len - chunkLen uva len)
    (fun i => src (chunkLen uva len + i)) (by omega) (by unfold chunkLen; omega)
  exact ⟨_, (first.trans rest fun w range => by omega).widen fun w range => by omega⟩

/-- The stack pages whose frame is followed by the frame of the page before. -/
def Descending (root : Nat) (s : Phys) (low : Nat) : Prop :=
  ∀ w, low ≤ w → w < stackTop → ∃ f, s.page root w = some f ∧ s.page root (w - 4096) = some (f + 1)

omit refines in
lemma Descending.congr (descending : Descending root s low)
    (pages : ∀ w < userEnd, s'.page root w = s.page root w) : Descending root s' low := by
  intro w lower upper
  have top := stackTop_place.2.1
  rw [pages w (by omega), pages (w - 4096) (by omega)]
  exact descending w lower upper

/-- Each frame is followed by the one below it. -/
def Falling (frames : List Nat) : Prop := frames.IsChain fun f g => f = g + 1

omit refines in
lemma path_tail_eq (same : v / 2 ^ 21 = w / 2 ^ 21) : (path v).tail = (path w).tail := by
  simp only [path, tail_cons, cons.injEq, Fin.mk.injEq, and_true, pdIdx, pdpIdx, pml4Idx]
  omega

omit refines in
lemma page_congr (userV : v < userEnd) (userW : w < userEnd)
    (same : v / 4096 = w / 4096) : s.page root v = s.page root w := by
  rw [page, page, (path_eq_iff userV userW).mpr same]

/-- Pages mapped one after the other under an existing table get consecutive frames
    from a falling list. -/
lemma mapFreshPages_descending
    {flags previous page g : Nat} (adjacent : previous + 4096 = page) (aligned : page % 4096 = 0)
    (region : previous / 2 ^ 21 = (page + 4096 * n - 1) / 2 ^ 21)
    (user : page + 4096 * n ≤ userEnd) (low : finalFlags nx flags < 4096)
    (before : s.page root previous = some g) (falling : Falling (g :: s.free))
    (mapped : mapFreshPages nx (root * 4096) flags n page s = some s') :
    (∀ w < page, s'.page root w = s.page root w) ∧
      ∀ w, page ≤ w → w < page + 4096 * n →
        ∃ f, s'.page root w = some f ∧ s'.page root (w - 4096) = some (f + 1) := by
  induction n generalizing s A previous page g with
  | zero =>
    cases mapped
    exact ⟨fun _ _ => rfl, fun w lower upper => by omega⟩
  | succ n ih =>
    have userPage : page < userEnd := by omega
    obtain ⟨s₁, phys, s₂, allocated, entered, rest⟩ := mapFreshPages_succ userPage mapped
    obtain ⟨refines₂, -, f, free, settled, pages⟩ :=
      refines.mapFresh userPage allocated entered low
    have sameTable : page / 2 ^ 21 = previous / 2 ^ 21 := by
      have upper : page / 2 ^ 21 ≤ (page + 4096 * (n + 1) - 1) / 2 ^ 21 :=
        Nat.div_le_div_right (by omega)
      have lower : previous / 2 ^ 21 ≤ page / 2 ^ 21 := Nat.div_le_div_right (by omega)
      exact le_antisymm (region ▸ upper) lower
    have table : s.walk root (path page).tail ≠ none := by
      rw [path_tail_eq sameTable]
      intro missing
      have absent : s.walk root (path previous) = none :=
        Radix.node_below_none missing (tail_suffix _)
      rw [Phys.page, absent] at before
      cases before
    rw [free] at falling
    obtain ⟨rfl, falling'⟩ := isChain_cons_cons.mp falling
    have here : s₂.page root page = some f := by
      rw [pages page userPage, if_pos rfl]
    obtain ⟨next, isNext⟩ : ∃ next, page + 4096 = next := ⟨_, rfl⟩
    rw [isNext] at rest
    have whole : page + 4096 * (n + 1) = next + 4096 * n := by
      rw [← isNext]
      ring
    rw [whole] at region user
    obtain ⟨kept, follow⟩ := ih refines₂ isNext (by omega) (sameTable.trans region) user here
      (by rw [settled table]; exact falling') rest
    have others : ∀ w < page, s'.page root w = s.page root w := by
      intro w lower
      rw [kept w (by omega), pages w (by omega), if_neg (by omega)]
    refine ⟨others, fun w lower upper => ?_⟩
    by_cases later : next ≤ w
    · exact follow w later (by omega)
    have samePage : w / 4096 = page / 4096 := by omega
    obtain ⟨u, isU⟩ : ∃ u, w - 4096 = u := ⟨_, rfl⟩
    have sameBefore : u / 4096 = previous / 4096 := by omega
    refine ⟨f, ?_, ?_⟩
    · rw [kept w (by omega), page_congr (by omega) userPage samePage]
      exact here
    · rw [isU, others u (by omega), page_congr (by omega) (by omega) sameBefore]
      exact before

/-- The stack pages from the third on have consecutive frames. -/
lemma allocUserStack_descending {stackExec : Bool}
    (falling : Falling s.free)
    (allocated : allocUserStack nx s (root * 4096) stackExec = some s') :
    Descending root s' (userStackBase + 8192) := by
  have low := stackFlags_low nx stackExec
  have top : userStackBase + 65536 = stackTop := stackTop_place.2.2.1
  obtain ⟨p₁, isP₁⟩ : ∃ p₁, p₁ = userStackBase + 4096 := ⟨_, rfl⟩
  obtain ⟨p₂, isP₂⟩ : ∃ p₂, p₂ = userStackBase + 8192 := ⟨_, rfl⟩
  have user : p₂ + 4096 * 14 ≤ userEnd := by
    rw [isP₂]
    unfold userStackBase userEnd
    decide
  have sameTable : userStackBase / 2 ^ 21 = p₁ / 2 ^ 21 ∧
      p₁ / 2 ^ 21 = (p₂ + 4096 * 14 - 1) / 2 ^ 21 ∧ p₂ % 4096 = 0 ∧
      (userStackBase + 4096) % 2 ^ 64 = p₁ ∧ (p₁ + 4096) % 2 ^ 64 = p₂ := by
    rw [isP₁, isP₂]
    unfold userStackBase
    decide
  obtain ⟨region₀, region₁, aligned, next₁, next₂⟩ := sameTable
  rw [allocUserStack, show stackPages = 14 + 1 + 1 from rfl, mapFreshPages, next₁] at allocated
  simp only [bind_eq_bind, bind_eq_some_iff] at allocated
  obtain ⟨⟨s₁, phys⟩, taken, s₂, entered, rest⟩ := allocated
  obtain ⟨refines₂, touches, f₀, -, -, pages⟩ := refines.mapFresh (by omega) taken entered low
  rw [mapFreshPages, next₂] at rest
  simp only [bind_eq_bind, bind_eq_some_iff] at rest
  obtain ⟨⟨s₃, phys₁⟩, taken₁, s₄, entered₁, rest⟩ := rest
  obtain ⟨refines₄, -, f₁, free, settled, pages₁⟩ := refines₂.mapFresh (by omega) taken₁ entered₁ low
  have table : s₂.walk root (path p₁).tail ≠ none := by
    rw [← path_tail_eq region₀]
    intro missing
    have absent : s₂.walk root (path userStackBase) = none :=
      Radix.node_below_none missing (tail_suffix _)
    have here := pages userStackBase (by omega)
    rw [if_pos rfl, page, absent] at here
    cases here
  have falling₄ : Falling (f₁ :: s₄.free) := by
    rw [settled table, ← free]
    exact falling.suffix touches.taken
  have here : s₄.page root p₁ = some f₁ := by rw [pages₁ p₁ (by omega), if_pos rfl]
  obtain ⟨-, follow⟩ := mapFreshPages_descending refines₄ (by omega) aligned region₁ user low here
    falling₄ rest
  intro w lower upper
  exact follow w (by omega) (by omega)

/-- The strings keep clear of the two lowest pages of the stack, and everything fits. -/
structure Roomy (argv envp : List CString) (execfn : Option CString) : Prop where
  strings : stringsSize envp + stringsSize argv + stringsSize execfn.toList + 8 ≤ 14 * 4096
  fits : stackUse argv envp execfn ≤ stackPages * 4096

lemma elfBuildStack_spill
    (mapped : ∀ w, userStackBase ≤ w → w < stackTop → ∃ f, s.page root w = some f)
    (descending : Descending root s (userStackBase + 8192)) (seed : Nat)
    (h : Ehdr) (loadBase : Nat) {execfn : Option CString} (roomy : Roomy argv envp execfn) :
    ∃ B, Wrote own root s (elfBuildStack s (root * 4096) seed argv envp h loadBase execfn).1 B
      (fun w => userStackBase ≤ w ∧ w < stackTop) := by
  have top := stackTop_place
  have strings := roomy.strings
  obtain ⟨s₂, ⟨A₂, first⟩, -, -, -, -, -, B, last, -⟩ := elfBuildStack_spec rfl
    (Q := fun s' => ∃ B, Wrote own root s s' B fun w => userStackBase ≤ w ∧ w < stackTop)
    (fun s₁ uva src len wrote more lower upper => by
      obtain ⟨B, wrote⟩ := wrote
      unfold platformPlace at lower
      obtain ⟨f, here, next⟩ := descending.congr wrote.pages uva (by omega) (by omega)
      obtain ⟨C, last⟩ := hhdmCopyToUser_spill wrote.refines len src (by omega) more here next
      exact ⟨C, (wrote.trans last fun w range => by omega).widen fun w range => by omega⟩)
    (fun s₁ wrote => by
      obtain ⟨B, wrote⟩ := wrote
      refine ⟨B, wrote.refines, fun w lower upper => ?_⟩
      have there := mapped w lower upper
      rw [← wrote.pages w (by omega), wrote.refines.mapped_iff (by omega)] at there
      exact isSome_iff_ne_none.mp there)
    ⟨A, refines, fun _ _ => rfl, fun _ _ => .refl _ s⟩ roomy.fits Prod.mk.eta.symm
  exact ⟨B, (first.trans last fun w range => by omega).widen fun w range => by omega⟩

end

end

/-! ## The kernel half -/

/-- The frames of the tables that the translation of an address reads after the root. -/
def tablesBelow (m : Bytes) (pml4e virt : Nat) : List Nat :=
  if !present pml4e then [] else
  let pdpte := m.word (pageDown pml4e + 8 * pdpIdx virt) 8
  pml4e / 4096 :: if !present pdpte || huge pdpte then [] else
  let pde := m.word (pageDown pdpte + 8 * pdIdx virt) 8
  pdpte / 4096 :: if !present pde || huge pde then [] else [pde / 4096]

variable {e kernelPml4 virt : Nat} {image m m' : Bytes}

lemma entry_congr (same : ∀ x, x / 4096 = e / 4096 → m' x = m x)
    (idx : Nat) (inside : idx < 512) :
    m'.word (pageDown e + 8 * idx) 8 = m.word (pageDown e + 8 * idx) 8 :=
  word_congr fun x lower upper => same x (by unfold pageDown at *; omega)

lemma vmmVirtToPhys_congr {table table' : Nat}
    (entry : m'.word (table' + 8 * pml4Idx virt) 8 = m.word (table + 8 * pml4Idx virt) 8)
    (same : ∀ f ∈ tablesBelow m (m.word (table + 8 * pml4Idx virt) 8) virt, ∀ x, x / 4096 = f → m' x = m x) :
    vmmVirtToPhys m' table' virt = vmmVirtToPhys m table virt := by
  unfold tablesBelow at same
  unfold vmmVirtToPhys
  simp only [entry]
  generalize m.word (table + 8 * pml4Idx virt) 8 = pml4e at same ⊢
  split
  · rfl
  rename_i there
  rw [if_neg there] at same
  simp only [entry_congr (same _ (mem_cons_self ..)) (pdpIdx virt) (mod_lt _ (by decide))]
  generalize isPdpte : m.word (pageDown pml4e + 8 * pdpIdx virt) 8 = pdpte
  simp only [isPdpte] at same ⊢
  split
  · rfl
  rename_i there₁
  split
  · rfl
  rename_i small₁
  rw [if_neg (by simp [there₁, small₁])] at same
  simp only [entry_congr (same (pdpte / 4096) (by simp)) (pdIdx virt) (mod_lt _ (by decide))]
  generalize isPde : m.word (pageDown pdpte + 8 * pdIdx virt) 8 = pde
  simp only [isPde] at same ⊢
  split
  · rfl
  rename_i there₂
  split
  · rfl
  next small₂ =>
    rw [if_neg (by simp [there₂, small₂])] at same
    rw [entry_congr (same (pde / 4096) (by simp)) (ptIdx virt) (mod_lt _ (by decide))]

/-- The kernel's tables are in use. -/
structure KernelTables (s : Phys) (kernelPml4 : Nat) : Prop where
  root : ∀ x, kernelPml4 ≤ x → x < kernelPml4 + 4096 → x / 4096 ∉ s.free
  below : ∀ virt, 256 ≤ pml4Idx virt →
    ∀ f ∈ tablesBelow s.mem (s.mem.word (kernelPml4 + 8 * pml4Idx virt) 8) virt, f ∉ s.free

lemma KernelTables.translate (tables : KernelTables s kernelPml4) {pml4 : Nat}
    (same : ∀ x, x / 4096 ∉ s.free → s'.mem x = s.mem x) (upper : 256 ≤ pml4Idx virt)
    (entry : s'.mem.word (pml4 + 8 * pml4Idx virt) 8 = s.mem.word (kernelPml4 + 8 * pml4Idx virt) 8) :
    vmmVirtToPhys s'.mem pml4 virt = vmmVirtToPhys s.mem kernelPml4 virt := by
  refine vmmVirtToPhys_congr entry fun f listed x inFrame => same x ?_
  rw [inFrame]
  exact tables.below virt upper f listed

section

variable {s₁ : Phys}

end

/-- Images and machines on which no write goes astray: the headers stay within the
    user half and their own pages, and what a copied string spills over goes to
    another page of the stack. -/
structure Orderly (s : Phys) (image : Bytes) (argv envp : List CString) : Prop where
  tame : ∀ p ∈ phdrs image, p.Tame
  contained : ∀ p ∈ phdrs image, p.Contained
  falling : Falling s.free
  roomy : Roomy argv envp argv.head?

lemma elfLoadSegments_some {own : Nat → Prop} {A : Space}
    (refines : Refines own root s A) (tame : ∀ p ∈ phdrs image, p.Tame)
    {r : Option Loaded} (loaded : elfLoadSegments nx s (root * 4096) image = some (s', r))
    (noInterp : ((phdrs image).any (·.pType == ptInterp)) = false) : r ≠ none := by
  rintro rfl
  rw [elfLoadSegments, if_neg (by simp [noInterp])] at loaded
  obtain ⟨⟨s₁, r⟩, headers, rest⟩ := bind_eq_some_iff.mp loaded
  obtain ⟨isSome, -⟩ := loadHeaders_refines refines tame headers
  obtain ⟨l, rfl⟩ := isSome_iff_exists.mp isSome
  obtain ⟨s₂, -, same⟩ := bind_eq_some_iff.mp rest
  cases same

/-- A valid image that keeps to its place makes a tree in frames that were free. -/
lemma processPopulateFromElf_tree {seed : Nat}
    {out : Outcome} (sound : s.Sound)
    (orderly : Orderly s image argv envp) (valid : elfValidate image = true)
    (ran : processPopulateFromElf nx seed s kernelPml4 image argv envp = some out) :
    ∃ root s₁, out.pml4 = some (root * 4096) ∧
      vmmCreateUserPml4 s kernelPml4 = some (s₁, root * 4096) ∧
      s.Touches (fun x => x / 4096 ∈ s.free) s₁ ∧
      s₁.Touches (Writable (· ∈ s.free) root) out.mem ∧ UserTree (· ∈ s.free) root out.mem := by
  unfold processPopulateFromElf at ran
  rw [if_neg (by simp [valid])] at ran
  simp only [bind_eq_bind, bind_eq_some_iff] at ran
  obtain ⟨⟨s₁, pml4⟩, created, ⟨s₂, r⟩, loaded, rest⟩ := ran
  obtain ⟨root, rfl, -, refines, first⟩ := vmmCreateUserPml4_spec sound created
  cases hasInterp : (phdrs image).any (·.pType == ptInterp) with
  | true =>
    rw [elfLoadSegments, if_pos hasInterp] at loaded
    cases loaded
    cases rest
    exact ⟨root, s₁, rfl, created, first, .refl _ s₁, refines.inv⟩
  | false =>
    have complete := elfLoadSegments_some refines orderly.tame loaded hasInterp
    obtain ⟨l, rfl⟩ := ne_none_iff_exists'.mp complete
    obtain ⟨refines₂, touches⟩ := elfLoadSegments_refines refines orderly.tame loaded
    replace touches := touches orderly.contained
    obtain ⟨s₃, allocated, final⟩ := bind_eq_some_iff.mp rest
    obtain ⟨refines₃, touches₃⟩ := allocUserStack_spec refines₂ allocated
    have falling : Falling s₂.free := orderly.falling.suffix (touches.taken.trans first.taken)
    have descending := allocUserStack_descending refines₂ falling allocated
    have mapped : ∀ w, userStackBase ≤ w → w < stackTop → ∃ f, s₃.page root w = some f := by
      intro w lower upper
      have top := stackTop_place
      rw [refines₃.mapped_iff (by omega), Space.mapFresh_inside (by unfold stackPages; omega)]
      rfl
    obtain ⟨B, wrote⟩ := elfBuildStack_spill refines₃ mapped descending seed (ehdr image)
      l.loadBase orderly.roomy
    have touches₄ := wrote.touches_own refines₃ fun w range => by
      have top := stackTop_place
      have user : w < userEnd := by omega
      exact ⟨user, isSome_iff_ne_none.mp ((refines₃.mapped_iff user).mp (mapped w range.1 range.2))⟩
    have all := (touches.trans touches₃).trans touches₄
    split at final
    · cases final
      exact ⟨root, s₁, rfl, created, first, all, wrote.refines.inv⟩
    cases final
    exact ⟨root, s₁, rfl, created, first, all, wrote.refines.inv⟩

/-- An image whose only program header is `PT_INTERP`. -/
def interpImage : Bytes
  | 64 => 3
  | x => oneByteImage 0 x

end Znu.Elf
