import Znu.Mm.Clone
import Znu.Mm.PageMap
import Znu.Mm.Slab

/-! # The frames behind the kernel heap

`heap_extend` maps every new page of the heap in the kernel's PML4 only. The heap starts
at the bottom of one entry of the PML4, so as long as it stays inside, all its tables
hang below that entry, and whoever has a copy of the entry has the whole heap. `Mapped`
says where the pages of the heap are and which other frames the tables keep clear of.
-/

namespace Znu.Mm

open Lib Lib.Radix List Phys Option Tables Tables Bytes

/-- The entry of the PML4 that the heap starts in. -/
def heapSlot : Fin 512 → Prop := fun i => i.val = 288

def Phys.heapEntry (s : Phys) (root : Nat) : Nat := s.read64 (root * 4096 + 8 * 288)

/-- The page tables' part of `heap_extend`: the frames are those of the new pages. -/
def mapHeap (nx : Bool) (kernel : Nat) : Nat → Nat → Phys → Option (Phys × List Nat)
  | 0, _, s => some (s, [])
  | pages + 1, top, s =>
    match s.pallocZero with
    | none => none
    | some (s, phys) =>
      match mapPage nx s (kernel * 4096) top phys pteWritable with
      | none => none
      | some s =>
        (mapHeap nx kernel pages ((top + 4096) % 2 ^ 64) s).map fun (s, frames) =>
          (s, phys / 4096 :: frames)

/-- What was written at virtual addresses, from `virt` on, in the frames mapped there. -/
def writeBack (m : Bytes) : Nat → List Nat → Phys → Phys
  | _, [], s => s
  | virt, f :: frames, s =>
    writeBack m (virt + 4096) frames (s.store (f * 4096) 4096 fun o => m (virt + o))

/-- The pages of the heap are mapped, and neither they nor the given PML4s are free or
    tables of the heap. -/
structure Mapped (nx : Bool) (kernel : Nat) (s : Phys) (pages users : List Nat) : Prop where
  tables : Tables heapSlot kernel s
  positive : ∀ f ∈ s.free, 0 < f
  small : ∀ q, EntryPath heapSlot q → q.length < 4 → s.leaf kernel q = none
  page : ∀ i f, pages[i]? = some f →
    s.leaf kernel (path (heapStart + 4096 * i)) = some (pageEntry nx (f * 4096) pteWritable)
  inside : pages.length ≤ 2 ^ 27
  real : ∀ f ∈ pages, 0 < f
  once : pages.Nodup
  used : ∀ f, f ∈ pages ∨ f ∈ users → f ∉ s.free ∧ ¬ Tables.Holds heapSlot kernel s f
  apart : ∀ f ∈ pages, f ∉ users

/-! ## Addresses -/

variable {e flags u v virt : Nat} {q : List (Fin 512)}

lemma entryPath_heap (lower : heapStart ≤ v) (upper : v < heapStart + 2 ^ 39) :
    EntryPath heapSlot (path v) := by
  have slot : pml4Idx v = 288 := by
    simp only [pml4Idx, heapStart] at *
    omega
  refine ⟨by simp [path], by simp [path], ?_⟩
  rintro i ⟨⟩
  exact slot

lemma heapPath_eq_iff {w : Nat} (lower : heapStart ≤ v) (upper : v < heapStart + 2 ^ 39)
    (lower' : heapStart ≤ w) (upper' : w < heapStart + 2 ^ 39) : path v = path w ↔ v / 4096 = w / 4096 := by
  rw [path_eq_iff_number]
  simp only [pageNumber, heapStart] at *
  omega

lemma writable_low (nx : Bool) : finalFlags nx pteWritable < 4096 := by
  cases nx <;> decide

/-! ## Growing -/

section

variable {nx : Bool} {kernel : Nat} {pages users : List Nat} {s s' : Phys}

/-- `s'` shows the old entry for the heap wherever `s` did. -/
structure KeepsEntry (kernel : Nat) (users : List Nat) (s s' : Phys) : Prop where
  users : ∀ u ∈ users, ∀ x, x / 4096 = u → s'.mem x = s.mem x
  kernel : present (s.heapEntry kernel) = true → s'.heapEntry kernel = s.heapEntry kernel
  taken : s'.free <:+ s.free

lemma KeepsEntry.refl (kernel : Nat) (users : List Nat) (s : Phys) : KeepsEntry kernel users s s :=
  ⟨fun _ _ _ _ => rfl, fun _ => rfl, suffix_rfl⟩

lemma KeepsEntry.trans {s'' : Phys} (first : KeepsEntry kernel users s s') (second : KeepsEntry kernel users s' s'') :
    KeepsEntry kernel users s s'' where
  users u listed x inside := (second.users u listed x inside).trans (first.users u listed x inside)
  kernel there := by
    have kept := first.kernel there
    rw [second.kernel (by rwa [kept]), kept]
  taken := second.taken.trans first.taken

lemma heapEntry_live (i : Fin 512) (isSlot : heapSlot i) :
    s.live kernel [i] = some e ↔ present (s.heapEntry kernel) = true ∧ s.heapEntry kernel = e := by
  have entry : s.entry kernel i = s.heapEntry kernel := by
    rw [entry, heapEntry, isSlot]
  rw [live_cons (t := kernel) rfl, entry, filter_some]
  split
  next there => simp [there]
  next absent => simp [absent]

/-- What mapping the new frame `f` at an address of the heap does. -/
structure Adds (nx : Bool) (kernel : Nat) (s s' : Phys) (virt f : Nat) : Prop where
  tables : Tables heapSlot kernel s'
  leaf : ∀ q, EntryPath heapSlot q → s'.leaf kernel q =
    if q = path virt then some (pageEntry nx (f * 4096) pteWritable) else s.leaf kernel q
  listed : f ∈ s.free
  fresh : f ∉ s'.free ∧ ¬ Tables.Holds heapSlot kernel s' f
  others : ∀ g, g ∉ s.free → ¬ Tables.Holds heapSlot kernel s g →
    (g ∉ s'.free ∧ ¬ Tables.Holds heapSlot kernel s' g) ∧ ∀ x, x / 4096 = g → s'.mem x = s.mem x
  kept : present (s.heapEntry kernel) = true → s'.heapEntry kernel = s.heapEntry kernel
  there : present (s'.heapEntry kernel) = true
  taken : s'.free <:+ s.free

lemma mapPage_adds (tables : Tables heapSlot kernel s)
    (large : ∀ q, EntryPath heapSlot q → q.length < 4 → s.leaf kernel q = none) {a : Nat}
    (chosen : EntryPath heapSlot (path virt)) {s₁ : Phys} (allocated : s.pallocZero = some (s₁, a))
    (mapped : mapPage nx s₁ (kernel * 4096) virt a pteWritable = some s') :
    ∃ f, a = f * 4096 ∧ Adds nx kernel s s' virt f := by
  obtain ⟨f, rfl, free, unused, valid, tables₁, same, lives, notTable, -, touches⟩ :=
    tables.palloc allocated
  have listed : f ∈ s.free := by simp [free]
  have leaves : ∀ q, EntryPath heapSlot q → s₁.leaf kernel q = s.leaf kernel q := fun q at_q => by
    rw [leaf, leaf, lives q at_q]
  have small : s₁.Small kernel virt :=
    small_of_short chosen fun q at_q short => (leaves q at_q).trans (large q at_q short)
  have fits : pageEntry nx (f * 4096) pteWritable < 2 ^ 64 := pageEntry_lt (writable_low nx) (by omega)
  have maps := tables₁.mapPage_spec chosen small fits mapped
  have taken := maps.touches.taken.trans touches.taken
  have holds : ∀ g, Holds heapSlot kernel s' g → Holds heapSlot kernel s₁ g ∨ g ∈ s₁.free := by
    rintro g ⟨q, at_q, found⟩
    exact (maps.born q g at_q found).imp (fun old => ⟨q, at_q, old⟩) id
  have others : ∀ g, g ∉ s.free → ¬ Holds heapSlot kernel s g → ¬ Holds heapSlot kernel s' g := by
    intro g busy plain held
    rcases holds g held with ⟨q, at_q, found⟩ | fresh
    · exact plain ⟨q, at_q, (same q at_q).symm.trans found⟩
    · exact busy (touches.taken.subset fresh)
  have slot : heapSlot ⟨pml4Idx virt, Nat.mod_lt _ (by decide)⟩ := chosen.2.2 _ rfl
  have top : EntryPath heapSlot [⟨pml4Idx virt, Nat.mod_lt _ (by decide)⟩] :=
    entryPath_suffix chosen ⟨[_, _, _], rfl⟩ (by simp)
  refine ⟨f, rfl, maps.inv, fun q at_q => ?_, listed, ⟨?_, ?_⟩, fun g busy plain => ⟨⟨?_, others g busy plain⟩,
    fun x at_g => ?_⟩, fun there => ?_, ?_, taken⟩
  · rw [maps.leaf q at_q, leaves q at_q]
  · exact fun free' => unused (maps.touches.taken.subset free')
  · intro held
    rcases holds f held with ⟨q, at_q, found⟩ | fresh
    · exact notTable q at_q found
    · exact unused fresh
  · exact fun free' => busy (taken.subset free')
  · rw [maps.touches.mem x fun written => ?_, touches.mem x fun written => ?_]
    · exact busy (by rw [← at_g, written.1]; exact listed)
    · obtain ⟨r, above, found⟩ := written.1
      have at_r := tablePath_suffix (tablePath_of_cons _ _ chosen) above
      exact others g busy plain ⟨r, at_r, at_g ▸ found⟩
  · have before := (heapEntry_live _ slot).mpr ⟨there, rfl⟩
    have after := maps.plain (by decide) _ top (by simp) _ ((lives _ top).trans before)
    exact ((heapEntry_live _ slot).mp after).2
  cases above : s'.live kernel [⟨pml4Idx virt, Nat.mod_lt _ (by decide)⟩] with
  | some e => exact ((heapEntry_live _ slot).mp above).1
  | none =>
    have absent : s'.live kernel (path virt) = none :=
      live_below_none above ⟨[_, _, _], rfl⟩
    have leaf := maps.leaf _ chosen
    rw [if_pos rfl, Phys.leaf, absent] at leaf
    cases leaf

variable {f i n o top : Nat} {frames : List Nat}

section

variable (inv : Mapped nx kernel s pages users)

include inv

lemma Mapped.step (room : pages.length < 2 ^ 27)
    (adds : Adds nx kernel s s' (heapStart + 4096 * pages.length) f) :
    Mapped nx kernel s' (pages ++ [f]) users ∧ KeepsEntry kernel users s s' := by
  have inside : ∀ i ≤ pages.length, heapStart ≤ heapStart + 4096 * i ∧
      heapStart + 4096 * i < heapStart + 2 ^ 39 := fun i below => by omega
  have listed := adds.listed
  refine ⟨⟨adds.tables, fun g free => ?_, fun q at_q short => ?_, fun i g at_i => ?_, ?_,
    fun g member => ?_, ?_, fun g member => ?_, fun g member => ?_⟩, fun u user => ?_, adds.kept, adds.taken⟩
  · exact inv.positive g (adds.taken.subset free)
  · rw [adds.leaf q at_q, if_neg, inv.small q at_q short]
    rintro rfl
    simp [path] at short
  · have bound : i < (pages ++ [f]).length := (List.getElem?_eq_some_iff.mp at_i).1
    rw [length_append, length_singleton] at bound
    have here := inside i (by omega)
    have last := inside pages.length le_rfl
    rw [adds.leaf _ (entryPath_heap here.1 here.2)]
    by_cases isLast : i = pages.length
    · subst isLast
      rw [getElem?_concat_length, some.injEq] at at_i
      rw [if_pos rfl, at_i]
    have other := mt (heapPath_eq_iff here.1 here.2 last.1 last.2).mp (by rw [heapStart]; omega)
    rw [if_neg other]
    rw [getElem?_append_left (by omega)] at at_i
    exact inv.page i g at_i
  · rw [length_append, length_singleton]
    exact room
  · rcases mem_append.mp member with old | new
    · exact inv.real g old
    · rw [mem_singleton.mp new]
      exact inv.positive f listed
  · refine nodup_append.mpr ⟨inv.once, nodup_singleton f, fun g old g' new same => ?_⟩
    rw [same, mem_singleton.mp new] at old
    exact (inv.used f (.inl old)).1 listed
  · rcases member with page | user
    · rcases mem_append.mp page with old | new
      · exact (adds.others g (inv.used g (.inl old)).1 (inv.used g (.inl old)).2).1
      · rw [mem_singleton.mp new]
        exact adds.fresh
    · exact (adds.others g (inv.used g (.inr user)).1 (inv.used g (.inr user)).2).1
  · rcases mem_append.mp member with old | new
    · exact inv.apart g old
    · rw [mem_singleton.mp new]
      exact fun user => (inv.used f (.inr user)).1 listed
  · exact (adds.others u (inv.used u (.inr user)).1 (inv.used u (.inr user)).2).2

omit inv in
lemma mapHeap_length
    (mapped : mapHeap nx kernel n top s = some (s', frames)) : frames.length = n := by
  induction n generalizing s top frames with
  | zero =>
    cases mapped
    rfl
  | succ n ih =>
    rw [mapHeap] at mapped
    split at mapped
    · cases mapped
    split at mapped
    · cases mapped
    obtain ⟨⟨s₃, rest⟩, later, same⟩ := map_eq_some_iff.mp mapped
    cases same
    rw [length_cons, ih later]

lemma Mapped.mapHeap
    (isTop : top = heapStart + 4096 * pages.length) (room : pages.length + n ≤ 2 ^ 27)
    (mapped : mapHeap nx kernel n top s = some (s', frames)) :
    Mapped nx kernel s' (pages ++ frames) users ∧ KeepsEntry kernel users s s' ∧
      (0 < n → present (s'.heapEntry kernel) = true) := by
  induction n generalizing s pages top frames with
  | zero =>
    obtain ⟨rfl, rfl⟩ := Prod.mk.inj (some.inj mapped)
    rw [append_nil]
    exact ⟨inv, .refl kernel users s, fun more => absurd more (by decide)⟩
  | succ n ih =>
    rw [Mm.mapHeap] at mapped
    split at mapped
    · cases mapped
    rename_i s₁ a allocated
    split at mapped
    · cases mapped
    rename_i s₂ page
    obtain ⟨⟨s₃, rest⟩, later, same⟩ := map_eq_some_iff.mp mapped
    cases same
    subst isTop
    have chosen : EntryPath heapSlot (path (heapStart + 4096 * pages.length)) :=
      entryPath_heap (by omega) (by omega)
    obtain ⟨f, rfl, adds⟩ := mapPage_adds inv.tables inv.small chosen allocated page
    obtain ⟨inv₂, keeps⟩ := inv.step (by omega) adds
    have length : (pages ++ [f]).length = pages.length + 1 := by simp
    have isTop₂ : (heapStart + 4096 * pages.length + 4096) % 2 ^ 64 =
        heapStart + 4096 * (pages ++ [f]).length := by
      rw [length, heapStart]
      omega
    obtain ⟨inv₃, keeps₃, -⟩ := ih inv₂ isTop₂ (by omega) later
    rw [Nat.mul_div_cancel _ (by decide)]
    refine ⟨by simpa using inv₃, keeps.trans keeps₃, fun _ => ?_⟩
    rw [keeps₃.kernel adds.there]
    exact adds.there

/-! ## Everything else -/

lemma Mapped.congr
    (same : ∀ g, Holds heapSlot kernel s g → ∀ x, x / 4096 = g → s'.mem x = s.mem x)
    (taken : s'.free <:+ s.free) :
    Mapped nx kernel s' pages users ∧ s'.heapEntry kernel = s.heapEntry kernel := by
  obtain ⟨tables, found, lives⟩ := inv.tables.congr same taken
  have leaves : ∀ q, EntryPath heapSlot q → s'.leaf kernel q = s.leaf kernel q := fun q at_q => by
    rw [leaf, leaf, lives q at_q]
  refine ⟨⟨tables, fun f free => inv.positive f (taken.subset free), fun q at_q short => ?_,
    fun i f at_i => ?_, inv.inside, inv.real, inv.once, fun f member => ?_, inv.apart⟩, ?_⟩
  · rw [leaves q at_q, inv.small q at_q short]
  · have bound := (List.getElem?_eq_some_iff.mp at_i).1
    have inside := inv.inside
    rw [leaves _ (entryPath_heap (by omega) (by omega)), inv.page i f at_i]
  · obtain ⟨busy, plain⟩ := inv.used f member
    refine ⟨fun free => busy (taken.subset free), fun held => ?_⟩
    obtain ⟨q, at_q, isF⟩ := held
    exact plain ⟨q, at_q, (found q at_q).symm.trans isF⟩
  · exact word_congr fun x lower upper =>
      same kernel ⟨[], tablePath_nil, rfl⟩ x (by omega)

/-- A new PML4 in a frame that was free, and nothing written but free frames. -/
lemma Mapped.addUser (listed : u ∈ s.free)
    (unused : u ∉ s'.free) (same : ∀ x, x / 4096 ∉ s.free → s'.mem x = s.mem x)
    (taken : s'.free <:+ s.free) :
    Mapped nx kernel s' pages (u :: users) ∧ KeepsEntry kernel users s s' := by
  have spared : ∀ g, Holds heapSlot kernel s g → g ∉ s.free := by
    rintro g ⟨q, at_q, found⟩
    exact inv.tables.used q g at_q found
  have tables : ∀ g, Holds heapSlot kernel s g → ∀ x, x / 4096 = g → s'.mem x = s.mem x :=
    fun g held x at_g => same x (at_g ▸ spared g held)
  obtain ⟨inv', entry⟩ := inv.congr tables taken
  obtain ⟨-, found, -⟩ := inv.tables.congr tables taken
  refine ⟨{ inv' with used := fun f member => ?_, apart := fun f page => ?_ }, fun g user x at_g => ?_,
    fun _ => entry, taken⟩
  · rcases member with page | user
    · exact inv'.used f (.inl page)
    rcases mem_cons.mp user with rfl | old
    · refine ⟨unused, fun held => ?_⟩
      obtain ⟨q, at_q, isU⟩ := held
      exact spared f ⟨q, at_q, (found q at_q).symm.trans isU⟩ listed
    · exact inv'.used f (.inr old)
  · refine fun user => (mem_cons.mp user).elim (fun isU => ?_) (inv.apart f page)
    exact (inv.used f (.inl page)).1 (isU ▸ listed)
  · exact same x (at_g ▸ (inv.used g (.inr user)).1)

omit inv in
/-- An entry that is not present has no tables below it. -/
lemma Mapped.of_vacant (vacant : present (s.heapEntry kernel) = false) (used : kernel ∉ s.free)
    (sound : s.Sound) : Mapped nx kernel s [] [] := by
  have entry : ∀ i, heapSlot i → present (s.entry kernel i) = false := fun i isSlot => by
    rw [entry, isSlot]
    exact vacant
  have alone : ∀ p t, TablePath heapSlot p → s.table kernel p = some t → p = [] := by
    intro p t at_p found
    rcases eq_nil_or_concat p with isNil | ⟨l, i, rfl⟩
    · exact isNil
    have missing : s.table kernel [i] = none :=
      table_absent (t := kernel) rfl (by simp [isTable, entry i (at_p.2 i (by simp))])
    cases (node_below_none missing ⟨l, by simp⟩).symm.trans found
  have absent : ∀ q, EntryPath heapSlot q → s.live kernel q = none := by
    intro q at_q
    obtain ⟨l, i, rfl⟩ := (eq_nil_or_concat q).resolve_left (length_pos_iff.mp at_q.1)
    have top : s.live kernel [i] = none := by
      rw [live_cons (t := kernel) rfl, filter_some, entry i (at_q.2.2 i (by simp))]
      rfl
    exact live_below_none top ⟨l, by simp⟩
  have tables : Tables heapSlot kernel s := by
    refine ⟨⟨tablePath_tail, fun p q f at_p at_q left right => ?_⟩, fun p t at_p found => ?_,
      fun i isSlot there => ?_, fun f free => (sound.valid f free).2, sound.nodup⟩
    · rw [alone p f at_p left, alone q f at_q right]
    · obtain rfl := alone p t at_p found
      cases found
      exact used
    · cases (entry i isSlot).symm.trans there
  refine ⟨tables, fun f free => (sound.valid f free).1, fun q at_q _ => ?_, ?_, ?_, ?_, .nil, ?_, ?_⟩
  · rw [leaf, absent q at_q]
    rfl
  all_goals simp

/-! ## Contents -/

omit inv in
lemma writeBack_free (m : Bytes) (virt : Nat) (frames : List Nat) (s : Phys) :
    (writeBack m virt frames s).free = s.free := by
  induction frames generalizing virt s with
  | nil => rfl
  | cons f frames ih => rw [writeBack, ih, store_free]

omit inv in
lemma writeBack_outside (m : Bytes) (virt : Nat) (frames : List Nat) (s : Phys) {x : Nat}
    (outside : x / 4096 ∉ frames) : (writeBack m virt frames s).mem x = s.mem x := by
  induction frames generalizing virt s with
  | nil => rfl
  | cons f frames ih =>
    obtain ⟨other, rest⟩ := not_or.mp (mt mem_cons.mpr outside)
    rw [writeBack, ih _ _ rest, store_mem, store_outside (by omega)]

omit inv in
lemma writeBack_inside (m : Bytes) (virt : Nat) (s : Phys) (once : frames.Nodup)
    (at_i : frames[i]? = some f) (inside : o < 4096) :
    (writeBack m virt frames s).mem (f * 4096 + o) = m (virt + 4096 * i + o) := by
  induction frames generalizing virt s i with
  | nil => cases at_i
  | cons g frames ih =>
    obtain ⟨absent, once⟩ := nodup_cons.mp once
    rw [writeBack]
    cases i with
    | zero =>
      obtain rfl : g = f := by simpa using at_i
      rw [writeBack_outside _ _ _ _ (by rwa [show (g * 4096 + o) / 4096 = g by omega]), store_mem,
        store_inside (by omega) (by omega), Nat.add_sub_cancel_left]
      rfl
    | succ i =>
      rw [ih _ _ once (by simpa using at_i)]
      congr 1
      omega

/-- The heap's own contents are in none of its tables. -/
lemma Mapped.writeBack (m : Bytes) (virt : Nat) :
    Mapped nx kernel (writeBack m virt pages s) pages users ∧
      KeepsEntry kernel users s (writeBack m virt pages s) := by
  have same : ∀ g, Holds heapSlot kernel s g → ∀ x, x / 4096 = g →
      (Mm.writeBack m virt pages s).mem x = s.mem x := fun g held x at_g =>
    writeBack_outside m virt pages s fun page => (inv.used g (.inl (at_g ▸ page))).2 held
  have taken : (Mm.writeBack m virt pages s).free <:+ s.free := by
    rw [writeBack_free]
  obtain ⟨inv', entry⟩ := inv.congr same taken
  refine ⟨inv', fun u user x at_u => ?_, fun _ => entry, taken⟩
  exact writeBack_outside m virt pages s fun page => inv.apart u (at_u ▸ page) user

/-- In the kernel's PML4 the pages of the heap are where they were mapped. -/
lemma Mapped.translate (at_i : pages[i]? = some f)
    (offset : o < 4096) :
    vmmVirtToPhys s.mem (kernel * 4096) (heapStart + 4096 * i + o) = f * 4096 + o := by
  have bound := (List.getElem?_eq_some_iff.mp at_i).1
  have inside := inv.inside
  have chosen : EntryPath heapSlot (path (heapStart + 4096 * i + o)) :=
    entryPath_heap (by omega) (by omega)
  have same : path (heapStart + 4096 * i + o) = path (heapStart + 4096 * i) := by
    rw [heapPath_eq_iff (by omega) (by omega) (by omega) (by omega), heapStart]
    omega
  have page : s.leaf kernel (path (heapStart + 4096 * i + o)) =
      some (pageEntry nx (f * 4096) pteWritable) := by rw [same, inv.page i f at_i]
  have small := small_of_short chosen inv.small
  rw [inv.tables.virtToPhys chosen, translation, page, small.directory, small.pointers]
  simp only [pageDown_pageEntry (writable_low nx)]
  rw [pageDown, Nat.mul_div_cancel _ (by decide), heapStart]
  omega

end

end

end Znu.Mm
