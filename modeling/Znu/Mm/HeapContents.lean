import Znu.Lib.Layout
import Znu.Mm.HeapSafety
import Znu.Mm.Realloc

/-! # What is in the blocks of the heap

A call of the heap leaves the bytes of live blocks alone, the freed one excepted. A block
of whole pages is clear when it is new. `krealloc` therefore keeps as many bytes of the
old block as it takes the block for, and the rest of the new one is what was there.
-/

namespace Znu.Mm

open Lib Option List Nat Bytes Owned Block Heap

lemma Heap.copy_inside (h : Heap) (dst src : Nat) {n x : Nat} (inside : x < n) :
    (h.copy dst src n).mem (dst + x) = h.mem (src + x) := by
  simp only [copy]
  rw [store_inside (by omega) (by omega), Nat.add_sub_cancel_left]

lemma Heap.copy_outside (h : Heap) (dst src : Nat) {n x : Nat} (outside : n ≤ x) :
    (h.copy dst src n).mem (dst + x) = h.mem (dst + x) := by
  simp only [copy]
  rw [store_outside (by omega)]

/-- What the next block for `size` bytes has in it: nothing in new pages, the link to the second slot in
    the first of a new slab, and in a slot that was free whatever is there. -/
def Heap.leftover (h : Heap) (size : Nat) : Bytes :=
  match getBucketIdx size with
  | none => fun _ => 0
  | some idx =>
    if h.buckets idx = 0 ∨ h.slotsFree (h.buckets idx) = 0 then
      Bytes.store (fun _ => 0) 0 8 (digit (if 1 < slotCount idx then slot h.top idx 1 else 0))
    else fun x => h.mem (h.freeList (h.buckets idx) + x)

lemma Heap.leftover_large {size : Nat} (large : getBucketIdx size = none) (h : Heap) (x : Nat) :
    h.leftover size x = 0 := by
  simp only [leftover, large]

section

variable {h h' : Heap} {slab x : Nat} {idx : Fin 8} (made : NewSlab h h' slab idx)

include made

lemma NewSlab.first_link :
    h'.next (slot slab idx 0) = if 1 < slotCount idx then slot slab idx 1 else 0 := by
  split
  next more => exact made.links 0 more
  · have last := made.last
    rwa [show slotCount idx - 1 = 0 by omega] at last

lemma NewSlab.first_slot (clear : ∀ y, slab ≤ y → y < slab + 4096 → h.mem y = 0)
    (inside : x < bucketSize idx) : h'.mem (slot slab idx 0 + x) =
      Bytes.store (fun _ => 0) 0 8 (digit (if 1 < slotCount idx then slot slab idx 1 else 0)) x := by
  have low := slot_start slab idx 0
  have high := slot_end slab (bucketSize_facts idx).2.2.2.1
  by_cases link : x < 8
  · rw [store_inside (by omega) (by omega), Nat.sub_zero, ← made.first_link]
    exact (digit_word _ _ _ link).symm
  rw [store_outside (by omega), made.rest _ (by omega) fun k _ here => ?_, clear _ (by omega) (by omega)]
  rcases k.eq_zero_or_pos with rfl | later
  · omega
  · have apart : slot slab idx 0 + bucketSize idx ≤ slot slab idx k := slot_apart slab later
    omega

end

namespace Owned.Inv

variable {s : Owned} {slabs : Fin 8 → List Nat} {b b' : Block} {h : Heap} {size p x : Nat}

section

variable (inv : s.Inv slabs)

include inv

lemma kmalloc_keeps (positive : 0 < size) (given : kmalloc s.heap size = some (h, p))
    (owned : b ∈ s.live) (lower : b.ptr ≤ x) (upper : x < b.stop) : h.mem x = s.heap.mem x := by
  have below := inv.block_below owned
  rcases kmalloc_cases positive given with
    ⟨-, extended, -⟩ | ⟨idx, -, ⟨-, h₁, extended, taken⟩ | ⟨real, -, taken⟩⟩
  · exact (extend_spec extended inv.room).2.2.2 x (by omega)
  · obtain ⟨top, buckets, supply, same⟩ := extend_spec extended inv.room
    have room := inv.room
    have older : h₁.buckets idx < 2 ^ 64 := by
      rw [buckets]
      exact inv.newest_lt idx
    have made : NewSlab h₁ (Mm.newSlab h₁ s.heap.top idx) s.heap.top idx :=
      newSlab_spec (by omega) older
    have outside : ¬ (s.heap.top + 8 ≤ x ∧ x < s.heap.top + 24) := by omega
    have header := takeSlot_mem (h := Mm.newSlab h₁ s.heap.top idx) outside
    rw [taken] at header
    rw [header, made.mem x (by omega), same x (by omega)]
  · obtain ⟨tail, isHead⟩ := (inv.chain idx).of_ne_null real
    have apart := inv.block_header (isHead ▸ mem_cons_self) owned
    have outside : ¬ (s.heap.buckets idx + 8 ≤ x ∧ x < s.heap.buckets idx + 24) := by omega
    have header := takeSlot_mem (h := s.heap) outside
    rw [taken] at header
    exact header

lemma takeSlot_leaves {idx : Fin 8} {slab : Nat} (found : getBucketIdx size = some idx)
    (listed : slab ∈ slabs idx) (some_free : s.heap.slotsFree slab ≠ 0) (inside : x < extent size) :
    (Mm.takeSlot s.heap slab).1.mem ((Mm.takeSlot s.heap slab).2 + x) =
      s.heap.mem (s.heap.freeList slab + x) := by
  have apart := (inv.takeSlot found listed some_free).block_header listed mem_cons_self
  simp only [stop] at apart
  exact takeSlot_mem (by omega)

lemma kmalloc_leftover (positive : 0 < size) (bound : size ≤ 2 ^ 64 - 4096)
    (given : kmalloc s.heap size = some (h, p)) (inside : x < extent size) :
    h.mem (p + x) = s.heap.leftover size x := by
  have room := inv.room
  rw [leftover]
  rcases kmalloc_cases positive given with
    ⟨found, extended, rfl⟩ | ⟨idx, found, ⟨full, h₁, extended, taken⟩ | ⟨real, some_free, taken⟩⟩
  · have top := (extend_spec extended room).1
    have length : extent size = (size + 4095) / 4096 * 4096 := by rw [extent, found]
    simp only [found]
    exact extend_zero extended room (by omega) (by omega)
  · obtain ⟨top, buckets, supply, -⟩ := extend_spec extended room
    obtain ⟨inv₁, some_free⟩ := inv.newSlab extended idx
    have made : NewSlab h₁ (Mm.newSlab h₁ s.heap.top idx) s.heap.top idx :=
      newSlab_spec (by omega) (by rw [buckets]; exact inv.newest_lt idx)
    have left := inv₁.takeSlot_leaves found (mem_grown.mpr (.inl ⟨rfl, rfl⟩)) some_free inside
    rw [taken, made.first] at left
    rw [extent_some found] at inside
    simp only [found, if_pos full]
    exact left.trans (made.first_slot (fun y lower upper => extend_zero extended room lower (by omega)) inside)
  · obtain ⟨tail, isHead⟩ := (inv.chain idx).of_ne_null real
    have left := inv.takeSlot_leaves found (isHead ▸ mem_cons_self) some_free inside
    rw [taken] at left
    simp only [found, if_neg (not_or.mpr ⟨real, some_free⟩)]
    exact left

lemma kfree_keeps (owned : b ∈ s.live) (freed : b' ∈ s.live) (apart : b.Apart b')
    (lower : b.ptr ≤ x) (upper : x < b.stop) : (kfree s.heap b'.ptr).mem x = s.heap.mem x := by
  have stop : b'.stop = b'.ptr + extent b'.size := rfl
  cases inv.placed b' freed with
  | @slot idx slab k size listed inside address =>
    have page : b'.ptr / 4096 * 4096 = slab :=
      address ▸ slot_page (inv.slab idx slab listed).aligned inside
    have header := inv.block_header listed owned
    have wide := (bucketSize_facts idx).1
    rw [extent_some size] at stop
    rw [Apart] at apart
    exact (kfree_frame page).2.2.2 x (by omega) (by omega)
  | big size aligned start below apart' =>
    have page : b'.ptr / 4096 * 4096 = b'.ptr := by omega
    have large := getBucketIdx_none size
    have length : extent b'.size = (b'.size + 4095) / 4096 * 4096 := by rw [extent, size]
    rw [Apart] at apart
    exact (kfree_frame page).2.2.2 x (by omega) (by omega)

/-! ## Sizes as `krealloc` sees them -/

lemma allocationSize_small (owned : b ∈ s.live) {idx : Fin 8}
    (small : getBucketIdx b.size = some idx) : getAllocationSize s.heap b.ptr = bucketSize idx := by
  cases inv.placed b owned with
  | @slot idx' slab k size listed inside address =>
    obtain rfl := some.inj (size.symm.trans small)
    have is_slab := inv.slab idx' slab listed
    have page : b.ptr / 4096 * 4096 = slab := address ▸ slot_page is_slab.aligned inside
    have wide := bucketSize_facts idx'
    have start := is_slab.start
    have real : b.ptr ≠ 0 := by
      rw [heapStart] at start
      omega
    simp only [getAllocationSize, if_neg real, page, is_slab.size]
    exact if_pos (by omega)
  | big size => cases size.symm.trans small

/-- The size of a block of whole pages is read from its own contents. -/
lemma allocationSize_large (owned : b ∈ s.live) (large : getBucketIdx b.size = none) :
    getAllocationSize s.heap b.ptr =
      if 0 < s.heap.mem.word (b.ptr + 16) 4 ∧ s.heap.mem.word (b.ptr + 16) 4 ≤ 2048 then
        s.heap.mem.word (b.ptr + 16) 4 else 4096 := by
  cases inv.placed b owned with
  | slot size => cases size.symm.trans large
  | big size aligned start below apart =>
    have page : b.ptr / 4096 * 4096 = b.ptr := by omega
    have real : b.ptr ≠ 0 := by
      rw [heapStart] at start
      omega
    simp only [getAllocationSize, if_neg real, page, slotSize]

lemma allocationSize_le (owned : b ∈ s.live) : getAllocationSize s.heap b.ptr ≤ extent b.size := by
  cases found : getBucketIdx b.size with
  | some idx => rw [inv.allocationSize_small owned found, extent_some found]
  | none =>
    have large := getBucketIdx_none found
    have length : extent b.size = (b.size + 4095) / 4096 * 4096 := by rw [extent, found]
    rw [inv.allocationSize_large owned found]
    split <;> omega

lemma allocationSize_kmalloc (positive : 0 < size)
    (given : kmalloc s.heap size = some (h, p)) {live : List Block} {slabs' : Fin 8 → List Nat}
    (inv' : Inv ⟨h, live⟩ slabs') (owned : b ∈ s.live) (owned' : b ∈ live) :
    getAllocationSize h b.ptr = getAllocationSize s.heap b.ptr := by
  cases found : getBucketIdx b.size with
  | some idx => rw [inv.allocationSize_small owned found, inv'.allocationSize_small owned' found]
  | none =>
    have large := getBucketIdx_none found
    have stop : b.stop = b.ptr + (b.size + 4095) / 4096 * 4096 := by rw [stop, extent, found]
    have word : h.mem.word (b.ptr + 16) 4 = s.heap.mem.word (b.ptr + 16) 4 :=
      word_congr fun x lower upper =>
        inv.kmalloc_keeps positive given owned (by omega) (by omega)
    rw [inv.allocationSize_large owned found, inv'.allocationSize_large owned' found]
    simp only [word]

end

end Owned.Inv

/-- A block moved to a new place: of its bytes, those that `get_allocation_size` counts come along. -/
structure Moved (s : Owned) (b : Block) (size : Nat) (h : Heap) (p : Nat) : Prop where
  inv : ∃ slabs, Owned.Inv ⟨h, ⟨p, size⟩ :: s.live.erase b⟩ slabs
  kept : ∀ x, x < getAllocationSize s.heap b.ptr → x < size → h.mem (p + x) = s.heap.mem (b.ptr + x)
  rest : ∀ x, getAllocationSize s.heap b.ptr ≤ x ∨ size ≤ x → x < extent size →
    h.mem (p + x) = s.heap.leftover size x
  others : ∀ o ∈ s.live, o ≠ b → ∀ x, o.ptr ≤ x → x < o.stop → h.mem x = s.heap.mem x

section

variable {s : Owned} {b : Block} {size p : Nat} {h : Heap}

lemma krealloc_moved (inv : ∃ slabs, s.Inv slabs) (owned : b ∈ s.live) (positive : 0 < size)
    (bound : size ≤ 2 ^ 64 - 4096) (given : krealloc s.heap b.ptr size = some (h, p)) :
    Moved s b size h p := by
  obtain ⟨slabs, inv⟩ := inv
  have start := (inv.safe.block b owned).2.2.1
  have real : b.ptr ≠ 0 := by
    rw [heapStart] at start
    omega
  rw [krealloc, if_neg real, if_neg (ne_of_gt positive)] at given
  split at given
  next => cases given
  rename_i h₁ newPtr fresh
  have step : Step s (.kmalloc size) ⟨h₁, ⟨newPtr, size⟩ :: s.live⟩ :=
    .kmalloc positive bound fresh
  obtain ⟨slabs₁, inv₁⟩ := step.inv ⟨slabs, inv⟩
  have owned₁ : b ∈ (⟨newPtr, size⟩ :: s.live : List Block) := .tail _ owned
  have isNew : (⟨newPtr, size⟩ : Block) ∈ (⟨newPtr, size⟩ :: s.live : List Block) := mem_cons_self
  have newReal : newPtr ≠ 0 := by
    have newStart : heapStart ≤ newPtr := (inv₁.safe.block _ isNew).2.2.1
    rw [heapStart] at newStart
    omega
  rw [if_neg newReal] at given
  have sameSize := inv.allocationSize_kmalloc positive fresh inv₁ owned owned₁
  obtain ⟨n, isN⟩ : ∃ n, n = if getAllocationSize s.heap b.ptr < size then
    getAllocationSize s.heap b.ptr else size := ⟨_, rfl⟩
  have fits : 0 + n ≤ extent size := by
    have whole := le_extent size
    split at isN <;> omega
  have inv₂ : Inv ⟨h₁.copy newPtr b.ptr n, ⟨newPtr, size⟩ :: s.live⟩ slabs₁ :=
    inv₁.write isNew fits fun i => h₁.mem (b.ptr + i)
  have inv₃ := inv₂.free owned₁
  obtain ⟨apart, apart'⟩ := pairwise_cons.mp inv₁.apart
  have another : (⟨newPtr, size⟩ : Block) ≠ b := by
    rintro rfl
    have some := le_extent size
    have self := apart _ owned
    simp only [Apart, stop] at self
    omega
  rw [erase_cons_tail (by simpa using another)] at inv₃
  have moved : ∀ x < extent size, (kfree (h₁.copy newPtr b.ptr n) b.ptr).mem (newPtr + x) =
      (h₁.copy newPtr b.ptr n).mem (newPtr + x) := fun x inside =>
    inv₂.kfree_keeps isNew owned₁ (apart b owned) (Nat.le_add_right _ _) (Nat.add_lt_add_left inside _)
  simp only [sameSize, ← isN] at given
  obtain ⟨rfl, rfl⟩ := Prod.mk.inj (some.inj given)
  refine ⟨⟨slabs₁, inv₃⟩, fun x old new => ?_, fun x past new => ?_, ?_⟩
  · have within : b.ptr + x < b.stop :=
      Nat.add_lt_add_left (old.trans_le (inv.allocationSize_le owned)) _
    have copied : x < n := by split at isN <;> omega
    rw [moved x (new.trans_le (le_extent size)), h₁.copy_inside newPtr b.ptr copied,
      inv.kmalloc_keeps positive fresh owned (le_add_right _ _) within]
  · have uncopied : n ≤ x := by split at isN <;> omega
    rw [moved x new, h₁.copy_outside newPtr b.ptr uncopied,
      inv.kmalloc_leftover positive bound fresh new]
  · intro o listed other x lower upper
    have away := apart o listed
    have symmetric : Std.Symm Apart := ⟨fun _ _ => Or.symm⟩
    rw [inv₂.kfree_keeps (.tail _ listed) owned₁ (apart'.forall listed owned other) lower upper,
      ← inv.kmalloc_keeps positive fresh listed lower upper]
    simp only [Apart, stop] at away upper
    have outside : ¬ (newPtr ≤ x ∧ x < newPtr + n) := by omega
    change h₁.mem.store newPtr n (fun i => h₁.mem (b.ptr + i)) x = h₁.mem x
    exact store_outside outside

/-- What `krealloc` is for. -/
structure Reallocated (s : Owned) (b : Block) (size : Nat) (h : Heap) (p : Nat) : Prop where
  same : ∀ x < min b.size size, h.mem (p + x) = s.heap.mem (b.ptr + x)
  reads : min (getAllocationSize s.heap b.ptr) size ≤ extent b.size
  others : ∀ o ∈ s.live, o ≠ b → ∀ x, o.ptr ≤ x → x < o.stop → h.mem x = s.heap.mem x

/-- A block is moved correctly exactly if its bytes past what `get_allocation_size` finds in it are those
    left over where the new block will be, as when there are none. -/
theorem krealloc_keeps_iff {h₀ : Heap} {es : List Event}
    (memory : heapStart + 4096 * h₀.frames < 2 ^ 64) (run : Run Owned.Step ⟨initSlab h₀, []⟩ es s)
    (owned : b ∈ s.live) (positive : 0 < size) (bound : size < 2 ^ 63)
    (given : krealloc s.heap b.ptr size = some (h, p)) :
    Reallocated s b size h p ↔ ∀ x, getAllocationSize s.heap b.ptr ≤ x → x < min b.size size →
      s.heap.leftover size x = s.heap.mem (b.ptr + x) := by
  have inv := Owned.inv_of_run memory run
  have moved := krealloc_moved inv owned positive (by omega) given
  have whole := le_extent size
  refine ⟨fun good x past inside => ?_, fun lucky => ⟨fun x inside => ?_, ?_, moved.others⟩⟩
  · rw [← moved.rest x (.inl past) (by omega)]
    exact good.same x inside
  · by_cases copied : x < getAllocationSize s.heap b.ptr
    · exact moved.kept x copied (by omega)
    · rw [moved.rest x (.inl (by omega)) (by omega)]
      exact lucky x (by omega) inside
  · obtain ⟨slabs, inv⟩ := inv
    exact (min_le_left _ _).trans (inv.allocationSize_le owned)

end

theorem small_block_moved : ∃ s p h q,
    Run Owned.Step ⟨initSlab ⟨fun _ => 0, 0, fun _ => 0, 2⟩, []⟩ [.kmalloc 24] s ∧
      krealloc s.heap p 48 = some (h, q) ∧ Reallocated s ⟨p, 24⟩ 48 h q := by
  obtain ⟨⟨h₁, p⟩, given, rest⟩ := bind_eq_some_iff.mp
    (by decide +kernel : ((kmalloc (initSlab ⟨fun _ => 0, 0, fun _ => 0, 2⟩) 24).bind fun r =>
      (krealloc r.1 r.2 48).map fun _ => getAllocationSize r.1 r.2) = some 32)
  obtain ⟨⟨h, q⟩, moved, size⟩ := map_eq_some_iff.mp rest
  have run : Run Owned.Step ⟨initSlab ⟨fun _ => 0, 0, fun _ => 0, 2⟩, []⟩ [.kmalloc 24] _ :=
    .cons (.kmalloc (by decide) (by decide) given) (.nil _)
  have moves := krealloc_keeps_iff (by decide) run (b := ⟨p, 24⟩) mem_cons_self (by decide) (by decide) moved
  refine ⟨_, p, h, q, run, moved, moves.mpr fun x past inside => ?_⟩
  dsimp only at size past inside
  omega

/-- The byte at offset 16 of a page is taken for the size of a slab's slots. -/
theorem page_not_moved : ∃ s p h q,
    Run Owned.Step ⟨initSlab ⟨fun _ => 0, 0, fun _ => 0, 3⟩, []⟩
      [.kmalloc 4096, .write ⟨p, 4096⟩ 16 1 fun _ => 8] s ∧
    krealloc s.heap p 8192 = some (h, q) ∧ ¬ Reallocated s ⟨p, 4096⟩ 8192 h q := by
  obtain ⟨⟨h₁, p⟩, given, rest⟩ := bind_eq_some_iff.mp
    (by decide +kernel : ((kmalloc (initSlab ⟨fun _ => 0, 0, fun _ => 0, 3⟩) 4096).bind fun r =>
      (krealloc { r.1 with mem := r.1.mem.store (r.2 + 16) 1 fun _ => 8 } r.2 8192).map fun q =>
        q.1.mem (q.2 + 16)) = some 0)
  obtain ⟨⟨h, q⟩, moved, byte⟩ := map_eq_some_iff.mp rest
  have inside : 16 + 1 ≤ extent 4096 := by decide
  have run : Run Owned.Step ⟨initSlab ⟨fun _ => 0, 0, fun _ => 0, 3⟩, []⟩
      [.kmalloc 4096, .write ⟨p, 4096⟩ 16 1 fun _ => 8] _ :=
    .cons (.kmalloc (by decide) (by decide) given) (.cons (.write mem_cons_self inside) (.nil _))
  refine ⟨_, p, h, q, run, moved, fun good => ?_⟩
  have stored : h₁.mem.store (p + 16) 1 (fun _ => 8) (p + 16) = 8 :=
    store_inside (le_refl _) (lt_succ_self _)
  exact absurd (byte.symm.trans ((good.same 16 (by simp)).trans stored)) (by decide)

end Znu.Mm
