import Znu.Lib.Bytes
import Znu.Lib.Linked

/-! # The kernel heap

`kmalloc` serves small requests from slabs. A slab is one page: a header of 32 bytes and
slots of one of eight sizes, the free ones threaded on a list through their first words.
Larger requests get pages of their own. Addresses are virtual here. The heap only grows,
by pages whose frames `palloc_zero` has cleared; frames taken for page tables are not
counted, they only make memory run out sooner.
-/

namespace Znu.Mm

open Lib Bytes Option Nat List Function

structure Heap where
  mem : Bytes
  /-- `heap_virtual_top` -/
  top : Nat
  /-- the newest slab of each size, 0 if there is none -/
  buckets : Fin 8 → Nat
  /-- the number of frames `palloc_zero` can still return -/
  frames : Nat

def heapStart : Nat := 0xffff900000000000

def initSlab (h : Heap) : Heap := { h with top := heapStart, buckets := fun _ => 0 }

def bucketSize : Fin 8 → Nat := ![16, 32, 64, 128, 256, 512, 1024, 2048]

def getBucketIdx (size : Nat) : Option (Fin 8) := (finRange 8).find? (size ≤ bucketSize ·)

namespace Heap

/-- The first word of a slab is `next_slab`, that of a free slot its link. -/
def next (h : Heap) (a : Nat) : Nat := h.mem.word a 8
def freeList (h : Heap) (slab : Nat) : Nat := h.mem.word (slab + 8) 8
def slotSize (h : Heap) (slab : Nat) : Nat := h.mem.word (slab + 16) 4
def slotsFree (h : Heap) (slab : Nat) : Nat := h.mem.word (slab + 20) 4

def write (h : Heap) (a n v : Nat) : Heap := { h with mem := h.mem.store a n (Bytes.digit v) }

def setNext (h : Heap) (a v : Nat) : Heap := h.write a 8 v
def setFreeList (h : Heap) (slab v : Nat) : Heap := h.write (slab + 8) 8 v
def setSlotSize (h : Heap) (slab v : Nat) : Heap := h.write (slab + 16) 4 v
def setSlotsFree (h : Heap) (slab v : Nat) : Heap := h.write (slab + 20) 4 v

/-- `none` is `hcf`, when there are no frames left. -/
def extend : Nat → Heap → Option Heap
  | 0, h => some h
  | pages + 1, h =>
    match h.frames with
    | 0 => none
    | frames + 1 =>
      extend pages { h with
        mem := h.mem.store h.top 4096 fun _ => 0
        top := (h.top + 4096) % 2 ^ 64
        frames := frames }

end Heap

def heapExtend (h : Heap) (pages : Nat) : Option (Heap × Nat) :=
  (h.extend pages).map fun h' => (h', h.top)

/-- Thread `n` slots, from the `i`-th on, each to its successor. -/
def linkSlots (slab : Nat) : Nat → Nat → Heap → Heap
  | 0, _, h => h
  | n + 1, i, h =>
    linkSlots slab n (i + 1) (h.setNext (slab + 32 + i * h.slotSize slab)
      (slab + 32 + (i + 1) * h.slotSize slab))

/-- Make a new page the newest slab of its size. -/
def newSlab (h : Heap) (slab : Nat) (idx : Fin 8) : Heap :=
  let h := h.setSlotSize slab (bucketSize idx)
  let h := h.setSlotsFree slab ((4096 - 32) / h.slotSize slab)
  let h := h.setNext slab (h.buckets idx)
  let h := h.setFreeList slab (slab + 32)
  let h := linkSlots slab (h.slotsFree slab - 1) 0 h
  let h := h.setNext (slab + 32 + (h.slotsFree slab - 1) * h.slotSize slab) 0
  { h with buckets := Function.update h.buckets idx slab }

/-- Take the first free slot of a slab. -/
def takeSlot (h : Heap) (slab : Nat) : Heap × Nat :=
  let addr := h.freeList slab
  let h := h.setFreeList slab (h.next addr)
  (h.setSlotsFree slab ((h.slotsFree slab + 2 ^ 32 - 1) % 2 ^ 32), addr)

/-- The result 0 is the null pointer. -/
def kmalloc (h : Heap) (size : Nat) : Option (Heap × Nat) :=
  if size = 0 then some (h, 0) else
  match getBucketIdx size with
  | none => heapExtend h ((size + 4095) % 2 ^ 64 / 4096)
  | some idx =>
    if h.buckets idx = 0 ∨ h.slotsFree (h.buckets idx) = 0 then
      match heapExtend h 1 with
      | none => none
      | some (h, slab) => some (takeSlot (newSlab h slab idx) slab)
    else some (takeSlot h (h.buckets idx))

def kfree (h : Heap) (ptr : Nat) : Heap :=
  if ptr = 0 then h else
  let slab := ptr / 4096 * 4096
  if h.slotSize slab = 0 then h else
  let h := h.setNext ptr (h.freeList slab)
  let h := h.setFreeList slab ptr
  h.setSlotsFree slab ((h.slotsFree slab + 1) % 2 ^ 32)

/-! ## Sizes -/

/-- `(PAGE_SIZE - sizeof(struct slab_header)) / slot_size` -/
def slotCount (idx : Fin 8) : Nat := (4096 - 32) / bucketSize idx

def slot (slab : Nat) (idx : Fin 8) (k : Nat) : Nat := slab + 32 + k * bucketSize idx

/-- The length of the block that serves a request. -/
def extent (size : Nat) : Nat :=
  match getBucketIdx size with
  | none => (size + 4095) / 4096 * 4096
  | some idx => bucketSize idx

lemma bucketSize_facts (idx : Fin 8) : 16 ≤ bucketSize idx ∧ bucketSize idx ≤ 2048 ∧
    bucketSize idx % 16 = 0 ∧ 0 < slotCount idx ∧ slotCount idx ≤ 254 ∧
    slotCount idx * bucketSize idx ≤ 4064 := by
  revert idx
  decide

variable {idx idx' : Fin 8} {k n pages size slab : Nat}

lemma bucketSize_injective (same : bucketSize idx = bucketSize idx') : idx = idx' := by
  revert idx idx'
  decide

lemma slot_end (slab : Nat) (inside : k < slotCount idx) :
    slot slab idx k + bucketSize idx ≤ slab + 4096 := by
  obtain ⟨-, -, -, -, -, fits⟩ := bucketSize_facts idx
  have bound : (k + 1) * bucketSize idx ≤ slotCount idx * bucketSize idx := mul_le_mul_right _ inside
  rw [add_one_mul] at bound
  rw [slot]
  omega

lemma slot_start (slab : Nat) (idx : Fin 8) (k : Nat) : slab + 32 ≤ slot slab idx k := by
  rw [slot]
  omega

lemma slot_apart {k' : Nat} (slab : Nat) (before : k < k') :
    slot slab idx k + bucketSize idx ≤ slot slab idx k' := by
  have bound : (k + 1) * bucketSize idx ≤ k' * bucketSize idx := mul_le_mul_right _ before
  rw [add_one_mul] at bound
  rw [slot, slot]
  omega

lemma slot_aligned (aligned : slab % 4096 = 0) : slot slab idx k % 16 = 0 := by
  have size : 16 ∣ bucketSize idx := dvd_of_mod_eq_zero (bucketSize_facts idx).2.2.1
  have offset : 16 ∣ k * bucketSize idx := Dvd.dvd.mul_left size k
  rw [slot]
  omega

/-- The slab of a slot is found by masking its address. -/
lemma slot_page (aligned : slab % 4096 = 0) (inside : k < slotCount idx) :
    slot slab idx k / 4096 * 4096 = slab := by
  have upper := slot_end slab inside
  have lower := slot_start slab idx k
  have size := (bucketSize_facts idx).1
  omega

lemma getBucketIdx_some (found : getBucketIdx size = some idx) : size ≤ bucketSize idx := by
  have fits := find?_some found
  simpa using fits

lemma getBucketIdx_none (missing : getBucketIdx size = none) : 2048 < size := by
  have largest := find?_eq_none.mp missing 7 (mem_finRange 7)
  rw [decide_eq_true_iff] at largest
  exact Nat.lt_of_not_le largest

lemma le_extent (size : Nat) : size ≤ extent size := by
  unfold extent
  split
  · omega
  next idx found => exact getBucketIdx_some found

/-! ## Growing -/

variable {h h' : Heap}

/-- The new pages are above the old ones, which keep their contents. -/
lemma Heap.extend_spec (extended : h.extend pages = some h')
    (room : h.top + 4096 * h.frames < 2 ^ 64) : h'.top = h.top + 4096 * pages ∧
      h'.buckets = h.buckets ∧ h'.top + 4096 * h'.frames = h.top + 4096 * h.frames ∧
      ∀ x < h.top, h'.mem x = h.mem x := by
  induction pages generalizing h with
  | zero =>
    cases extended
    exact ⟨rfl, rfl, rfl, fun _ _ => rfl⟩
  | succ pages ih =>
    rw [extend] at extended
    split at extended
    · cases extended
    have small : h.top + 4096 < 2 ^ 64 := by omega
    obtain ⟨top, buckets, supply, same⟩ := ih extended (by simp only; omega)
    simp only at top buckets supply same
    refine ⟨by omega, buckets, by omega, fun x below => ?_⟩
    rw [same x (by omega), store_outside (by omega)]

variable {ptr x : Nat}

lemma Heap.extend_zero (extended : h.extend pages = some h')
    (room : h.top + 4096 * h.frames < 2 ^ 64) (lower : h.top ≤ x) (upper : x < h'.top) :
    h'.mem x = 0 := by
  induction pages generalizing h with
  | zero =>
    cases extended
    exact absurd lower (by omega)
  | succ pages ih =>
    rw [extend] at extended
    split at extended
    · cases extended
    rename_i frames left
    have small : h.top + 4096 < 2 ^ 64 := by omega
    rw [mod_eq_of_lt small] at extended
    have room₁ : h.top + 4096 + 4096 * frames < 2 ^ 64 := by omega
    by_cases here : x < h.top + 4096
    · rw [(extend_spec extended room₁).2.2.2 x here]
      exact if_pos ⟨lower, here⟩
    · exact ih extended room₁ (by simp only; omega)

lemma Heap.extend_total (enough : pages ≤ h.frames) : ∃ h', h.extend pages = some h' := by
  induction pages generalizing h with
  | zero => exact ⟨h, rfl⟩
  | succ pages ih =>
    obtain ⟨frames, left⟩ : ∃ frames, h.frames = frames + 1 := ⟨h.frames - 1, by omega⟩
    simp only [extend, left]
    exact ih (by simp only; omega)

/-! ## Headers -/

lemma Heap.next_lt (h : Heap) (a : Nat) : h.next a < 2 ^ 64 := word_lt h.mem a 8

lemma Heap.slotsFree_lt (h : Heap) (slab : Nat) : h.slotsFree slab < 2 ^ 32 := word_lt h.mem _ 4

/-- `h'` differs from `h` in the free list of a slab and in the bytes of `room`. -/
structure Relists (slab : Nat) (room : Nat → Prop) (h h' : Heap) (first count : Nat) : Prop where
  top : h'.top = h.top
  frames : h'.frames = h.frames
  buckets : h'.buckets = h.buckets
  mem : ∀ x, ¬ (slab + 8 ≤ x ∧ x < slab + 24) → ¬ room x → h'.mem x = h.mem x
  size : h'.slotSize slab = h.slotSize slab
  first : h'.freeList slab = first
  count : h'.slotsFree slab = count

lemma takeSlot_spec (count : h.slotsFree slab = n + 1) :
    (takeSlot h slab).2 = h.freeList slab ∧
      Relists slab (fun _ => False) h (takeSlot h slab).1 (h.next (h.freeList slab)) n := by
  have bound := h.slotsFree_lt slab
  have kept : (h.setFreeList slab (h.next (h.freeList slab))).slotsFree slab = n + 1 :=
    (word_store_disjoint (by omega)).trans count
  refine ⟨rfl, rfl, rfl, rfl, fun x away _ => ?_, ?_, ?_, ?_⟩
  · exact (store_outside (by omega)).trans (store_outside (by omega))
  · exact (word_store_disjoint (by omega)).trans (word_store_disjoint (by omega))
  · exact (word_store_disjoint (by omega)).trans (word_store_same (h.next_lt _))
  · refine (word_store_same ?_).trans ?_
    · exact mod_lt _ (by decide)
    · rw [kept]
      omega

lemma kfree_spec (real : ptr ≠ 0) (page : ptr / 4096 * 4096 = slab)
    (past : slab + 32 ≤ ptr) (fits : ptr < 2 ^ 64) (sized : h.slotSize slab ≠ 0)
    (count : h.slotsFree slab = n) (small : n + 1 < 2 ^ 32) :
    Relists slab (fun x => ptr ≤ x ∧ x < ptr + 8) h (kfree h ptr) ptr (n + 1) ∧
      (kfree h ptr).next ptr = h.freeList slab := by
  have kept : ((h.setNext ptr (h.freeList slab)).setFreeList slab ptr).slotsFree slab = n :=
    ((word_store_disjoint (by omega)).trans (word_store_disjoint (by omega))).trans count
  have freed : kfree h ptr = ((h.setNext ptr (h.freeList slab)).setFreeList slab ptr).setSlotsFree slab
      (n + 1) := by
    simp only [kfree, page, if_neg real, if_neg sized, kept, mod_eq_of_lt small]
  rw [freed]
  refine ⟨⟨rfl, rfl, rfl, fun x away out => ?_, ?_, ?_, ?_⟩, ?_⟩
  · exact ((store_outside (by omega)).trans (store_outside (by omega))).trans (store_outside (by omega))
  · exact ((word_store_disjoint (by omega)).trans (word_store_disjoint (by omega))).trans
      (word_store_disjoint (by omega))
  · exact (word_store_disjoint (by omega)).trans (word_store_same fits)
  · exact word_store_same small
  · exact ((word_store_disjoint (by omega)).trans (word_store_disjoint (by omega))).trans
      (word_store_same (word_lt h.mem _ 8))

lemma takeSlot_mem (away : ¬ (slab + 8 ≤ x ∧ x < slab + 24)) : (takeSlot h slab).1.mem x = h.mem x :=
  (store_outside (by omega)).trans (store_outside (by omega))

/-- Freeing writes a link to the block and the count to what looks like a header. -/
lemma kfree_frame (page : ptr / 4096 * 4096 = slab) :
    (kfree h ptr).top = h.top ∧ (kfree h ptr).frames = h.frames ∧ (kfree h ptr).buckets = h.buckets ∧
    ∀ x, ¬ (ptr ≤ x ∧ x < ptr + 8) → ¬ (slab + 8 ≤ x ∧ x < slab + 24) → (kfree h ptr).mem x = h.mem x := by
  unfold kfree
  simp only [page]
  split
  · exact ⟨rfl, rfl, rfl, fun _ _ _ => rfl⟩
  split
  · exact ⟨rfl, rfl, rfl, fun _ _ _ => rfl⟩
  refine ⟨rfl, rfl, rfl, fun x link header => ?_⟩
  exact ((store_outside (by omega)).trans (store_outside (by omega))).trans (store_outside link)

/-- Where a block comes from: pages of its own, a new slab, or the newest slab. -/
lemma kmalloc_cases {p : Nat} (positive : 0 < size) (given : kmalloc h size = some (h', p)) :
    (getBucketIdx size = none ∧ h.extend ((size + 4095) % 2 ^ 64 / 4096) = some h' ∧ h.top = p) ∨
      ∃ idx, getBucketIdx size = some idx ∧
        (((h.buckets idx = 0 ∨ h.slotsFree (h.buckets idx) = 0) ∧
            ∃ h₁, h.extend 1 = some h₁ ∧ takeSlot (newSlab h₁ h.top idx) h.top = (h', p)) ∨
          (h.buckets idx ≠ 0 ∧ h.slotsFree (h.buckets idx) ≠ 0 ∧ takeSlot h (h.buckets idx) = (h', p))) := by
  rw [kmalloc, if_neg (ne_of_gt positive)] at given
  split at given
  next found =>
    obtain ⟨h₁, extended, result⟩ := map_eq_some_iff.mp given
    obtain ⟨rfl, rfl⟩ := Prod.mk.inj result
    exact .inl ⟨found, extended, rfl⟩
  rename_i idx found
  refine .inr ⟨idx, found, ?_⟩
  split at given
  next full =>
    split at given
    · cases given
    rename_i h₁ slab grown
    obtain ⟨h₂, extended, result⟩ := map_eq_some_iff.mp grown
    obtain ⟨rfl, rfl⟩ := Prod.mk.inj result
    exact .inl ⟨full, h₂, extended, some.inj given⟩
  next usable =>
    obtain ⟨real, some_free⟩ := not_or.mp usable
    exact .inr ⟨real, some_free, some.inj given⟩

/-! ## New slabs -/

/-- The loop threads the slots from `i` to `i + n` and writes nothing else. -/
lemma linkSlots_spec {i : Nat} (size : h.slotSize slab = bucketSize idx)
    (fits : slab + 4096 ≤ 2 ^ 64) (inside : i + n < slotCount idx) :
    (linkSlots slab n i h).top = h.top ∧
      (linkSlots slab n i h).frames = h.frames ∧ (linkSlots slab n i h).buckets = h.buckets ∧
      (∀ x, (∀ k, i ≤ k → k < i + n → ¬ (slot slab idx k ≤ x ∧ x < slot slab idx k + 8)) →
        (linkSlots slab n i h).mem x = h.mem x) ∧
      ∀ k, i ≤ k → k < i + n → (linkSlots slab n i h).next (slot slab idx k) = slot slab idx (k + 1) := by
  induction n generalizing i h with
  | zero => exact ⟨rfl, rfl, rfl, fun _ _ => rfl, fun k lower upper => absurd lower (by omega)⟩
  | succ n ih =>
    have first := slot_start slab idx i
    have last : slot slab idx (i + 1) + bucketSize idx ≤ slab + 4096 := slot_end slab (by omega)
    have width := (bucketSize_facts idx).1
    obtain ⟨h₁, written⟩ : ∃ h₁, h₁ = h.setNext (slot slab idx i) (slot slab idx (i + 1)) := ⟨_, rfl⟩
    have step : linkSlots slab (n + 1) i h = linkSlots slab n (i + 1) h₁ := by
      rw [linkSlots, size, written]
      rfl
    have size₁ : h₁.slotSize slab = bucketSize idx := by
      rw [written, ← size]
      exact word_store_disjoint (by omega)
    have link₁ : h₁.next (slot slab idx i) = slot slab idx (i + 1) := by
      rw [written]
      exact word_store_same (show slot slab idx (i + 1) < 2 ^ 64 by omega)
    have mem₁ : ∀ x, ¬ (slot slab idx i ≤ x ∧ x < slot slab idx i + 8) → h₁.mem x = h.mem x := by
      intro x away
      rw [written]
      exact store_outside away
    have same₁ : h₁.top = h.top ∧ h₁.frames = h.frames ∧ h₁.buckets = h.buckets := by
      rw [written]
      exact ⟨rfl, rfl, rfl⟩
    have inside₁ : i + 1 + n < slotCount idx := by omega
    obtain ⟨top, frames, buckets, mem, links⟩ := ih size₁ inside₁
    rw [step]
    refine ⟨top.trans same₁.1, frames.trans same₁.2.1, buckets.trans same₁.2.2,
      fun x away => ?_, fun k lower upper => ?_⟩
    · rw [mem x fun k lower upper => away k (by omega) (by omega)]
      exact mem₁ x (away i le_rfl (by omega))
    by_cases here : k = i
    · rw [here, ← link₁]
      refine word_congr fun x low high => mem x fun j later _ inside => ?_
      have apart : slot slab idx i + bucketSize idx ≤ slot slab idx j := slot_apart slab later
      omega
    · exact links k (by omega) (by omega)

/-- What a new slab looks like. -/
structure NewSlab (h h' : Heap) (slab : Nat) (idx : Fin 8) : Prop where
  top : h'.top = h.top
  frames : h'.frames = h.frames
  buckets : h'.buckets = Function.update h.buckets idx slab
  mem : ∀ x, ¬ (slab ≤ x ∧ x < slab + 4096) → h'.mem x = h.mem x
  rest : ∀ x, slab + 32 ≤ x →
    (∀ k < slotCount idx, ¬ (slot slab idx k ≤ x ∧ x < slot slab idx k + 8)) → h'.mem x = h.mem x
  next : h'.next slab = h.buckets idx
  size : h'.slotSize slab = bucketSize idx
  first : h'.freeList slab = slot slab idx 0
  count : h'.slotsFree slab = slotCount idx
  links : ∀ k, k + 1 < slotCount idx → h'.next (slot slab idx k) = slot slab idx (k + 1)
  last : h'.next (slot slab idx (slotCount idx - 1)) = 0

lemma newSlab_spec (fits : slab + 4096 ≤ 2 ^ 64) (older : h.buckets idx < 2 ^ 64) :
    NewSlab h (newSlab h slab idx) slab idx := by
  obtain ⟨width, narrow, -, positive, few, -⟩ := bucketSize_facts idx
  have size₀ : (h.setSlotSize slab (bucketSize idx)).slotSize slab = bucketSize idx :=
    word_store_same (show bucketSize idx < 256 ^ 4 by omega)
  obtain ⟨h₁, header⟩ : ∃ h₁, h₁ = (((h.setSlotSize slab (bucketSize idx)).setSlotsFree slab
    (slotCount idx)).setNext slab (h.buckets idx)).setFreeList slab (slab + 32) := ⟨_, rfl⟩
  have same₁ : h₁.top = h.top ∧ h₁.frames = h.frames ∧ h₁.buckets = h.buckets := by
    rw [header]
    exact ⟨rfl, rfl, rfl⟩
  have mem₁ : ∀ x, ¬ (slab ≤ x ∧ x < slab + 32) → h₁.mem x = h.mem x := by
    intro x away
    rw [header]
    exact (((store_outside (by omega)).trans (store_outside (by omega))).trans
      (store_outside (by omega))).trans (store_outside (by omega))
  have first₁ : h₁.freeList slab = slab + 32 := by
    rw [header]
    exact word_store_same (show slab + 32 < 2 ^ 64 by omega)
  have next₁ : h₁.next slab = h.buckets idx := by
    rw [header]
    exact (word_store_disjoint (by omega)).trans (word_store_same older)
  have count₁ : h₁.slotsFree slab = slotCount idx := by
    rw [header]
    exact ((word_store_disjoint (by omega)).trans (word_store_disjoint (by omega))).trans
      (word_store_same (show slotCount idx < 256 ^ 4 by omega))
  have size₁ : h₁.slotSize slab = bucketSize idx := by
    rw [header]
    exact (((word_store_disjoint (by omega)).trans (word_store_disjoint (by omega))).trans
      (word_store_disjoint (by omega))).trans size₀
  have threads : 0 + (slotCount idx - 1) < slotCount idx := by omega
  obtain ⟨top, frames, buckets, mem, links⟩ := linkSlots_spec size₁ fits threads
  obtain ⟨h₂, threaded⟩ : ∃ h₂, h₂ = linkSlots slab (slotCount idx - 1) 0 h₁ := ⟨_, rfl⟩
  rw [← threaded] at top frames buckets mem links
  have mem₂ : ∀ x, ¬ (slab + 32 ≤ x ∧ x < slab + 4096) → h₂.mem x = h₁.mem x := by
    refine fun x away => mem x fun k _ upper inside => away ?_
    have low := slot_start slab idx k
    have high : slot slab idx k + bucketSize idx ≤ slab + 4096 := slot_end slab (by omega)
    omega
  have header₂ : ∀ o n, o + n ≤ 32 → h₂.mem.word (slab + o) n = h₁.mem.word (slab + o) n :=
    fun o n small => word_congr fun x lower upper => mem₂ x (by omega)
  have size₂ : h₂.slotSize slab = bucketSize idx := (header₂ 16 4 (by omega)).trans size₁
  have count₂ : h₂.slotsFree slab = slotCount idx := (header₂ 20 4 (by omega)).trans count₁
  have made : newSlab h slab idx = { h₂.setNext (slot slab idx (slotCount idx - 1)) 0 with
      buckets := update h₂.buckets idx slab } := by
    have count : (4096 - 32) / bucketSize idx = slotCount idx := rfl
    have older₁ : ((h.setSlotSize slab (bucketSize idx)).setSlotsFree slab (slotCount idx)).buckets idx =
      h.buckets idx := rfl
    simp only [newSlab, size₀, count, older₁, ← header, count₁, ← threaded, size₂, count₂]
    rfl
  have low := slot_start slab idx (slotCount idx - 1)
  have high : slot slab idx (slotCount idx - 1) + bucketSize idx ≤ slab + 4096 :=
    slot_end slab (by omega)
  have header₃ : ∀ o n, o + n ≤ 32 →
      (h₂.setNext (slot slab idx (slotCount idx - 1)) 0).mem.word (slab + o) n =
        h₁.mem.word (slab + o) n := fun o n small =>
    (word_store_disjoint (by omega)).trans (header₂ o n small)
  rw [made]
  refine ⟨top.trans same₁.1, frames.trans same₁.2.1, ?_, fun x away => ?_, fun x past away => ?_,
    (header₃ 0 8 (by omega)).trans next₁, (header₃ 16 4 (by omega)).trans size₁, ((header₃ 8 8 (by omega)).trans first₁).trans ?_,
    (header₃ 20 4 (by omega)).trans count₁, fun k inside => ?_, word_store_same (by decide)⟩
  · rw [buckets, same₁.2.2]
  · rw [← mem₁ x (by omega), ← mem₂ x (by omega)]
    exact store_outside (by omega)
  · rw [← mem₁ x (by omega), ← mem x fun k _ upper => away k (by omega)]
    exact store_outside (away _ (by omega))
  · rw [slot, zero_mul, add_zero]
  · have apart : slot slab idx k + bucketSize idx ≤ slot slab idx (slotCount idx - 1) :=
      slot_apart slab (by omega)
    exact (word_store_disjoint (by omega)).trans (links k (zero_le k) (by omega))

lemma NewSlab.linked (made : NewSlab h h' slab idx) :
    Linked 0 h'.next (slot slab idx 0) ((range (slotCount idx)).map (slot slab idx)) := by
  have some_slot := (bucketSize_facts idx).2.2.2.1
  have from_slot : ∀ n k, k + n + 1 = slotCount idx →
      Linked 0 h'.next (slot slab idx k) ((range' k (n + 1)).map (slot slab idx)) := by
    intro n
    induction n with
    | zero =>
      intro k last
      have start := slot_start slab idx k
      refine .cons (by omega) ?_
      have isLast : k = slotCount idx - 1 := by omega
      rw [isLast, made.last]
      exact .nil
    | succ n ih =>
      intro k rest
      have start := slot_start slab idx k
      refine .cons (by omega) ?_
      rw [made.links k (by omega)]
      exact ih (k + 1) (by omega)
  have all := from_slot (slotCount idx - 1) 0 (by omega)
  rwa [Nat.sub_add_cancel some_slot, ← range_eq_range'] at all

end Znu.Mm
