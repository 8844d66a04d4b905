import Znu.Lib.Run
import Znu.Mm.Slab

/-! # Safety of the kernel heap

The heap together with its owners: each live block belongs to whoever asked for it and
may be filled with arbitrary bytes. Whatever they do, live blocks stay apart from each
other and from the slab headers, and the free list of a slab consists of its other
slots.
-/

namespace Znu.Mm

open Lib List Bytes Function Nat

/-- A block that `kmalloc` returned, with the size that was asked for. -/
structure Block where
  ptr : Nat
  size : Nat
  deriving DecidableEq

def Block.stop (b : Block) : Nat := b.ptr + extent b.size

/-- The heap and the blocks in use. -/
structure Owned where
  heap : Heap
  live : List Block

inductive Event
  | kmalloc (size : Nat)
  | kfree (b : Block)
  | write (b : Block) (o n : Nat) (src : Nat → UInt8)

inductive Owned.Step : Owned → Event → Owned → Prop
  | kmalloc {s size h p} (positive : 0 < size) (bound : size ≤ 2 ^ 64 - 4096)
      (given : Mm.kmalloc s.heap size = some (h, p)) :
      Step s (.kmalloc size) ⟨h, ⟨p, size⟩ :: s.live⟩
  | kfree {s b} (owned : b ∈ s.live) :
      Step s (.kfree b) ⟨Mm.kfree s.heap b.ptr, s.live.erase b⟩
  | write {s b o n src} (owned : b ∈ s.live) (inside : o + n ≤ extent b.size) :
      Step s (.write b o n src) ⟨{ s.heap with mem := s.heap.mem.store (b.ptr + o) n src }, s.live⟩

/-! ## The invariant -/

def Block.Apart (b b' : Block) : Prop := b.stop ≤ b'.ptr ∨ b'.stop ≤ b.ptr

def Vacant (live : List Block) (a : Nat) : Prop := ∀ b ∈ live, b.ptr ≠ a

/-- A slab of the given size: its free list has the vacant slots. -/
structure IsSlab (h : Heap) (live : List Block) (idx : Fin 8) (slab : Nat) : Prop where
  aligned : slab % 4096 = 0
  start : heapStart ≤ slab
  below : slab + 4096 ≤ h.top
  size : h.slotSize slab = bucketSize idx
  free : ∃ l, Linked 0 h.next (h.freeList slab) l ∧ h.slotsFree slab = l.length ∧
    ∀ a, a ∈ l ↔ (∃ k < slotCount idx, a = slot slab idx k) ∧ Vacant live a

/-- Where a live block can be: a slot of a slab of its size, or pages of its own. -/
inductive Placed (slabs : Fin 8 → List Nat) (top : Nat) (b : Block) : Prop
  | slot {idx slab k} (size : getBucketIdx b.size = some idx) (listed : slab ∈ slabs idx)
      (inside : k < slotCount idx) (address : b.ptr = slot slab idx k)
  | big (size : getBucketIdx b.size = none) (aligned : b.ptr % 4096 = 0) (start : heapStart ≤ b.ptr)
      (below : b.stop ≤ top)
      (apart : ∀ idx, ∀ slab ∈ slabs idx, slab + 4096 ≤ b.ptr ∨ b.stop ≤ slab)

/-- `slabs` lists the slabs of each size, the newest first. -/
structure Owned.Inv (s : Owned) (slabs : Fin 8 → List Nat) : Prop where
  aligned : s.heap.top % 4096 = 0
  start : heapStart ≤ s.heap.top
  room : s.heap.top + 4096 * s.heap.frames < 2 ^ 64
  chain : ∀ idx, Linked 0 s.heap.next (s.heap.buckets idx) (slabs idx)
  slab : ∀ idx, ∀ slab ∈ slabs idx, IsSlab s.heap s.live idx slab
  placed : ∀ b ∈ s.live, Placed slabs s.heap.top b
  apart : s.live.Pairwise Block.Apart

variable {h : Heap} {live : List Block} {idx idx' : Fin 8} {slab slab' : Nat}

section

variable {h' : Heap} {live' : List Block}

/-- Bytes that the slab uses itself: its header and the links in vacant slots. -/
def Inner (live : List Block) (idx : Fin 8) (slab x : Nat) : Prop :=
  (slab ≤ x ∧ x < slab + 32) ∨
    ∃ k < slotCount idx, Vacant live (slot slab idx k) ∧ slot slab idx k ≤ x ∧ x < slot slab idx k + 8

/-- A slab depends on those bytes only. -/
lemma IsSlab.congr (is_slab : IsSlab h live idx slab) (top : h.top ≤ h'.top)
    (same : ∀ x, Inner live idx slab x → h'.mem x = h.mem x)
    (vacant : ∀ k < slotCount idx, Vacant live' (slot slab idx k) ↔ Vacant live (slot slab idx k)) :
    IsSlab h' live' idx slab := by
  have header : ∀ o n, o + n ≤ 32 → h'.mem.word (slab + o) n = h.mem.word (slab + o) n :=
    fun o n fits => word_congr fun x lower upper => same x (.inl (by omega))
  obtain ⟨l, linked, count, members⟩ := is_slab.free
  refine ⟨is_slab.aligned, is_slab.start, is_slab.below.trans top,
    (header 16 4 (by omega)).trans is_slab.size, l, ?_, (header 20 4 (by omega)).trans count, ?_⟩
  · have first : h'.freeList slab = h.freeList slab := header 8 8 (by omega)
    rw [first]
    refine linked.congr fun a listed => ?_
    obtain ⟨⟨k, inside, rfl⟩, empty⟩ := (members a).mp listed
    exact word_congr fun x lower upper => same x (.inr ⟨k, inside, empty, lower, upper⟩)
  · intro a
    rw [members]
    refine and_congr_right ?_
    rintro ⟨k, inside, rfl⟩
    exact (vacant k inside).symm

lemma IsSlab.size_unique (left : IsSlab h live idx slab) (right : IsSlab h live idx' slab) : idx = idx' :=
  bucketSize_injective (left.size.symm.trans right.size)

lemma inner_bounds {x : Nat} (inner : Inner live idx slab x) : slab ≤ x ∧ x < slab + 4096 := by
  rcases inner with ⟨lower, upper⟩ | ⟨k, inside, -, lower, upper⟩
  · omega
  have stop := slot_end slab inside
  have begin := slot_start slab idx k
  have size := (bucketSize_facts idx).1
  omega

end

variable {a size : Nat} {b : Block} {slabs : Fin 8 → List Nat}

lemma extent_some (found : getBucketIdx size = some idx) : extent size = bucketSize idx := by
  simp only [extent, found]

lemma extent_pos (positive : 0 < size) : 0 < extent size :=
  positive.trans_le (le_extent size)

lemma free_length {l : List Nat} (once : l.Nodup)
    (slots : ∀ a ∈ l, ∃ k < slotCount idx, a = slot slab idx k) : l.length ≤ slotCount idx := by
  have covered : l ⊆ (range (slotCount idx)).map (slot slab idx) := by
    intro a listed
    obtain ⟨k, inside, rfl⟩ := slots a listed
    exact mem_map_of_mem (mem_range.mpr inside)
  have short := (once.subperm covered).length_le
  rwa [length_map, length_range] at short

lemma vacant_cons : Vacant (b :: live) a ↔ b.ptr ≠ a ∧ Vacant live a :=
  forall_mem_cons

lemma vacant_erase (other : b.ptr ≠ a) : Vacant (live.erase b) a ↔ Vacant live a := by
  refine ⟨fun vacant c owned => ?_, fun vacant c remains => vacant c (mem_of_mem_erase remains)⟩
  by_cases same : c = b
  · exact same ▸ other
  · exact vacant c ((mem_erase_of_ne same).mpr owned)

lemma mem_grown {fresh : Nat} :
    slab ∈ update slabs idx (fresh :: slabs idx) idx' ↔ (idx' = idx ∧ slab = fresh) ∨ slab ∈ slabs idx' := by
  by_cases same : idx' = idx
  · subst same
    simp
  · simp [same]

variable {s s' : Owned}

namespace Owned.Inv

variable {k : Nat}

section

variable (inv : s.Inv slabs) (listed : slab ∈ slabs idx)

include inv listed

lemma pages_apart (listed' : slab' ∈ slabs idx') (other : slab ≠ slab') :
    slab + 4096 ≤ slab' ∨ slab' + 4096 ≤ slab := by
  have aligned := (inv.slab idx slab listed).aligned
  have aligned' := (inv.slab idx' slab' listed').aligned
  omega

lemma block_in_slab (owned : b ∈ s.live) :
    b.stop ≤ slab ∨ slab + 4096 ≤ b.ptr ∨
      ∃ k < slotCount idx, b.ptr = slot slab idx k ∧ b.stop = slot slab idx k + bucketSize idx := by
  cases inv.placed b owned with
  | big size aligned start below apart =>
    rcases apart idx slab listed with above | under
    · exact .inr (.inl above)
    · exact .inl under
  | @slot idx' slab' k size listed' inside address =>
    have stop : b.stop = slot slab' idx' k + bucketSize idx' := by
      rw [Block.stop, address, extent_some size]
    by_cases same : slab' = slab
    · subst same
      have isIdx := (inv.slab idx slab' listed).size_unique (inv.slab idx' slab' listed')
      subst isIdx
      exact .inr (.inr ⟨k, inside, address, stop⟩)
    have upper := slot_end slab' inside
    have lower := slot_start slab' idx' k
    rcases inv.pages_apart listed' listed same with before | after
    · exact .inl (by omega)
    · exact .inr (.inl (by omega))

lemma block_header (owned : b ∈ s.live) : b.stop ≤ slab ∨ slab + 32 ≤ b.ptr := by
  rcases inv.block_in_slab listed owned with under | above | ⟨k, inside, address, stop⟩
  · exact .inl under
  · exact .inr (by omega)
  · exact .inr (address ▸ slot_start slab idx k)

lemma block_vacant (owned : b ∈ s.live) (inside : k < slotCount idx)
    (vacant : Vacant s.live (slot slab idx k)) :
    b.stop ≤ slot slab idx k ∨ slot slab idx k + bucketSize idx ≤ b.ptr := by
  have lower := slot_start slab idx k
  have upper := slot_end slab inside
  rcases inv.block_in_slab listed owned with under | above | ⟨j, inside', address, stop⟩
  · exact .inl (by omega)
  · exact .inr (by omega)
  · have other : j ≠ k := fun same => vacant b owned (same ▸ address)
    rcases lt_or_gt_of_ne other with before | after
    · exact .inl (stop ▸ slot_apart slab before)
    · exact .inr (address ▸ slot_apart slab after)

/-- What a block's owner writes is no business of a slab. -/
lemma block_inner (owned : b ∈ s.live) {x : Nat} (inner : Inner s.live idx slab x) :
    ¬ (b.ptr ≤ x ∧ x < b.stop) := by
  rcases inner with ⟨lower, upper⟩ | ⟨k, inside, vacant, lower, upper⟩
  · have apart := inv.block_header listed owned
    omega
  have apart := inv.block_vacant listed owned inside vacant
  have size := (bucketSize_facts idx).1
  omega

end

lemma block_below (inv : s.Inv slabs) (owned : b ∈ s.live) : b.stop ≤ s.heap.top := by
  cases inv.placed b owned with
  | big size aligned start below apart => exact below
  | @slot idx slab k size listed inside address =>
    have below := (inv.slab idx slab listed).below
    have upper := slot_end slab inside
    rw [Block.stop, address, extent_some size]
    omega

/-- The slabs do not notice a change to other bytes. -/
lemma mem_congr (inv : s.Inv slabs) (top : h.top = s.heap.top) (frames : h.frames = s.heap.frames)
    (buckets : h.buckets = s.heap.buckets)
    (same : ∀ idx, ∀ slab ∈ slabs idx, ∀ x, Inner s.live idx slab x → h.mem x = s.heap.mem x) :
    Inv ⟨h, s.live⟩ slabs where
  aligned := top ▸ inv.aligned
  start := top ▸ inv.start
  room := by
    rw [top, frames]
    exact inv.room
  chain idx := by
    have chain := inv.chain idx
    simp only [buckets]
    exact chain.congr fun slab listed =>
      word_congr fun x lower upper => same idx slab listed x (.inl (by omega))
  slab idx slab listed :=
    (inv.slab idx slab listed).congr top.ge (same idx slab listed) fun _ _ => Iff.rfl
  placed := top ▸ inv.placed
  apart := inv.apart

lemma write (inv : s.Inv slabs) (owned : b ∈ s.live) {o n : Nat} (inside : o + n ≤ extent b.size)
    (src : Nat → UInt8) :
    Inv ⟨{ s.heap with mem := s.heap.mem.store (b.ptr + o) n src }, s.live⟩ slabs := by
  refine inv.mem_congr rfl rfl rfl fun idx slab listed x inner => store_outside fun range => ?_
  have stop : b.stop = b.ptr + extent b.size := rfl
  exact inv.block_inner listed owned inner (by omega)

/-! ## Taking a slot -/

variable {j : Nat}

/-- Slots of another slab are elsewhere. -/
lemma slot_elsewhere (inv : s.Inv slabs) (listed : slab ∈ slabs idx) (listed' : slab' ∈ slabs idx')
    (other : slab' ≠ slab) (inside : k < slotCount idx) (inside' : j < slotCount idx') :
    slot slab idx k ≠ slot slab' idx' j := by
  have pages := inv.pages_apart listed listed' other.symm
  have lower := slot_start slab idx k
  have upper := slot_end slab inside
  have lower' := slot_start slab' idx' j
  have upper' := slot_end slab' inside'
  omega

lemma slots_apart (other : slot slab idx k ≠ slot slab idx j) :
    slot slab idx k + 8 ≤ slot slab idx j ∨ slot slab idx j + 8 ≤ slot slab idx k := by
  have size := (bucketSize_facts idx).1
  rcases lt_trichotomy k j with before | same | after
  · have : slot slab idx k + bucketSize idx ≤ slot slab idx j := slot_apart slab before
    omega
  · exact absurd (same ▸ rfl) other
  · have : slot slab idx j + bucketSize idx ≤ slot slab idx k := slot_apart slab after
    omega

/-- A change inside one slab's page: the others are as before, so is their order. -/
lemma update_slab (inv : s.Inv slabs) (listed : slab ∈ slabs idx)
    (top : h.top = s.heap.top) (frames : h.frames = s.heap.frames)
    (buckets : h.buckets = s.heap.buckets)
    (mem : ∀ x, ¬ (slab + 8 ≤ x ∧ x < slab + 4096) → h.mem x = s.heap.mem x)
    (vacant : ∀ idx', ∀ slab' ∈ slabs idx', slab' ≠ slab → ∀ j < slotCount idx',
      Vacant live (slot slab' idx' j) ↔ Vacant s.live (slot slab' idx' j))
    (changed : IsSlab h live idx slab) (placed : ∀ b ∈ live, Placed slabs s.heap.top b)
    (apart : live.Pairwise Block.Apart) : Inv ⟨h, live⟩ slabs where
  aligned := top ▸ inv.aligned
  start := top ▸ inv.start
  room := by
    rw [top, frames]
    exact inv.room
  chain idx' := by
    have chain := inv.chain idx'
    simp only [buckets]
    refine chain.congr fun slab' listed' => word_congr fun x lower upper => mem x fun inside => ?_
    have aligned := (inv.slab idx slab listed).aligned
    have aligned' := (inv.slab idx' slab' listed').aligned
    omega
  slab idx' slab' listed' := by
    by_cases same : slab' = slab
    · subst same
      have isIdx := (inv.slab idx' slab' listed').size_unique (inv.slab idx slab' listed)
      exact isIdx ▸ changed
    refine (inv.slab idx' slab' listed').congr top.ge (fun x inner => mem x fun inside => ?_)
      (vacant idx' slab' listed' same)
    have bounds := inner_bounds inner
    have pages := inv.pages_apart listed' listed same
    omega
  placed := top ▸ placed
  apart := apart

lemma takeSlot (inv : s.Inv slabs) (found : getBucketIdx size = some idx)
    (listed : slab ∈ slabs idx) (some_free : s.heap.slotsFree slab ≠ 0) :
    Inv ⟨(Mm.takeSlot s.heap slab).1, ⟨(Mm.takeSlot s.heap slab).2, size⟩ :: s.live⟩ slabs := by
  have is_slab := inv.slab idx slab listed
  obtain ⟨l, linked, count, members⟩ := is_slab.free
  cases l with
  | nil => exact absurd count some_free
  | cons a l =>
    obtain ⟨first, real, rest⟩ := linked.head
    obtain ⟨result, relists⟩ := takeSlot_spec count
    rw [first] at result relists
    rw [result]
    obtain ⟨⟨k, inside, isSlot⟩, vacant⟩ := (members a).mp mem_cons_self
    refine inv.update_slab listed relists.top relists.frames relists.buckets
      (fun x away => relists.mem x (by omega) id) (fun idx' slab' listed' other j inside' => ?_)
      ⟨is_slab.aligned, is_slab.start, relists.top ▸ is_slab.below, relists.size.trans is_slab.size,
        l, ?_, relists.count, fun c => ?_⟩
      (fun b owned => ?_) (pairwise_cons.mpr ⟨fun b owned => ?_, inv.apart⟩)
    · rw [vacant_cons, isSlot]
      exact and_iff_right (inv.slot_elsewhere listed listed' other inside inside')
    · rw [relists.first]
      refine rest.congr fun c later => word_congr fun x lower _ => relists.mem x ?_ id
      obtain ⟨⟨j, -, rfl⟩, -⟩ := (members c).mp (mem_cons_of_mem _ later)
      have start := slot_start slab idx j
      omega
    · have fresh := (nodup_cons.mp linked.nodup).1
      rw [vacant_cons]
      constructor
      · intro later
        obtain ⟨isSlot', vacant'⟩ := (members c).mp (mem_cons_of_mem _ later)
        exact ⟨isSlot', fun same : a = c => fresh (same ▸ later), vacant'⟩
      · rintro ⟨isSlot', other, vacant'⟩
        exact (mem_cons.mp ((members c).mpr ⟨isSlot', vacant'⟩)).resolve_left (Ne.symm other)
    · rcases mem_cons.mp owned with rfl | earlier
      · exact .slot found listed inside isSlot
      · exact inv.placed b earlier
    · have apart := inv.block_vacant listed owned inside (isSlot ▸ vacant)
      rw [Block.Apart, Block.stop, extent_some found]
      simp only [isSlot]
      omega

/-! ## Freeing -/

section

variable (inv : s.Inv slabs) (owned : b ∈ s.live)

include inv owned

lemma block_pos : b.ptr < b.stop := by
  have positive : 0 < extent b.size := by
    cases inv.placed b owned with
    | big size => exact extent_pos ((zero_lt_succ _).trans (getBucketIdx_none size))
    | @slot idx _ _ size =>
      rw [extent_some size]
      exact (zero_lt_succ _).trans_le (bucketSize_facts idx).1
  rw [Block.stop]
  omega

/-- No other live block is at the same address. -/
lemma vacant_freed : Vacant (s.live.erase b) b.ptr := by
  intro c other same
  have pairs : (b :: s.live.erase b).Pairwise Block.Apart :=
    (Perm.pairwise_iff (fun apart => Or.symm apart) (perm_cons_erase owned)).mp inv.apart
  have apart := (pairwise_cons.mp pairs).1 c other
  have positive := inv.block_pos owned
  have positive' := inv.block_pos (mem_of_mem_erase other)
  rw [Block.Apart] at apart
  omega

lemma freeSlot (listed : slab ∈ slabs idx) (inside : k < slotCount idx)
    (address : b.ptr = slot slab idx k) : Inv ⟨kfree s.heap b.ptr, s.live.erase b⟩ slabs := by
  have is_slab := inv.slab idx slab listed
  obtain ⟨l, linked, count, members⟩ := is_slab.free
  obtain ⟨width, -, -, -, few, -⟩ := bucketSize_facts idx
  have short := free_length linked.nodup fun a later => ((members a).mp later).1
  have low := slot_start slab idx k
  have high := slot_end slab inside
  have below := is_slab.below
  have room := inv.room
  obtain ⟨relists, link⟩ := kfree_spec (h := s.heap) (n := l.length) (by omega)
    (address ▸ slot_page is_slab.aligned inside) (by omega) (by omega) (by rw [is_slab.size]; omega)
    count (by omega)
  have others : ∀ c, b.ptr ≠ c → (Vacant (s.live.erase b) c ↔ Vacant s.live c) := fun c => vacant_erase
  refine inv.update_slab listed relists.top relists.frames relists.buckets
    (fun x away => relists.mem x (by omega) (by omega))
    (fun idx' slab' listed' other j inside' => others _ ?_)
    ⟨is_slab.aligned, is_slab.start, relists.top ▸ is_slab.below, relists.size.trans is_slab.size,
      b.ptr :: l, ?_, relists.count, fun c => ?_⟩
    (fun c remains => inv.placed c (mem_of_mem_erase remains))
    (inv.apart.sublist erase_sublist)
  · exact address ▸ inv.slot_elsewhere listed listed' other inside inside'
  · rw [relists.first]
    refine .cons (by omega) ?_
    rw [link]
    refine linked.congr fun c later => word_congr fun x lower upper => ?_
    obtain ⟨⟨j, -, rfl⟩, vacant⟩ := (members c).mp later
    have start := slot_start slab idx j
    have apart := slots_apart (address ▸ vacant b owned)
    exact relists.mem x (by omega) (by omega)
  · by_cases same : c = b.ptr
    · subst same
      exact ⟨fun _ => ⟨⟨k, inside, address⟩, inv.vacant_freed owned⟩, fun _ => mem_cons_self⟩
    · rw [mem_cons, or_iff_right same, members, others c (Ne.symm same)]

lemma freeBig (size : getBucketIdx b.size = none) (aligned : b.ptr % 4096 = 0)
    (apart : ∀ idx, ∀ slab ∈ slabs idx, slab + 4096 ≤ b.ptr ∨ b.stop ≤ slab) :
    Inv ⟨kfree s.heap b.ptr, s.live.erase b⟩ slabs := by
  have page : b.ptr / 4096 * 4096 = b.ptr := by omega
  obtain ⟨top, frames, buckets, mem⟩ := kfree_frame (h := s.heap) page
  have long : b.ptr + 2048 < b.stop := by
    have large := getBucketIdx_none size
    have covers := le_extent b.size
    rw [Block.stop]
    omega
  have written := inv.mem_congr top frames buckets fun idx slab listed x inner =>
    mem x (fun inside => inv.block_inner listed owned inner (by omega))
      fun inside => inv.block_inner listed owned inner (by omega)
  refine ⟨written.aligned, written.start, written.room, written.chain, fun idx slab listed => ?_,
    fun c remains => written.placed c (mem_of_mem_erase remains),
    inv.apart.sublist erase_sublist⟩
  refine (written.slab idx slab listed).congr le_rfl (fun _ _ => rfl) fun j inside => vacant_erase ?_
  have low := slot_start slab idx j
  have high := slot_end slab inside
  have pages := apart idx slab listed
  have width := (bucketSize_facts idx).1
  omega

lemma free : Inv ⟨kfree s.heap b.ptr, s.live.erase b⟩ slabs := by
  cases inv.placed b owned with
  | slot size listed inside address => exact inv.freeSlot owned listed inside address
  | big size aligned start below apart => exact inv.freeBig owned size aligned apart

end

/-! ## Growing -/

lemma giveBig (inv : s.Inv slabs) (found : getBucketIdx size = none)
    (bound : size ≤ 2 ^ 64 - 4096) (given : s.heap.extend ((size + 4095) % 2 ^ 64 / 4096) = some h) :
    Inv ⟨h, ⟨s.heap.top, size⟩ :: s.live⟩ slabs := by
  obtain ⟨top, buckets, supply, mem⟩ := Heap.extend_spec given inv.room
  have stop : Block.stop ⟨s.heap.top, size⟩ = h.top := by
    simp only [Block.stop, extent, found, top]
    omega
  have inner : ∀ idx, ∀ slab ∈ slabs idx, ∀ x, slab ≤ x → x < slab + 4096 → h.mem x = s.heap.mem x := by
    intro idx slab listed x lower upper
    have below := (inv.slab idx slab listed).below
    exact mem x (by omega)
  have aligned := inv.aligned
  refine ⟨by simp only; omega, inv.start.trans (by simp only; omega),
    by simp only [supply]; exact inv.room, fun idx => ?_, fun idx slab listed => ?_, fun b owned => ?_,
    pairwise_cons.mpr ⟨fun b owned => .inr (inv.block_below owned), inv.apart⟩⟩
  · have chain := inv.chain idx
    simp only [buckets]
    exact chain.congr fun slab listed => word_congr fun x lower upper =>
      inner idx slab listed x lower (by omega)
  · refine (inv.slab idx slab listed).congr (by simp only; omega) (fun x used => ?_) fun k inside => ?_
    · have bounds := inner_bounds used
      exact inner idx slab listed x bounds.1 bounds.2
    · have below := (inv.slab idx slab listed).below
      have high := slot_end slab inside
      have width := (bucketSize_facts idx).1
      exact vacant_cons.trans (and_iff_right (by simp only; omega))
  · rcases mem_cons.mp owned with rfl | earlier
    · exact .big found aligned inv.start stop.le fun idx slab listed =>
        .inl (inv.slab idx slab listed).below
    cases inv.placed b earlier with
    | slot size listed inside address => exact .slot size listed inside address
    | big size aligned start below apart =>
      exact .big size aligned start (below.trans (by simp only; omega)) apart

lemma newest_lt (inv : s.Inv slabs) (idx : Fin 8) : s.heap.buckets idx < 2 ^ 64 := by
  by_cases none : s.heap.buckets idx = 0
  · rw [none]
    decide
  obtain ⟨tail, isHead⟩ := (inv.chain idx).of_ne_null none
  have below := (inv.slab idx _ (isHead ▸ mem_cons_self)).below
  have room := inv.room
  omega

lemma newSlab (inv : s.Inv slabs) (given : s.heap.extend 1 = some h) (idx : Fin 8) :
    Inv ⟨Mm.newSlab h s.heap.top idx, s.live⟩ (update slabs idx (s.heap.top :: slabs idx)) ∧
      (Mm.newSlab h s.heap.top idx).slotsFree s.heap.top ≠ 0 := by
  obtain ⟨top, buckets, supply, mem⟩ := Heap.extend_spec given inv.room
  have room := inv.room
  have aligned := inv.aligned
  have made : NewSlab h (Mm.newSlab h s.heap.top idx) s.heap.top idx :=
    newSlab_spec (by omega) (by rw [buckets]; exact inv.newest_lt idx)
  generalize Mm.newSlab h s.heap.top idx = h' at made ⊢
  have some_slot := (bucketSize_facts idx).2.2.2.1
  have start := inv.start
  have old : ∀ x < s.heap.top, h'.mem x = s.heap.mem x := fun x below =>
    (made.mem x (by omega)).trans (mem x below)
  have older : ∀ idx', Linked 0 h'.next (s.heap.buckets idx') (slabs idx') := fun idx' =>
    (inv.chain idx').congr fun slab listed => word_congr fun x lower upper => by
      have below := (inv.slab idx' slab listed).below
      exact old x (by omega)
  have kept : ∀ idx', ∀ slab ∈ slabs idx', IsSlab h' s.live idx' slab := by
    intro idx' slab listed
    have below := (inv.slab idx' slab listed).below
    refine (inv.slab idx' slab listed).congr (by rw [made.top]; omega) (fun x inner => ?_) fun _ _ => Iff.rfl
    have bounds := inner_bounds inner
    exact old x (by omega)
  have fresh : IsSlab h' s.live idx s.heap.top := by
    refine ⟨aligned, start, by rw [made.top, top], made.size, _, made.first ▸ made.linked, ?_, fun a => ?_⟩
    · rw [made.count, length_map, length_range]
    simp only [mem_map, mem_range]
    constructor
    · rintro ⟨k, inside, rfl⟩
      refine ⟨⟨k, inside, rfl⟩, fun b owned => ?_⟩
      have below := inv.block_below owned
      have positive := inv.block_pos owned
      have low := slot_start s.heap.top idx k
      omega
    · rintro ⟨⟨k, inside, rfl⟩, -⟩
      exact ⟨k, inside, rfl⟩
  refine ⟨⟨by simp only [made.top]; omega, inv.start.trans (by simp only [made.top]; omega), ?_,
    fun idx' => ?_, fun idx' slab listed => ?_, fun b owned => ?_, inv.apart⟩, by rw [made.count]; omega⟩
  · simp only [made.top, made.frames]
    omega
  · simp only [made.buckets, buckets]
    by_cases same : idx' = idx
    · subst same
      rw [update_self, update_self]
      refine .cons (by rw [heapStart] at start; omega) ?_
      rw [made.next, buckets]
      exact older idx'
    · rw [update_of_ne same, update_of_ne same]
      exact older idx'
  · rcases mem_grown.mp listed with ⟨rfl, rfl⟩ | earlier
    · exact fresh
    · exact kept idx' slab earlier
  · cases inv.placed b owned with
    | slot size listed inside address =>
      exact .slot size (mem_grown.mpr (.inr listed)) inside address
    | big size aligned start below apart =>
      refine .big size aligned start (below.trans (by rw [made.top]; omega)) fun idx' slab listed => ?_
      rcases mem_grown.mp listed with ⟨-, rfl⟩ | earlier
      · exact .inr below
      · exact apart idx' slab earlier

end Owned.Inv

/-! ## Every run -/

/-- Every step keeps the invariant, with a slab more if the heap needed one. -/
lemma Owned.Step.inv {e : Event} (step : s.Step e s') (inv : ∃ slabs, s.Inv slabs) :
    ∃ slabs, s'.Inv slabs := by
  obtain ⟨slabs, inv⟩ := inv
  cases step with
  | kfree owned => exact ⟨slabs, inv.free owned⟩
  | write owned inside => exact ⟨slabs, inv.write owned inside _⟩
  | @kmalloc size h p positive bound given =>
    rcases kmalloc_cases positive given with
      ⟨found, extended, rfl⟩ | ⟨idx, found, ⟨-, h₁, extended, given⟩ | ⟨real, some_free, given⟩⟩
    · exact ⟨slabs, inv.giveBig found bound extended⟩
    · obtain ⟨inv₁, some_free⟩ := inv.newSlab extended idx
      have taken := inv₁.takeSlot found (mem_grown.mpr (.inl ⟨rfl, rfl⟩)) some_free
      rw [given] at taken
      exact ⟨_, taken⟩
    · obtain ⟨tail, isHead⟩ := (inv.chain idx).of_ne_null real
      have taken := inv.takeSlot found (isHead ▸ mem_cons_self) some_free
      rw [given] at taken
      exact ⟨slabs, taken⟩

lemma Owned.inv_of_run {es : List Event}
    (memory : heapStart + 4096 * h.frames < 2 ^ 64) (run : Run Owned.Step ⟨initSlab h, []⟩ es s) :
    ∃ slabs, s.Inv slabs := by
  have start : Owned.Inv ⟨initSlab h, []⟩ fun _ => [] :=
    ⟨(show heapStart % 4096 = 0 by decide), le_rfl, memory, fun _ => .nil, by simp, by simp, .nil⟩
  have reached := run.invariant (fun s e s' inv step => step.inv inv) ⟨_, start⟩
  exact reached

/-- What the owners rely on, and what the heap keeps for itself. -/
structure Owned.Safe (s : Owned) : Prop where
  apart : s.live.Pairwise Block.Apart
  block : ∀ b ∈ s.live, b.ptr % 16 = 0 ∧ b.size ≤ extent b.size ∧ heapStart ≤ b.ptr ∧ b.stop ≤ s.heap.top
  slabs : ∀ idx, ∃ slabs, Linked 0 s.heap.next (s.heap.buckets idx) slabs ∧ ∀ slab ∈ slabs,
    (∀ b ∈ s.live, b.stop ≤ slab ∨ slab + 32 ≤ b.ptr) ∧
    ∃ free, Linked 0 s.heap.next (s.heap.freeList slab) free ∧ free.Nodup ∧
      s.heap.slotsFree slab = free.length ∧
      ∀ a, a ∈ free ↔ (∃ k < slotCount idx, a = slot slab idx k) ∧ Vacant s.live a

lemma Owned.Inv.safe (inv : s.Inv slabs) : s.Safe where
  apart := inv.apart
  block b owned := by
    refine ⟨?_, le_extent b.size, ?_, inv.block_below owned⟩
    all_goals cases inv.placed b owned with
      | @slot idx slab k size listed inside address =>
        have is_slab := inv.slab idx slab listed
        have low := slot_start slab idx k
        have start := is_slab.start
        have whole : slot slab idx k % 16 = 0 := slot_aligned is_slab.aligned
        omega
      | big size aligned start below apart => omega
  slabs idx := by
    refine ⟨slabs idx, inv.chain idx, fun slab listed => ⟨fun b => inv.block_header listed, ?_⟩⟩
    obtain ⟨free, linked, count, members⟩ := (inv.slab idx slab listed).free
    exact ⟨free, linked, linked.nodup, count, members⟩

/-- The heap is safe in every state of every run. Its address range is larger than the
    memory it is made of. -/
theorem heap_is_safe {h : Heap} {s : Owned} {es : List Event}
    (memory : heapStart + 4096 * h.frames < 2 ^ 64)
    (run : Run Owned.Step ⟨initSlab h, []⟩ es s) : s.Safe := by
  obtain ⟨slabs, inv⟩ := Owned.inv_of_run memory run
  exact inv.safe

/-- Three blocks are given, one of them of whole pages, and the first is freed. -/
theorem two_blocks_are_safe : ∃ p q r s,
    Run Owned.Step ⟨initSlab ⟨fun _ => 0, 0, fun _ => 0, 3⟩, []⟩
      [.kmalloc 24, .kmalloc 5000, .kmalloc 24, .kfree ⟨p, 24⟩, .write ⟨q, 5000⟩ 0 5000 fun _ => 0xff] s ∧
    s.live = [⟨r, 24⟩, ⟨q, 5000⟩] ∧ s.Safe := by
  obtain ⟨⟨h₁, p⟩, first, rest⟩ := Option.bind_eq_some_iff.mp
    (by decide +kernel : ((kmalloc (initSlab ⟨fun _ => 0, 0, fun _ => 0, 3⟩) 24).bind fun a =>
      (kmalloc a.1 5000).bind fun b => (kmalloc b.1 24).map fun c => decide (c.2 ≠ a.2)) = some true)
  obtain ⟨⟨h₂, q⟩, second, rest⟩ := Option.bind_eq_some_iff.mp rest
  obtain ⟨⟨h₃, r⟩, third, other⟩ := Option.map_eq_some_iff.mp rest
  have apart : r ≠ p := of_decide_eq_true other
  have live : ([⟨r, 24⟩, ⟨q, 5000⟩, ⟨p, 24⟩] : List Block).erase ⟨p, 24⟩ = [⟨r, 24⟩, ⟨q, 5000⟩] := by
    simp [apart]
  have inside : 0 + 5000 ≤ extent 5000 := by decide
  have big : (⟨q, 5000⟩ : Block) ∈ ([⟨r, 24⟩, ⟨q, 5000⟩, ⟨p, 24⟩] : List Block).erase ⟨p, 24⟩ := by simp [live]
  have run : Run Owned.Step ⟨initSlab ⟨fun _ => 0, 0, fun _ => 0, 3⟩, []⟩
      [.kmalloc 24, .kmalloc 5000, .kmalloc 24, .kfree ⟨p, 24⟩,
        .write ⟨q, 5000⟩ 0 5000 fun _ => 0xff] _ :=
    .cons (.kmalloc (by decide) (by decide) first) (.cons (.kmalloc (by decide) (by decide) second)
      (.cons (.kmalloc (by decide) (by decide) third) (.cons (.kfree (by simp))
        (.cons (.write big inside) (.nil _)))))
  exact ⟨p, q, r, _, run, live, heap_is_safe (by decide) run⟩

end Znu.Mm
