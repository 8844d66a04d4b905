import Znu.Mm.Slab
import Znu.Mm.Teardown

/-! # Frames and the kernel heap

`kmalloc` takes the pages of the heap from the frame allocator and never gives one
back. A `Store` is physical memory with the heap on top, and remembers which frames
the heap has taken. What is in them is only looked at through the heap.
-/

namespace Znu.Mm

open Lib List Znu

structure Store where
  phys : Phys
  heap : Heap
  /-- the frames mapped in the heap -/
  heapFrames : List Nat

namespace Store

/-- The frame is in use, and not by the heap. -/
def Allocated (k : Store) (f : Nat) : Prop := f ∉ k.phys.free ∧ f ∉ k.heapFrames

structure Sound (k : Store) : Prop where
  phys : k.phys.Sound
  apart : ∀ f ∈ k.phys.free, f ∉ k.heapFrames

/-- The heap can grow by as many pages as there are free frames. -/
def kmalloc (k : Store) (size : Nat) : Option (Store × Nat) :=
  (Znu.Mm.kmalloc { k.heap with frames := k.phys.free.length } size).map fun (heap, a) =>
    let taken := k.phys.free.length - heap.frames
    (⟨{ k.phys with free := k.phys.free.drop taken }, heap, k.phys.free.take taken ++ k.heapFrames⟩, a)

def kfree (k : Store) (a : Nat) : Store := { k with heap := Znu.Mm.kfree k.heap a }

/-- Copy bytes into the heap. -/
def fill (k : Store) (a n : Nat) (src : Nat → UInt8) : Store :=
  { k with heap := { k.heap with mem := k.heap.mem.store a n src } }

def kzalloc (k : Store) (size : Nat) : Option (Store × Nat) :=
  (k.kmalloc size).map fun (k, a) => (k.fill a size fun _ => 0, a)

/-- `k'` comes from `k` by calls of the heap: frames only moved from the allocator to the heap. -/
structure HeapOnly (k k' : Store) : Prop where
  taken : k'.phys.free <:+ k.phys.free
  spared : ∀ f, f ∈ k'.phys.free ∨ f ∈ k'.heapFrames ↔ f ∈ k.phys.free ∨ f ∈ k.heapFrames
  mem : k'.phys.mem = k.phys.mem
  sound : k.Sound → k'.Sound

namespace HeapOnly

variable {k k' k'' : Store}

lemma refl (k : Store) : HeapOnly k k := ⟨suffix_rfl, fun _ => .rfl, rfl, id⟩

lemma trans (first : HeapOnly k k') (second : HeapOnly k' k'') : HeapOnly k k'' where
  taken := second.taken.trans first.taken
  spared := fun f => (second.spared f).trans (first.spared f)
  mem := second.mem.trans first.mem
  sound := fun sound => second.sound (first.sound sound)

lemma allocated_iff (calls : HeapOnly k k') (f : Nat) : k'.Allocated f ↔ k.Allocated f := by
  simp only [Allocated, ← not_or, calls.spared f]

lemma of_fill (k : Store) (a n : Nat) (src : Nat → UInt8) : HeapOnly k (k.fill a n src) :=
  ⟨suffix_rfl, fun _ => .rfl, rfl, fun sound => ⟨sound.phys, sound.apart⟩⟩

lemma of_kfree (k : Store) (a : Nat) : HeapOnly k (k.kfree a) :=
  ⟨suffix_rfl, fun _ => .rfl, rfl, fun sound => ⟨sound.phys, sound.apart⟩⟩

lemma of_kmalloc {size a : Nat} (allocated : k.kmalloc size = some (k', a)) : HeapOnly k k' := by
  simp only [kmalloc, Option.map_eq_some_iff] at allocated
  obtain ⟨⟨heap, address⟩, -, same⟩ := allocated
  cases same
  obtain ⟨n, isN⟩ : ∃ n, n = k.phys.free.length - heap.frames := ⟨_, rfl⟩
  have parts := take_append_drop n k.phys.free
  rw [← isN]
  refine ⟨drop_suffix n _, fun f => ?_, rfl, fun sound => ?_⟩
  · have split : f ∈ k.phys.free ↔ f ∈ k.phys.free.take n ∨ f ∈ k.phys.free.drop n := by
      rw [← mem_append, parts]
    rw [split, mem_append]
    tauto
  · have nodup := sound.phys.nodup
    rw [← parts, nodup_append] at nodup
    refine ⟨⟨fun f listed => sound.phys.valid f (mem_of_mem_drop listed), nodup.2.1⟩, ?_⟩
    intro f listed inHeap
    rcases mem_append.mp inHeap with taken | old
    · exact nodup.2.2 f taken f listed rfl
    · exact sound.apart f (mem_of_mem_drop listed) old

lemma of_kzalloc {size a : Nat} (allocated : k.kzalloc size = some (k', a)) : HeapOnly k k' := by
  simp only [kzalloc, Option.map_eq_some_iff] at allocated
  obtain ⟨⟨k₁, address⟩, malloc, same⟩ := allocated
  cases same
  exact (of_kmalloc malloc).trans (of_fill k₁ _ _ _)

end HeapOnly

/-- Requests of whole pages are served from the top of the heap. -/
lemma kmalloc_pages {k : Store} {n : Nat} (large : getBucketIdx n = none)
    (enough : (n + 4095) % 2 ^ 64 / 4096 ≤ k.phys.free.length) (more : n ≠ 0) :
    ∃ k', k.kmalloc n = some (k', k.heap.top) := by
  obtain ⟨h, extended⟩ := Heap.extend_total (h := { k.heap with frames := k.phys.free.length }) enough
  have served : Mm.kmalloc { k.heap with frames := k.phys.free.length } n = some (h, k.heap.top) := by
    rw [Mm.kmalloc, if_neg more, large]
    exact congrArg (Option.map _) extended
  exact ⟨_, by rw [kmalloc, served]; rfl⟩

end Store

end Znu.Mm
