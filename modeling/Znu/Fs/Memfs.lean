import Znu.Mm.HeapContents

/-! # Files in memory

The contents of a memfs file are one block of the kernel heap, which `krealloc` replaces
whenever a write goes past the end. `ByteFile` is what a file should be: a sequence of
bytes that reads as zeros where nothing has been written. The two part company where the
new block is not clear, or where `krealloc` takes the old block for smaller than it is.
-/

namespace Znu.Fs

open Lib Mm Option List Bytes UInt8 Owned

/-- The heap, and the fields of the node that the two functions use. -/
structure MemNode where
  heap : Heap
  data : Nat
  size : Nat

/-- Conversion to `int` -/
def toInt (n : Nat) : Int := ((n + 2 ^ 31) % 2 ^ 32 : Nat) - 2 ^ 31

/-- The return value and the bytes stored in the buffer. -/
def memVfsRead (node : MemNode) (size offset : Nat) : Int × List UInt8 :=
  if node.data = 0 ∨ node.size ≤ offset then (0, []) else
  let toRead := if node.size < (offset + size) % 2 ^ 64 then node.size - offset else size
  (toInt toRead, (List.range toRead).map fun i => node.heap.mem ((node.data + offset + i) % 2 ^ 64))

/-- The `memcpy` of `mem_vfs_write` -/
def MemNode.fill (node : MemNode) (size : Nat) (src : Nat → UInt8) (offset : Nat) : MemNode :=
  { node with heap := { node.heap with
      mem := node.heap.mem.store ((node.data + offset) % 2 ^ 64) size src } }

def enomem : Int := 12

def memVfsWrite (node : MemNode) (size : Nat) (src : Nat → UInt8) (offset : Nat) :
    Option (MemNode × Int) :=
  let requiredSize := (offset + size) % 2 ^ 64
  if node.size < requiredSize then
    match krealloc node.heap node.data requiredSize with
    | none => none
    | some (heap, newData) =>
      if newData = 0 ∧ 0 < requiredSize then some ({ node with heap := heap }, -enomem)
      else some (MemNode.fill ⟨heap, newData, requiredSize⟩ size src offset, toInt size)
  else some (node.fill size src offset, toInt size)

inductive MemOp
  | read (size offset : Nat)
  | write (size : Nat) (src : Nat → UInt8) (offset : Nat)

def MemNode.next (node : MemNode) : MemOp → Option MemNode
  | .read _ _ => some node
  | .write size src offset => (memVfsWrite node size src offset).map (·.1)

abbrev Step (node : MemNode) (op : MemOp) (node' : MemNode) : Prop := node.next op = some node'

/-! ## What a file should be -/

/-- Bytes past the end are zero. -/
structure ByteFile where
  length : Nat
  bytes : Bytes

namespace ByteFile

def empty : ByteFile := ⟨0, fun _ => 0⟩

def read (r : ByteFile) (size offset : Nat) : Int × List UInt8 :=
  let n := min size (r.length - offset)
  (n, (List.range n).map fun i => r.bytes (offset + i))

def write (r : ByteFile) (size : Nat) (src : Nat → UInt8) (offset : Nat) : ByteFile :=
  ⟨max r.length (offset + size), r.bytes.store offset size src⟩

@[simp] lemma write_length (r : ByteFile) (size : Nat) (src : Nat → UInt8) (offset : Nat) :
    (r.write size src offset).length = max r.length (offset + size) := rfl
@[simp] lemma write_bytes (r : ByteFile) (size : Nat) (src : Nat → UInt8) (offset : Nat) :
    (r.write size src offset).bytes = r.bytes.store offset size src := rfl

def record (_ : MemNode) (op : MemOp) (r : ByteFile) : ByteFile :=
  match op with
  | .read _ _ => r
  | .write size src offset => r.write size src offset

/-- How much of the file `krealloc` copies: a slot, or what the file itself says. -/
def keptLength (r : ByteFile) : Nat :=
  if r.length ≤ 2048 then extent r.length else
  let word := r.bytes.word 16 4
  if 0 < word ∧ word ≤ 2048 then word else 4096

/-- Growing loses nothing: what is not copied is overwritten or zero. -/
def Kept (r : ByteFile) (size offset : Nat) : Prop :=
  r.length < offset + size → ∀ x, r.keptLength ≤ x → x < r.length → x < offset → r.bytes x = 0

/-- A gap is left only in fresh pages, and no remains of an old slot come to lie in it. -/
def Bridged (r : ByteFile) (size offset : Nat) : Prop :=
  r.length < offset → 2048 < offset + size ∧ (r.length = 0 ∨ r.keptLength ≤ r.length ∨ 2048 < r.length)

/-- Nothing wraps, and the number of bytes is an `int`. -/
def Readable (r : ByteFile) (size offset : Nat) : Prop :=
  (r.length ≤ offset ∨ offset + size < 2 ^ 64) ∧ min size (r.length - offset) < 2 ^ 31

def Fits (x : MemNode × ByteFile) : MemOp → Prop
  | .read _ _ => True
  | .write size _ offset =>
    offset + size ≤ 2 ^ 64 - 4096 ∧ x.2.Kept size offset ∧ x.2.Bridged size offset

end ByteFile

open ByteFile

/-- The node has the length and the bytes of the file. -/
def Same (node : MemNode) (r : ByteFile) : Prop :=
  node.size = r.length ∧ ∀ x < r.length, node.heap.mem (node.data + x) = r.bytes x

/-! ## The block of a file -/

/-- The node has a block of the heap, or none if it is empty. Past the end a large block
    is clear. -/
structure Backed (node : MemNode) : Prop where
  owned : ∃ live, (∃ slabs, Owned.Inv ⟨node.heap, live⟩ slabs) ∧
    (node.size = 0 ∧ node.data = 0 ∨ 0 < node.size ∧ ⟨node.data, node.size⟩ ∈ live)
  clear : 2048 < node.size → ∀ x, node.size ≤ x → x < extent node.size →
    node.heap.mem (node.data + x) = 0

structure Stores (node : MemNode) (r : ByteFile) : Prop where
  backed : Backed node
  same : Same node r
  beyond : ∀ x, r.length ≤ x → r.bytes x = 0

variable {size : Nat}

lemma getBucketIdx_eq_none : getBucketIdx size = none ↔ 2048 < size := by
  refine ⟨getBucketIdx_none, fun large => find?_eq_none.mpr fun idx _ => ?_⟩
  have narrow := (bucketSize_facts idx).2.1
  rw [decide_eq_true_iff]
  omega

variable {live : List Block} {node : MemNode} {r : ByteFile}

/-- A block in use is at a real address, and ends below the end of memory. -/
lemma block_range {heap : Heap} {data : Nat}
    (inv : ∃ slabs, Inv ⟨heap, live⟩ slabs) (owned : ⟨data, size⟩ ∈ live) :
    data ≠ 0 ∧ data + extent size < 2 ^ 64 := by
  obtain ⟨slabs, inv⟩ := inv
  have start : heapStart ≤ data := (inv.safe.block _ owned).2.2.1
  have stop : data + extent size ≤ heap.top := inv.block_below owned
  have room : heap.top + 4096 * heap.frames < 2 ^ 64 := inv.room
  rw [heapStart] at start
  omega

/-- What `krealloc` takes for the size of the block depends on the file alone. -/
lemma Stores.keptLength (same : Same node r)
    (inv : ∃ slabs, Inv ⟨node.heap, live⟩ slabs) (owned : ⟨node.data, node.size⟩ ∈ live) :
    getAllocationSize node.heap node.data = r.keptLength := by
  obtain ⟨slabs, inv⟩ := inv
  obtain ⟨length, bytes⟩ := same
  rw [ByteFile.keptLength, ← length]
  split
  · cases found : getBucketIdx node.size with
    | none => exact absurd (getBucketIdx_none found) (by omega)
    | some idx => rw [inv.allocationSize_small owned found, extent_some found]
  have found : getBucketIdx node.size = none := getBucketIdx_eq_none.mpr (by omega)
  have word : node.heap.mem.word (node.data + 16) 4 = r.bytes.word 16 4 :=
    word_shift fun i inside => by
      rw [Nat.add_assoc]
      exact bytes (16 + i) (by omega)
  rw [inv.allocationSize_large owned found]
  simp only [word]

/-! ## Writing -/

section

variable {offset : Nat} {src : Nat → UInt8}

variable {heap : Heap} {data : Nat}

lemma fill_spec (src : Nat → UInt8) (inv : ∃ slabs, Inv ⟨node.heap, live⟩ slabs)
    (owned : ⟨node.data, node.size⟩ ∈ live) (inside : offset + size ≤ node.size) :
    (∃ slabs, Inv ⟨(node.fill size src offset).heap, live⟩ slabs) ∧
      ∀ x, (node.fill size src offset).heap.mem (node.data + x) =
        if offset ≤ x ∧ x < offset + size then src (x - offset) else node.heap.mem (node.data + x) := by
  have range := (block_range inv owned).2
  have whole := le_extent node.size
  have address : (node.data + offset) % 2 ^ 64 = node.data + offset := Nat.mod_eq_of_lt (by omega)
  obtain ⟨slabs, inv⟩ := inv
  have inv' := inv.write owned (inside.trans whole) src
  simp only [MemNode.fill, address]
  refine ⟨⟨slabs, inv'⟩, fun x => ?_⟩
  split
  · rw [store_inside (by omega) (by omega)]
    congr 1
    omega
  · rw [store_outside (by omega)]

/-- If the rest of the block is as it should be, the file is. -/
lemma Stores.of_fill (inv : ∃ slabs, Inv ⟨node.heap, live⟩ slabs)
    (owned : ⟨node.data, node.size⟩ ∈ live) (positive : 0 < node.size)
    (clear : 2048 < node.size → ∀ x, node.size ≤ x → x < extent node.size →
      node.heap.mem (node.data + x) = 0) (length : node.size = max r.length (offset + size))
    (beyond : ∀ x, r.length ≤ x → r.bytes x = 0)
    (rest : ∀ x < node.size, ¬ (offset ≤ x ∧ x < offset + size) → node.heap.mem (node.data + x) = r.bytes x) :
    Stores (node.fill size src offset) (r.write size src offset) := by
  have inside : offset + size ≤ node.size := by omega
  obtain ⟨inv', bytes⟩ := fill_spec src inv owned inside
  refine ⟨⟨⟨live, inv', .inr ⟨positive, owned⟩⟩, fun large x lower upper => ?_⟩,
    ⟨length, fun x below => ?_⟩, fun x above => ?_⟩
  · have past : node.size ≤ x := lower
    refine (bytes x).trans ?_
    rw [if_neg (by omega), clear large x lower upper]
  · have within : x < node.size := length ▸ below
    refine (bytes x).trans ?_
    rw [write_bytes]
    by_cases written : offset ≤ x ∧ x < offset + size
    · rw [if_pos written, store_inside written.1 written.2]
    · rw [if_neg written, store_outside written, rest x within written]
  · rw [write_length] at above
    rw [write_bytes, store_outside (by omega), beyond x (by omega)]

/-- A larger block for the file. -/
structure Enlarged (r : ByteFile) (size : Nat) (heap : Heap) (data : Nat) : Prop where
  block : ∃ live, (∃ slabs, Owned.Inv ⟨heap, live⟩ slabs) ∧ ⟨data, size⟩ ∈ live
  kept : ∀ x < r.length, x < r.keptLength → heap.mem (data + x) = r.bytes x
  clear : 2048 < size → ∀ x, r.length = 0 ∨ r.keptLength ≤ x ∨ size ≤ x ∨
    2048 < r.length ∧ r.length ≤ x → x < extent size → heap.mem (data + x) = 0

lemma Stores.enlarge (stores : Stores node r) (more : node.size < size)
    (bound : size ≤ 2 ^ 64 - 4096) (given : krealloc node.heap node.data size = some (heap, data)) :
    Enlarged r size heap data := by
  obtain ⟨live, inv, empty | owned⟩ := stores.backed.owned
  · obtain ⟨length, -⟩ := stores.same
    rw [krealloc, if_pos empty.2] at given
    have positive : 0 < size := by omega
    have step : Owned.Step ⟨node.heap, live⟩ (.kmalloc size) ⟨heap, ⟨data, size⟩ :: live⟩ :=
      .kmalloc positive bound given
    refine ⟨⟨_, step.inv inv, mem_cons_self⟩, fun x below => by omega, fun large x _ inside => ?_⟩
    obtain ⟨slabs, inv⟩ := inv
    exact (inv.kmalloc_leftover positive bound given inside).trans
      (Heap.leftover_large (getBucketIdx_eq_none.mpr large) _ x)
  obtain ⟨positive, owned⟩ := owned
  have kept := Stores.keptLength stores.same inv owned
  have resized := krealloc_moved inv owned (by omega) bound given
  obtain ⟨length, bytes⟩ := stores.same
  refine ⟨⟨_, resized.inv, mem_cons_self⟩, fun x below copied => ?_, fun large x place inside => ?_⟩
  · rw [resized.kept x (kept ▸ copied) (by omega)]
    exact bytes x below
  by_cases past : r.keptLength ≤ x ∨ size ≤ x
  · exact (resized.rest x (kept ▸ past) inside).trans
      (Heap.leftover_large (getBucketIdx_eq_none.mpr large) _ x)
  obtain ⟨copied, within⟩ := not_or.mp past
  obtain ⟨slabs, inv⟩ := inv
  have room : getAllocationSize node.heap node.data ≤ extent node.size := inv.allocationSize_le owned
  have copied' : x < getAllocationSize node.heap node.data := by omega
  rw [resized.kept x copied' (by omega)]
  exact stores.backed.clear (by omega) x (by omega) (by omega)

lemma Backed.size_lt (backed : Backed node) : node.size < 2 ^ 64 := by
  obtain ⟨live, inv, empty | ⟨-, owned⟩⟩ := backed.owned
  · omega
  have range := (block_range inv owned).2
  have whole := le_extent node.size
  omega

lemma length_le_kept (small : r.length ≤ 2048) : r.length ≤ r.keptLength := by
  rw [keptLength, if_pos small]
  exact le_extent _

lemma Stores.overwrite (stores : Stores node r) (inside : offset + size ≤ node.size) :
    Stores (node.fill size src offset) (r.write size src offset) := by
  obtain ⟨length, bytes⟩ := stores.same
  obtain ⟨live, inv, empty | ⟨positive, owned⟩⟩ := stores.backed.owned
  · obtain ⟨rfl, rfl⟩ : size = 0 ∧ offset = 0 := by omega
    have nothing : ∀ (m : Bytes) a, m.store a 0 src = m := fun m a =>
      funext fun x => store_outside (by omega)
    have sameFile : r.write 0 src 0 = r := by simp [write, nothing]
    have sameNode : node.fill 0 src 0 = node := by simp [MemNode.fill, nothing]
    rwa [sameFile, sameNode]
  · exact .of_fill inv owned positive stores.backed.clear (by omega) stores.beyond
      fun x below _ => bytes x (by omega)

lemma Enlarged.fill (enlarged : Enlarged r (offset + size) heap data)
    (more : r.length < offset + size) (beyond : ∀ x, r.length ≤ x → r.bytes x = 0)
    (kept : r.Kept size offset) (bridged : r.Bridged size offset) :
    Stores (MemNode.fill ⟨heap, data, offset + size⟩ size src offset) (r.write size src offset) := by
  obtain ⟨live, inv, owned⟩ := enlarged.block
  have whole := le_extent (offset + size)
  refine .of_fill inv owned (by simp only; omega)
    (fun large x lower upper => enlarged.clear large x (.inr (.inr (.inl lower))) upper)
    (by simp only; omega) beyond fun x below unwritten => ?_
  simp only at below
  by_cases old : x < r.length
  · by_cases copied : x < r.keptLength
    · exact enlarged.kept x old copied
    have long : 2048 < r.length := by
      by_contra small
      have all := length_le_kept (not_lt.mp small)
      omega
    rw [kept more x (by omega) old (by omega)]
    exact enlarged.clear (by omega) x (.inr (.inl (by omega))) (by omega)
  · obtain ⟨large, place⟩ := bridged (by omega)
    rw [beyond x (by omega)]
    refine enlarged.clear large x ?_ (by omega)
    rcases place with none_yet | all | long
    · exact .inl none_yet
    · exact .inr (.inl (by omega))
    · exact .inr (.inr (.inr ⟨long, by omega⟩))

/-- What is neither copied nor overwritten is zero afterwards. -/
lemma Enlarged.lost (enlarged : Enlarged r (offset + size) heap data)
    (same : Same (MemNode.fill ⟨heap, data, offset + size⟩ size src offset) (r.write size src offset)) :
    r.Kept size offset := by
  intro more x uncopied old before
  obtain ⟨live, inv, owned⟩ := enlarged.block
  have long : 2048 < r.length := by
    by_contra small
    have all := length_le_kept (not_lt.mp small)
    omega
  have whole := le_extent (offset + size)
  have cleared := enlarged.clear (by omega) x (.inr (.inl uncopied)) (by omega)
  have unwritten : ¬ (offset ≤ x ∧ x < offset + size) := by omega
  have filled : (MemNode.fill ⟨heap, data, offset + size⟩ size src offset).heap.mem (data + x) =
      if offset ≤ x ∧ x < offset + size then src (x - offset) else heap.mem (data + x) :=
    (fill_spec src inv owned le_rfl).2 x
  rw [if_neg unwritten] at filled
  have byte := same.2 x (by rw [write_length]; omega)
  rw [write_bytes, store_outside unwritten] at byte
  rw [← byte]
  exact filled.trans cleared

lemma write_spec {node' : MemNode} (stores : Stores node r) (bound : offset + size ≤ 2 ^ 64 - 4096)
    (step : Step node (.write size src offset) node') :
    (r.Kept size offset → r.Bridged size offset → Stores node' (r.write size src offset)) ∧
      (Same node' (r.write size src offset) → r.Kept size offset) := by
  have length := stores.same.1
  have required : (offset + size) % 2 ^ 64 = offset + size := Nat.mod_eq_of_lt (by omega)
  simp only [Step, MemNode.next, memVfsWrite, required] at step
  split at step
  next more =>
    split at step
    · cases step
    rename_i heap data given
    have enlarged := stores.enlarge more bound given
    obtain ⟨live, inv, owned⟩ := enlarged.block
    have real := (block_range inv owned).1
    rw [if_neg fun failed => real failed.1] at step
    cases step
    exact ⟨enlarged.fill (by omega) stores.beyond, enlarged.lost⟩
  · cases step
    exact ⟨fun _ _ => stores.overwrite (by omega), fun _ more => absurd more (by omega)⟩

/-! ## Reading -/

lemma toInt_eq {n : Nat} (small : n < 2 ^ 31) : toInt n = n := by
  rw [toInt, Nat.mod_eq_of_lt (by omega)]
  omega

lemma toInt_lt (n : Nat) : toInt n < 2 ^ 31 := by
  rw [toInt]
  omega

/-- A read is right exactly if nothing wraps. -/
lemma Stores.read_iff (stores : Stores node r) (size_lt : size < 2 ^ 64) (offset_lt : offset < 2 ^ 64) :
    memVfsRead node size offset = r.read size offset ↔ r.Readable size offset := by
  obtain ⟨length, bytes⟩ := stores.same
  have size_bound := stores.backed.size_lt
  rw [memVfsRead, ByteFile.read, ByteFile.Readable]
  by_cases empty : node.data = 0 ∨ node.size ≤ offset
  · have past : r.length ≤ offset := by
      obtain ⟨live, inv, none_yet | ⟨-, owned⟩⟩ := stores.backed.owned
      · omega
      · have real := (block_range inv owned).1
        omega
    simp [empty, past]
  obtain ⟨real, before⟩ := not_or.mp empty
  rw [if_neg empty]
  by_cases wraps : offset + size < 2 ^ 64
  · have toRead : (if node.size < (offset + size) % 2 ^ 64 then node.size - offset else size) =
        min size (r.length - offset) := by
      split <;> omega
    have sameBytes : ∀ i < min size (r.length - offset),
        node.heap.mem ((node.data + offset + i) % 2 ^ 64) = r.bytes (offset + i) := by
      intro i inside
      obtain ⟨live, inv, none_yet | ⟨-, owned⟩⟩ := stores.backed.owned
      · omega
      have range := (block_range inv owned).2
      have whole := le_extent node.size
      rw [Nat.mod_eq_of_lt (by omega), Nat.add_assoc]
      exact bytes (offset + i) (by omega)
    have sameList : (range (min size (r.length - offset))).map
        (fun i => node.heap.mem ((node.data + offset + i) % 2 ^ 64)) =
          (range (min size (r.length - offset))).map fun i => r.bytes (offset + i) :=
      map_congr_left fun i listed => sameBytes i (mem_range.mp listed)
    simp only [toRead, sameList, Prod.mk.injEq, and_true]
    refine ⟨fun count => ⟨.inr wraps, ?_⟩, fun readable => toInt_eq readable.2⟩
    have small := toInt_lt (min size (r.length - offset))
    omega
  · have toRead : (if node.size < (offset + size) % 2 ^ 64 then node.size - offset else size) = size := by
      rw [if_neg]
      omega
    refine ⟨fun same => ?_, fun readable => absurd readable.1 (by omega)⟩
    have lengths := congrArg (·.2.length) same
    simp only [length_map, length_range] at lengths
    omega

/-! ## Every run -/

lemma Stores.step {x y : MemNode × ByteFile} {op : MemOp}
    (stores : Stores x.1 x.2) (step : When (Recorded Step record) Fits x op y) :
    Stores y.1 y.2 := by
  obtain ⟨⟨step, recorded⟩, fits⟩ := step
  rw [recorded]
  cases op with
  | read size offset =>
    rw [← some.inj step]
    exact stores
  | write size src offset =>
    obtain ⟨bound, kept, bridged⟩ := fits
    exact (write_spec stores bound step).1 kept bridged

lemma Stores.created (inv : ∃ slabs, Inv ⟨heap, live⟩ slabs) : Stores ⟨heap, 0, 0⟩ .empty :=
  ⟨⟨⟨live, inv, .inl ⟨rfl, rfl⟩⟩, fun large => absurd large (by simp)⟩,
    ⟨rfl, fun x below => absurd below (by simp [empty])⟩, fun _ _ => rfl⟩

/-- A file made in a heap in use, after any writes that leave gaps in fresh pages only and
    lose nothing: a read is right exactly if nothing wraps, and the next write that starts
    within the file is right exactly if it loses nothing. -/
theorem memfs_is_byte_array {h : Heap} {es : List Event} {s : Owned} {ops : List MemOp}
    {node : MemNode} {r : ByteFile} (memory : heapStart + 4096 * h.frames < 2 ^ 64)
    (reached : Run Owned.Step ⟨initSlab h, []⟩ es s)
    (run : Run (When (Recorded Step record) ByteFile.Fits) (⟨s.heap, 0, 0⟩, .empty) ops (node, r)) :
    (∀ size offset, size < 2 ^ 64 → offset < 2 ^ 64 →
      (memVfsRead node size offset = r.read size offset ↔ r.Readable size offset)) ∧
    ∀ size src offset node', offset + size ≤ 2 ^ 64 - 4096 → offset ≤ r.length →
      Step node (.write size src offset) node' →
      (Same node' (r.write size src offset) ↔ r.Kept size offset) := by
  have keeps : ∀ x op y, Stores x.1 x.2 → When (Recorded Step record) ByteFile.Fits x op y →
      Stores y.1 y.2 := fun x op y stores step => stores.step step
  have stored := run.invariant keeps (Stores.created (Owned.inv_of_run memory reached))
  have stores : Stores node r := stored
  refine ⟨fun size offset size_lt offset_lt => stores.read_iff size_lt offset_lt,
    fun size src offset node' bound within step => ?_⟩
  obtain ⟨right, necessary⟩ := write_spec stores bound step
  exact ⟨necessary, fun kept => (right kept fun gap => absurd within (by omega)).same⟩

end

/-- A file in an empty heap of a few frames. -/
def newFile : MemNode := ⟨initSlab ⟨fun _ => 0, 0, fun _ => 0, 8⟩, 0, 0⟩

lemma fits_of_append (src : Nat → UInt8) (small : r.length ≤ 2048)
    (bound : r.length + size ≤ 2 ^ 64 - 4096) :
    Fits (node, r) (.write size src r.length) := by
  refine ⟨bound, fun _ x uncopied old _ => ?_, fun gap => absurd gap (lt_irrefl _)⟩
  have all := length_le_kept small
  simp only at uncopied old
  omega

/-- Two writes in a row, and a read across them. -/
theorem appended_bytes_read : ∃ node r,
    Run (When (Recorded Step record) ByteFile.Fits) (newFile, .empty)
      [.write 3 (fun i => 97 + ofNat i) 0, .write 2 (fun i => 65 + ofNat i) 3] (node, r) ∧
    memVfsRead node 10 1 = (4, [98, 99, 65, 66]) := by
  have computed : (newFile.next (.write 3 (fun i => 97 + ofNat i) 0)).any (fun node =>
      (node.next (.write 2 (fun i => 65 + ofNat i) 3)).isSome) = true := by decide +kernel
  obtain ⟨node₁, first, more⟩ := (Option.any_eq_true ..).mp computed
  obtain ⟨node₂, second⟩ := isSome_iff_exists.mp more
  have step₁ : When (Recorded Step record) ByteFile.Fits (newFile, .empty)
      (.write 3 (fun i => 97 + ofNat i) 0)
      (node₁, empty.write 3 (fun i => 97 + ofNat i) 0) :=
    ⟨⟨first, rfl⟩, fits_of_append (r := .empty) _ (by decide) (by decide)⟩
  have step₂ : When (Recorded Step record) ByteFile.Fits
      (node₁, empty.write 3 (fun i => 97 + ofNat i) 0)
      (.write 2 (fun i => 65 + ofNat i) 3)
      (node₂, (empty.write 3 (fun i => 97 + ofNat i) 0).write 2
        (fun i => 65 + ofNat i) 3) :=
    ⟨⟨second, rfl⟩, fits_of_append (r := empty.write 3 (fun i => 97 + ofNat i) 0) _
      (by decide) (by decide)⟩
  have run := Run.cons step₁ (.cons step₂ (.nil _))
  have right := (memfs_is_byte_array (h := ⟨fun _ => 0, 0, fun _ => 0, 8⟩) (by decide) (.nil _) run).1 10 1
    (by decide) (by decide)
  refine ⟨node₂, _, run, (right.mpr ⟨.inr (by decide), by decide⟩).trans ?_⟩
  decide

/-- A gap shows the free list of a slab, and growing past a page forgets the rest. -/
theorem sparse_and_long_files_lose : (∃ node r, Run (Recorded Step record) (newFile, .empty)
      [.write 1 (fun _ => 65) 1000] (node, r) ∧
      memVfsRead node 1 0 = (1, [0x20]) ∧ r.read 1 0 = (1, [0])) ∧
    ∃ node r, Run (Recorded Step record) (newFile, .empty)
      [.write 5000 (fun _ => 65) 0, .write 1 (fun _ => 66) 5000] (node, r) ∧
      memVfsRead node 1 4096 = (1, [0]) ∧ r.read 1 4096 = (1, [65]) := by
  constructor
  · have computed : (newFile.next (.write 1 (fun _ => 65) 1000)).any (fun node =>
        memVfsRead node 1 0 = (1, [0x20])) = true := by decide +kernel
    obtain ⟨node, step, read⟩ := (Option.any_eq_true ..).mp computed
    exact ⟨node, _, .cons ⟨step, rfl⟩ (.nil _), of_decide_eq_true read, by decide⟩
  · have computed : (newFile.next (.write 5000 (fun _ => 65) 0)).any (fun node =>
        (node.next (.write 1 (fun _ => 66) 5000)).any fun node =>
          memVfsRead node 1 4096 = (1, [0])) = true := by decide +kernel
    obtain ⟨node₁, first, more⟩ := (Option.any_eq_true ..).mp computed
    obtain ⟨node₂, second, read⟩ := (Option.any_eq_true ..).mp more
    have step₁ : Recorded Step record (newFile, .empty) (.write 5000 (fun _ => 65) 0)
        (node₁, empty.write 5000 (fun _ => 65) 0) := ⟨first, rfl⟩
    exact ⟨node₂, (empty.write 5000 (fun _ => 65) 0).write 1 (fun _ => 66) 5000,
      .cons step₁ (.cons ⟨second, rfl⟩ (.nil _)), of_decide_eq_true read, by decide⟩

end Znu.Fs
