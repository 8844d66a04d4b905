import Znu.Elf.Load
import Znu.Mm.HeapPages
import Znu.Mm.HeapSafety
import Znu.Mm.Realloc

/-! # The kernel heap in every address space

A user PML4 gets the kernel's entries once, when it is made; pages that the heap gains
later are mapped in the kernel's PML4 only. They are visible in every address space all
the same, because the entry for the heap exists since the first page and everything
below it is shared. Here the calls of the heap run on physical memory together with the
functions that make address spaces.
-/

namespace Znu.Kernel

open Lib Mm Elf Option List Bytes Heap Phys

structure Spaces where
  phys : Phys
  heap : Heap
  /-- the blocks in use -/
  live : List Block
  /-- the frames of the heap's pages, the lowest page first -/
  pages : List Nat
  /-- the frames of the user PML4s created or cloned so far -/
  users : List Nat

inductive Call
  | kmalloc (size : Nat)
  | kfree (ptr : Nat)
  | krealloc (ptr size : Nat)
  /-- the owner of a block fills a part of it -/
  | write (ptr o n : Nat) (src : Nat → UInt8)
  | vmmCreateUserPml4
  /-- the source is the kernel's PML4 or one of the users' -/
  | vmmClonePml4 (src : Nat)

/-- The blocks left when `ptr` is given back, if it is one of them. -/
def giveBack (live : List Block) (ptr : Nat) : Option (List Block) :=
  if ptr = 0 then some live else (live.find? (·.ptr = ptr)).map live.erase

/-- The null pointer is not a block. -/
def handOut (live : List Block) (ptr size : Nat) : List Block :=
  if ptr = 0 then live else ⟨ptr, size⟩ :: live

namespace Spaces

/-- The heap as a call finds it. It can grow by as many pages as there are free frames. -/
def ready (s : Spaces) : Heap := { s.heap with frames := s.phys.free.length }

section

variable (nx : Bool) (kernel : Nat)

/-- A call leaves the heap as `h`: its new pages have been mapped in the kernel's PML4,
    and what it wrote is in the frames behind the heap. -/
def settle (s : Spaces) (h : Heap) : Option Spaces :=
  (mapHeap nx kernel (s.phys.free.length - h.frames) s.heap.top s.phys).map fun (phys, frames) =>
    { s with
      phys := writeBack h.mem heapStart (s.pages ++ frames) phys
      heap := h
      pages := s.pages ++ frames }

def addUser (s : Spaces) (phys : Phys) (pml4 : Nat) : Spaces :=
  { s with
    phys := phys
    users := pml4 / 4096 :: s.users }

def next (s : Spaces) : Call → Option Spaces
  | .kmalloc size =>
    match kmalloc s.ready size with
    | none => none
    | some (h, ptr) => (s.settle nx kernel h).map fun s => { s with live := handOut s.live ptr size }
  | .kfree ptr =>
    match giveBack s.live ptr with
    | none => none
    | some left => (s.settle nx kernel (kfree s.ready ptr)).map fun s => { s with live := left }
  | .krealloc ptr size =>
    match giveBack s.live ptr, krealloc s.ready ptr size with
    | some left, some (h, newPtr) =>
      (s.settle nx kernel h).map fun s => { s with live := handOut left newPtr size }
    | _, _ => none
  | .write ptr o n src =>
    match s.live.find? (·.ptr = ptr) with
    | none => none
    | some b =>
      if o + n ≤ extent b.size then
        s.settle nx kernel { s.ready with mem := s.heap.mem.store (ptr + o) n src }
      else none
  | .vmmCreateUserPml4 =>
    (vmmCreateUserPml4 s.phys (kernel * 4096)).map fun (phys, pml4) => s.addUser phys pml4
  | .vmmClonePml4 src =>
    if src = kernel ∨ src ∈ s.users then
      (vmmClonePml4 s.phys (src * 4096)).map fun (phys, pml4) => s.addUser phys pml4
    else none

end

abbrev Step (nx : Bool) (kernel : Nat) (s : Spaces) (c : Call) (s' : Spaces) : Prop :=
  s.next nx kernel c = some s'

/-- Every address of the heap has one translation. -/
def Visible (kernel : Nat) (s : Spaces) : Prop :=
  ∀ u ∈ s.users, ∀ v, heapStart ≤ v → v < s.heap.top →
    vmmVirtToPhys s.phys.mem (u * 4096) v = vmmVirtToPhys s.phys.mem (kernel * 4096) v

/-- Every address of the heap is mapped, to the byte that the heap has there. -/
def Shown (kernel : Nat) (s : Spaces) : Prop :=
  ∀ v, heapStart ≤ v → v < s.heap.top → vmmVirtToPhys s.phys.mem (kernel * 4096) v ≠ 0 ∧
    s.phys.mem (vmmVirtToPhys s.phys.mem (kernel * 4096) v) = s.heap.mem v

/-- The heap is inside the 512 GiB of its entry. -/
def Inside (s : Spaces) : Prop := s.pages.length ≤ 2 ^ 27

/-- Before the first call: the entry for the heap is empty. -/
structure Boot (kernel : Nat) (s : Spaces) : Prop where
  sound : s.phys.Sound
  used : kernel ∉ s.phys.free
  vacant : present (s.phys.heapEntry kernel) = false
  heap : s.heap = initSlab s.heap
  live : s.live = []
  pages : s.pages = []
  users : s.users = []

end Spaces

/-! ## One call -/

namespace Spaces

variable {nx : Bool} {kernel : Nat} {s s' : Spaces}

/-- What is true of the heap's pages before and after every call. -/
structure Laid (nx : Bool) (kernel : Nat) (s : Spaces) : Prop where
  mapped : Mapped nx kernel s.phys s.pages s.users
  top : s.heap.top = heapStart + 4096 * s.pages.length
  contents : ∀ i f o, s.pages[i]? = some f → o < 4096 →
    s.phys.mem (f * 4096 + o) = s.heap.mem (heapStart + 4096 * i + o)

lemma Laid.top_lt (laid : Laid nx kernel s) : s.ready.top < 2 ^ 64 := by
  have inside := laid.mapped.inside
  have top : s.ready.top = heapStart + 4096 * s.pages.length := laid.top
  rw [top, heapStart]
  omega

/-- A call of the heap: the heap grew by `n` pages, and the rest of the world is as it was. -/
structure Settles (kernel : Nat) (s s' : Spaces) (n : Nat) : Prop where
  keeps : KeepsEntry kernel s.users s.phys s'.phys
  users : s'.users = s.users
  pages : s'.pages.length = s.pages.length + n
  opened : 0 < n → present (s'.phys.heapEntry kernel) = true

lemma settle_spec (laid : Laid nx kernel s) {h : Heap} {n : Nat} (grown : s.ready.Grown n h)
    (settled : s.settle nx kernel h = some s') (inside : s'.Inside) :
    Laid nx kernel s' ∧ Settles kernel s s' n := by
  obtain ⟨⟨phys, frames⟩, mapped, rfl⟩ := map_eq_some_iff.mp settled
  have count : s.phys.free.length - h.frames = n := by
    have supply : h.frames + n = s.phys.free.length := grown.frames
    omega
  rw [count] at mapped
  have length := mapHeap_length mapped
  have fits : s.pages.length + n ≤ 2 ^ 27 := by
    rw [Inside, length_append, length] at inside
    exact inside
  obtain ⟨laid₁, keeps₁, opened⟩ := laid.mapped.mapHeap laid.top fits mapped
  obtain ⟨laid₂, keeps₂⟩ := laid₁.writeBack h.mem heapStart
  refine ⟨⟨laid₂, ?_, fun i f o at_i offset => ?_⟩, keeps₁.trans keeps₂, rfl, ?_, fun more => ?_⟩
  · have top : h.top = (s.heap.top + 4096 * n) % 2 ^ 64 := grown.top
    simp only [length_append, length]
    rw [top, laid.top, heapStart]
    omega
  · exact writeBack_inside h.mem heapStart phys laid₁.once at_i offset
  · simp only [length_append, length]
  · rw [keeps₂.kernel (opened more)]
    exact opened more

/-- A new PML4 with the kernel's entry for the heap. -/
structure Founds (kernel : Nat) (s s' : Spaces) (u src : Nat) : Prop where
  keeps : KeepsEntry kernel s.users s.phys s'.phys
  users : s'.users = u :: s.users
  pages : s'.pages = s.pages
  entry : s'.phys.heapEntry u = s.phys.heapEntry src

variable {c : Call} {cs : List Call} {size src u : Nat}

lemma addUser_spec (laid : Laid nx kernel s) {phys : Phys} (listed : u ∈ s.phys.free)
    (unused : u ∉ phys.free) (within : Within (· / 4096 ∈ s.phys.free) s.phys phys)
    (entry : phys.heapEntry u = s.phys.heapEntry src) :
    Laid nx kernel (s.addUser phys (u * 4096)) ∧ Founds kernel s (s.addUser phys (u * 4096)) u src := by
  obtain ⟨mapped, keeps⟩ := laid.mapped.addUser listed unused within.mem within.taken
  rw [addUser, Nat.mul_div_cancel u (by decide)]
  refine ⟨⟨mapped, laid.top, fun i f o at_i offset => ?_⟩, keeps, rfl, rfl, entry⟩
  have busy := (laid.mapped.used f (.inl (mem_of_getElem? at_i))).1
  have frame : (f * 4096 + o) / 4096 = f := by omega
  refine (within.mem (f * 4096 + o) ?_).trans (laid.contents i f o at_i offset)
  rwa [frame]

lemma create_spec (laid : Laid nx kernel s) (step : s.Step nx kernel .vmmCreateUserPml4 s') :
    Laid nx kernel s' ∧ ∃ u, Founds kernel s s' u kernel := by
  obtain ⟨⟨phys, pml4⟩, created, rfl⟩ := map_eq_some_iff.mp step
  simp only [vmmCreateUserPml4, bind_eq_bind, bind_eq_some_iff] at created
  obtain ⟨⟨s₀, a⟩, allocated, same⟩ := created
  cases same
  obtain ⟨u, rfl, free, unused, mem, touches⟩ :=
    pallocZero_spec allocated laid.mapped.tables.nodup
  have listed : u ∈ s.phys.free := by simp [free]
  have other : kernel ≠ u := fun same =>
    laid.mapped.tables.used [] kernel tablePath_nil rfl (same ▸ listed)
  obtain ⟨phys, isPhys⟩ : ∃ phys, phys =
    s₀.store (u * 4096 + 2048) 2048 fun i => s₀.mem (kernel * 4096 + 2048 + i) := ⟨_, rfl⟩
  have free' : phys.free = s₀.free := by rw [isPhys, store_free]
  have within : Within (· / 4096 ∈ s.phys.free) s.phys phys := by
    refine ⟨fun x busy => ?_, free' ▸ touches.taken⟩
    have outside : x / 4096 ≠ u := fun same => busy (same ▸ listed)
    rw [isPhys, store_mem, store_outside (by omega), mem, store_outside (by omega)]
  have entry : phys.heapEntry u = s.phys.heapEntry kernel := by
    refine word_shift fun i small => ?_
    have place : ∀ a, a + 8 * 288 + i = a + 2048 + (256 + i) := fun a => by omega
    rw [isPhys, store_mem, place, place, store_inside (by omega) (by omega),
      Nat.add_sub_cancel_left, mem, store_outside (by omega)]
  obtain ⟨laid', founds⟩ := addUser_spec laid listed (free' ▸ unused) within entry
  rw [isPhys] at laid' founds
  exact ⟨laid', u, founds⟩

lemma clone_spec (laid : Laid nx kernel s) (step : s.Step nx kernel (.vmmClonePml4 src) s') :
    (src = kernel ∨ src ∈ s.users) ∧ Laid nx kernel s' ∧ ∃ u, Founds kernel s s' u src := by
  simp only [Step, next] at step
  split at step
  next known =>
    obtain ⟨⟨phys, pml4⟩, cloned, rfl⟩ := map_eq_some_iff.mp step
    have used : src ∉ s.phys.free := known.elim
      (fun isKernel => isKernel ▸ laid.mapped.tables.used [] kernel tablePath_nil rfl)
      (fun user => (laid.mapped.used src (.inr user)).1)
    obtain ⟨u, rfl, listed, unused, within, entries⟩ :=
      vmmClonePml4_within laid.mapped.tables.nodup used cloned
    obtain ⟨laid', founds⟩ := addUser_spec laid listed unused within
      (entries ⟨288, by decide⟩ (by simp [userHalf]))
    exact ⟨known, laid', u, founds⟩
  · cases step

/-- A call of the heap, or a new PML4. -/
inductive Effect (nx : Bool) (kernel : Nat) (s : Spaces) : Call → Spaces → Prop
  | heap {c h s'} (live) (grown : s.heap.top < 2 ^ 64 → ∃ n, s.ready.Grown n h)
      (settled : s.settle nx kernel h = some s') : Effect nx kernel s c { s' with live := live }
  | create {phys pml4} : Effect nx kernel s .vmmCreateUserPml4 (s.addUser phys pml4)
  | clone {src phys pml4} : Effect nx kernel s (.vmmClonePml4 src) (s.addUser phys pml4)

lemma Step.effect (step : s.Step nx kernel c s') : Effect nx kernel s c s' := by
  cases c with simp only [Step, next] at step
  | kmalloc size =>
    split at step
    · cases step
    next h ptr given =>
      obtain ⟨s₁, settled, rfl⟩ := map_eq_some_iff.mp step
      exact .heap _ (kmalloc_grown given) settled
  | kfree ptr =>
    split at step
    · cases step
    next left _ =>
      obtain ⟨s₁, settled, rfl⟩ := map_eq_some_iff.mp step
      exact .heap left (fun small => ⟨0, kfree_grown s.ready ptr small⟩) settled
  | krealloc ptr size =>
    split at step
    next left h newPtr _ given =>
      obtain ⟨s₁, settled, rfl⟩ := map_eq_some_iff.mp step
      exact .heap _ (krealloc_grown given) settled
    · cases step
  | write ptr o n src =>
    split at step
    · cases step
    split at step
    · refine .heap (h := { s.ready with mem := s.heap.mem.store (ptr + o) n src }) s'.live
        (fun small => ⟨0, .same rfl rfl small⟩) step
    cases step
  | vmmCreateUserPml4 =>
    obtain ⟨_, -, rfl⟩ := map_eq_some_iff.mp step
    exact .create
  | vmmClonePml4 src =>
    split at step
    · obtain ⟨_, -, rfl⟩ := map_eq_some_iff.mp step
      exact .clone
    cases step

lemma Effect.pages_le (effect : Effect nx kernel s c s') : s.pages.length ≤ s'.pages.length := by
  cases effect with
  | heap live grown settled =>
    obtain ⟨_, -, rfl⟩ := map_eq_some_iff.mp settled
    simp only [length_append]
    omega
  | create | clone => exact le_rfl

/-- The outcome of a call when the heap stays inside its entry. -/
lemma Step.outcome (step : s.Step nx kernel c s') (laid : Laid nx kernel s)
    (inside : s'.Inside) : Laid nx kernel s' ∧ ((∃ n, Settles kernel s s' n) ∨
      ∃ u src, (src = kernel ∨ src ∈ s.users) ∧ Founds kernel s s' u src) := by
  cases step.effect with
  | heap live grown settled =>
    obtain ⟨n, grown⟩ := grown laid.top_lt
    obtain ⟨laid', settles⟩ := settle_spec laid grown settled inside
    exact ⟨⟨laid'.mapped, laid'.top, laid'.contents⟩,
      .inl ⟨n, settles.keeps, settles.users, settles.pages, settles.opened⟩⟩
  | create =>
    obtain ⟨laid', u, founds⟩ := create_spec laid step
    exact ⟨laid', .inr ⟨u, kernel, .inl rfl, founds⟩⟩
  | clone =>
    obtain ⟨known, laid', u, founds⟩ := clone_spec laid step
    exact ⟨laid', .inr ⟨u, _, known, founds⟩⟩

/-! ## Every run -/

/-- All PML4s have the same entry for the heap. -/
structure Sharing (nx : Bool) (kernel : Nat) (s : Spaces) : Prop where
  laid : Laid nx kernel s
  there : present (s.phys.heapEntry kernel) = true
  shared : ∀ u ∈ s.users, s.phys.heapEntry u = s.phys.heapEntry kernel

lemma heapEntry_kept {users : List Nat} {m m' : Phys} (keeps : KeepsEntry kernel users m m')
    (user : u ∈ users) : m'.heapEntry u = m.heapEntry u :=
  word_congr fun x lower upper => keeps.users u user x (by omega)

lemma Sharing.step (sharing : Sharing nx kernel s) (step : s.Step nx kernel c s')
    (inside : s'.Inside) : Sharing nx kernel s' := by
  obtain ⟨laid, ⟨n, settles⟩ | ⟨u, src, known, founds⟩⟩ := step.outcome sharing.laid inside
  · have entry := settles.keeps.kernel sharing.there
    refine ⟨laid, by rw [entry, sharing.there], fun u user => ?_⟩
    rw [settles.users] at user
    rw [entry, heapEntry_kept settles.keeps user, sharing.shared u user]
  have entry := founds.keeps.kernel sharing.there
  refine ⟨laid, by rw [entry, sharing.there], fun v user => ?_⟩
  rw [entry]
  rw [founds.users] at user
  rcases mem_cons.mp user with rfl | old
  · rw [founds.entry]
    exact known.elim (fun isKernel => by rw [isKernel]) (sharing.shared src)
  · rw [heapEntry_kept founds.keeps old, sharing.shared v old]

lemma run_pages_le (run : Run (Step nx kernel) s cs s') : s.pages.length ≤ s'.pages.length := by
  have keeps : ∀ t c t', s.pages.length ≤ t.pages.length → Step nx kernel t c t' →
      s.pages.length ≤ t'.pages.length := fun t c t' below step => below.trans step.effect.pages_le
  have reached := run.invariant keeps le_rfl
  exact reached

lemma Sharing.run (run : Run (Step nx kernel) s cs s')
    (sharing : Sharing nx kernel s) (inside : s'.Inside) : Sharing nx kernel s' := by
  induction run with
  | nil => exact sharing
  | cons first rest ih => exact ih (sharing.step first ((run_pages_le rest).trans inside)) inside

/-- The translation of an address of the heap depends on the PML4 only through its entry. -/
lemma Sharing.visible (sharing : Sharing nx kernel s) : s.Visible kernel := by
  intro u user v lower upper
  have pages := sharing.laid.mapped.inside
  rw [sharing.laid.top] at upper
  have slot : pml4Idx v = 288 := by
    simp only [pml4Idx, heapStart] at *
    omega
  have entry : s.phys.mem.word (u * 4096 + 8 * 288) 8 = s.phys.mem.word (kernel * 4096 + 8 * 288) 8 :=
    sharing.shared u user
  simp only [vmmVirtToPhys, slot, entry]

lemma Laid.shown (laid : Laid nx kernel s) : s.Shown kernel := by
  intro v lower upper
  rw [laid.top] at upper
  obtain ⟨i, o, offset, rfl⟩ : ∃ i o, o < 4096 ∧ v = heapStart + 4096 * i + o :=
    ⟨(v - heapStart) / 4096, (v - heapStart) % 4096, Nat.mod_lt _ (by decide), by omega⟩
  have bound : i < s.pages.length := by omega
  have at_i : s.pages[i]? = some s.pages[i] := List.getElem?_eq_getElem bound
  rw [laid.mapped.translate at_i offset]
  have real := laid.mapped.real _ (getElem_mem bound)
  exact ⟨by omega, laid.contents i _ o at_i offset⟩

/-! ## The first block -/

lemma Boot.laid (boot : Boot kernel s) : Laid nx kernel s := by
  have mapped : Mapped nx kernel s.phys [] [] := .of_vacant boot.vacant boot.used boot.sound
  have top : s.heap.top = heapStart := by rw [boot.heap, initSlab]
  refine ⟨by rwa [boot.pages, boot.users], by rw [top, boot.pages]; rfl, fun i f o at_i => ?_⟩
  rw [boot.pages] at at_i
  cases at_i

/-- A first block with memory opens the entry for the heap. -/
lemma Boot.opens (boot : Boot kernel s) (first : s.Step nx kernel (.kmalloc size) s')
    (success : s'.live ≠ []) (bound : size ≤ 2 ^ 64 - 4096) (inside : s'.Inside) :
    Sharing nx kernel s' := by
  simp only [Step, next] at first
  split at first
  · cases first
  rename_i h ptr given
  obtain ⟨s₁, settled, rfl⟩ := map_eq_some_iff.mp first
  have laid₀ : Laid nx kernel s := boot.laid
  have empty : ∀ idx, s.ready.buckets idx = 0 := fun idx => by
    rw [ready, boot.heap, initSlab]
  have positive : 0 < size := by
    by_contra zero
    obtain rfl : size = 0 := by omega
    cases given
    obtain ⟨_, -, rfl⟩ := map_eq_some_iff.mp settled
    exact success boot.live
  obtain ⟨n, grown, more⟩ := kmalloc_growth positive given laid₀.top_lt
  obtain ⟨laid, settles⟩ := settle_spec laid₀ grown settled inside
  refine ⟨⟨laid.mapped, laid.top, laid.contents⟩, settles.opened (more bound empty), fun u user => ?_⟩
  have none_yet : s₁.users = [] := settles.users.trans boot.users
  simp only [none_yet, not_mem_nil] at user

/-- If the first block has memory, every later page of the heap is seen in all address spaces, in
    every run. -/
theorem heap_visible {size : Nat} {s₁ : Spaces} (boot : Boot kernel s) (bound : size ≤ 2 ^ 64 - 4096)
    (first : s.Step nx kernel (.kmalloc size) s₁) (success : s₁.live ≠ []) {cs : List Call}
    (run : Run (Step nx kernel) s₁ cs s') (inside : s'.Inside) : s'.Visible kernel ∧ s'.Shown kernel := by
  have sharing := (boot.opens first success bound ((run_pages_le run).trans inside)).run run inside
  exact ⟨sharing.visible, sharing.laid.shown⟩

def bare (frames : List Nat) : Spaces :=
  ⟨⟨fun _ => 0, frames, []⟩, initSlab ⟨fun _ => 0, 0, fun _ => 0, 0⟩, [], [], []⟩

lemma bare_boot {frames : List Nat} (valid : ∀ f ∈ frames, 0 < f ∧ f < 2 ^ 52) (once : frames.Nodup)
    (used : kernel ∉ frames) : Boot kernel (bare frames) := by
  have zero : (bare frames).phys.heapEntry kernel = 0 := word_zero fun _ _ _ => rfl
  exact ⟨⟨valid, once⟩, used, by rw [zero]; rfl, rfl, rfl, rfl, rfl⟩

/-- A PML4 is made between two blocks, the first of which is then freed. -/
theorem later_page_is_visible : ∃ s₁ s', (bare [1, 2, 3, 4, 5, 6, 7]).Step true 9 (.kmalloc 4096) s₁ ∧
    Run (Step true 9) s₁ [.vmmCreateUserPml4, .kmalloc 5000, .kfree heapStart] s' ∧
    s'.users = [5] ∧ s'.heap.top = heapStart + 3 * 4096 ∧ s'.Visible 9 ∧ s'.Shown 9 := by
  have boot : Boot 9 (bare [1, 2, 3, 4, 5, 6, 7]) := bare_boot (by decide) (by decide) (by decide)
  have given : ((bare [1, 2, 3, 4, 5, 6, 7]).next true 9 (.kmalloc 4096)).any (fun s =>
      s.live ≠ [] ∧ ([Call.vmmCreateUserPml4, .kmalloc 5000, .kfree heapStart].foldlM
        (fun (s : Spaces) (c : Call) => s.next true 9 c) s).any (fun (s : Spaces) =>
          s.users = [5] ∧ s.heap.top = heapStart + 3 * 4096 ∧ s.pages.length ≤ 2 ^ 27)) = true := by
    decide +kernel
  obtain ⟨s₁, first, passes⟩ := (Option.any_eq_true ..).mp given
  obtain ⟨success, passes⟩ := of_decide_eq_true passes
  obtain ⟨s', run, checked⟩ := Run.of_check _ (fun _ _ _ => id) _ _ _ passes
  obtain ⟨users, top, inside⟩ := of_decide_eq_true checked
  exact ⟨s₁, s', first, run, users, top, heap_visible boot (by decide) first success run inside⟩

end Spaces

end Znu.Kernel
