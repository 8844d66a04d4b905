import Znu.Elf.Exec
import Znu.Kernel.Stacks
import Znu.Syscall.Memory

/-! # The frames of a process, from `fork` to `wait`

`clone_process`, `process_destroy` and `do_wait` with the memory they allocate and free.
A child owns the tree of frames under its root table. All of them go back to the
allocator when the child is reaped, except the root table itself, which
`vmm_free_user_pages` leaves to its caller and `process_destroy` does not free.
-/

namespace Znu.Kernel

open Machine Lib Mm Option Kernel.System List Elf Store.HeapOnly Syscall Function Phys

/-- The address of a process in the heap, and its memory and descriptors. -/
structure Resident where
  address : Nat
  proc : Elf.Proc

/-- The process table and all memory. -/
structure Node where
  sys : System
  store : Store
  /-- of the processes in the table -/
  residents : Slot → Resident
  /-- the static `mmap_bump` of `sys_mmap` -/
  mmapBump : Nat
  core : Elf.Core
  /-- the descriptors passed to `vfse_close`, the last one first -/
  closed : List (Fin 32)

/-- `dup_file` of every open descriptor. -/
def dupFiles (src : Fin 32 → Option Nat) :
    List (Fin 32) → Store → (Fin 32 → Option Nat) → Option (Store × (Fin 32 → Option Nat))
  | [], k, files => some (k, files)
  | i :: is, k, files =>
    match src i with
    | none => dupFiles src is k files
    | some file => do
        let (k, copy) ← k.kmalloc 24
        let k := k.fill copy 24 fun j => k.heap.mem (file + j)
        dupFiles src is k (Function.update files i (some copy))

/-- `process_close_files` -/
def closeFiles (files : Fin 32 → Option Nat) : List (Fin 32) → Store → Store
  | [], k => k
  | i :: is, k => closeFiles files is ((files i).elim k k.kfree)

namespace Node

variable (nx : Bool) (n : Node)

/-- The pid of the child in the second component, or `none` where the source returns NULL.
    The first component is `none` when memory runs out and the machine stops. -/
def cloneProcess (src : Slot) (regs : Frame) : Option (Node × Option Word) :=
  match n.sys.processes src, n.sys.processTableFindFreeSlot with
  | some p, some slot =>
    if p.state = .zombie then some (n, none) else do
      let proc := (n.residents src).proc
      let (k, dst) ← n.store.kzalloc processSize
      let (s, pml4) ← vmmClonePml4 k.phys proc.pml4
      let (k, kstack) ← ({ k with phys := s } : Store).kmalloc 32768
      let (k, files) ← dupFiles proc.files (finRange 32) k fun _ => none
      let kstackTop := kstack + 32768
      let (sys, pid) := n.sys.cloneProcess p regs (some (BitVec.ofNat 64 kstackTop))
      let child : Elf.Proc := { proc with pml4, kstackTop, context := { regs with rax := 0 }, files }
      some ({ n with
        sys, store := k, residents := Function.update n.residents slot ⟨dst, child⟩ }, pid)
  | _, _ => some (n, none)

/-- `sys_fork` and the way back to user mode. -/
def fork (src : Slot) (regs : Frame) : Option (Node × Option Word) :=
  (cloneProcess { n with sys := n.sys.swapgs } src regs).map fun (n, pid) =>
    ({ n with sys := n.sys.returnToUser { regs with rax := pid.getD (-1) } }, pid)

/-- `process_destroy`, of a user process. -/
def processDestroy (i : Slot) : Node :=
  let r := n.residents i
  let k := closeFiles r.proc.files (finRange 32) n.store
  let k := if r.proc.kstackTop = 0 then k else k.kfree (r.proc.kstackTop - 32768)
  let k : Store := { k with phys := (vmmFreeUserPages ⟨k.phys, []⟩ (some r.proc.pml4)).phys }
  { n with store := k.kfree r.address }

def doWait (pid : CInt) (status : Word) : Node × System.Waited :=
  let (sys, waited) := n.sys.doWait pid status
  match n.sys.running.bind (n.sys.exitedChild · pid) with
  | some i => ({ n.processDestroy i with sys }, waited)
  | none => ({ n with sys }, waited)

def setProc (i : Slot) (proc : Elf.Proc) : Node :=
  { n with residents := Function.update n.residents i { n.residents i with proc } }

/-- `sys_brk` of the process in slot `i`, with its result. -/
def sysBrk (i : Slot) (addr : Nat) : Option (Node × Nat) :=
  let proc := (n.residents i).proc
  (Syscall.sysBrk nx (proc.pml4 / 4096) ⟨n.store.phys, proc.brkStart, proc.brk⟩ addr).map
    fun (b, result) =>
      ({ n with store := { n.store with phys := b.phys } }.setProc i { proc with brk := b.brk }, result)

def sysMmap (i : Slot) (addr len flags : Nat) : Option (Node × Nat) :=
  (Syscall.sysMmap nx ((n.residents i).proc.pml4 / 4096) ⟨n.store.phys, n.mmapBump⟩ addr len flags).map
    fun (m, result) =>
      ({ n with store := { n.store with phys := m.phys }, mmapBump := m.mmapBump }, result)

/-- `replace_process_with_elf`, where it succeeds. -/
def replaceProcess (seed kernelPml4 : Nat) (i : Slot) (image : Bytes) (argv envp : List Elf.CString) :
    Option Node :=
  match replaceProcessWithElf nx seed kernelPml4
    ⟨n.store, (n.residents i).proc, n.core, n.closed⟩ image argv envp with
  | some (x, 0) =>
    some ({ n with store := x.store, core := x.core, closed := x.closed }.setProc i x.proc)
  | _ => none

end Node

/-! ## The life of a child -/

inductive ChildEvent where
  | brk (regs : Frame)
  | mmap (regs : Frame)
  | execve (regs : Frame) (image : Bytes) (argv envp : List Elf.CString)
  /-- something that allocates and frees no memory of the child -/
  | system (e : Event)

/-- The event neither makes nor destroys a process. -/
def Event.quiet : Event → Bool
  | .fork .. | .spawn .. | .execve .. | .wait .. => false
  | _ => true

def sysBrkNumber : Word := 12
def sysMmapNumber : Word := 9

/-- What happens between `fork` and `wait`. The child maps only pages of the user half, and
    the programs it executes keep to their place. -/
inductive ChildStep (nx : Bool) (kernelPml4 : Nat) (c : Slot) : Node → ChildEvent → Node → Prop where
  | brk {n n' : Node} {regs : Frame} {result : Nat} {sys' : System} :
      n.sys.currentProcess = some (.slot c) → regs.rax = sysBrkNumber →
      (regs.rdi.toNat ≤ (n.residents c).proc.brk ∨ regs.rdi.toNat < userEnd) →
      n.sysBrk nx c regs.rdi.toNat = some (n', result) →
      Step n.sys (.ordinary regs (BitVec.ofNat 64 result)) sys' →
      ChildStep nx kernelPml4 c n (.brk regs) { n' with sys := sys' }
  | mmap {n n' : Node} {regs : Frame} {result : Nat} {sys' : System} :
      n.sys.currentProcess = some (.slot c) → regs.rax = sysMmapNumber →
      (if regs.rdi = 0 then n.mmapBump else regs.rdi.toNat) + regs.rsi.toNat ≤ userEnd →
      n.sysMmap nx c regs.rdi.toNat regs.rsi.toNat regs.r10.toNat = some (n', result) →
      Step n.sys (.ordinary regs (BitVec.ofNat 64 result)) sys' →
      ChildStep nx kernelPml4 c n (.mmap regs) { n' with sys := sys' }
  | execve {n n' : Node} {seed : Nat} {regs : Frame} {image : Bytes} {argv envp : List Elf.CString}
      {sys' : System} : n.sys.currentProcess = some (.slot c) →
      Elf.Orderly n.store.phys image argv envp →
      n.replaceProcess nx seed kernelPml4 c image argv envp = some n' →
      Step n.sys (.execve regs (BitVec.ofNat 64 (n'.residents c).proc.entry)
        (BitVec.ofNat 64 (n'.residents c).proc.stackTop)) sys' →
      ChildStep nx kernelPml4 c n (.execve regs image argv envp) { n' with sys := sys' }
  | system : e.quiet = true → Step n.sys e sys' →
      ChildStep nx kernelPml4 c n (.system e) { n with sys := sys' }

/-! ## The tree of the child -/

/-- The frames a child may own: they were free when it was made, and the heap has not
    taken them since. -/
def Available (k₀ k : Store) (f : Nat) : Prop := f ∈ k₀.phys.free ∧ f ∉ k.heapFrames

variable {c src slot : Slot} {files : Fin 32 → Option Nat} {pid : Option Word} {regs : Frame}

section

variable {k₀ k k' : Store} {root : Nat}

variable {nx : Bool}

variable {addr result : Nat} {own : Nat → Prop} {s s' : Phys}

lemma mapFreshLoop_tree {stop fuel page : Nat}
    (tree : UserTree own root s) (user : stop ≤ userEnd)
    (mapped : mapFreshLoop nx (root * 4096) stop fuel page s = some s') : UserTree own root s' := by
  induction fuel generalizing page s with
  | zero => cases mapped
  | succ fuel ih =>
    rw [mapFreshLoop] at mapped
    split at mapped
    · split at mapped
      · cases mapped
      rename_i s₁ fresh
      unfold mapFresh at fresh
      split at fresh
      · cases fresh
      rename_i s₂ a allocated
      have flags : finalFlags nx userData < 4096 := by cases nx <;> decide
      have refines : Refines own root s (s.peek root) := ⟨tree, fun _ _ => rfl⟩
      exact ih (refines.mapFresh (by omega) allocated fresh flags).1.inv mapped
    · cases mapped
      exact tree

lemma sysBrk_tree {b b' : Syscall.Brk}
    (tree : UserTree own root b.phys) (user : addr ≤ b.brk ∨ addr < userEnd)
    (returned : sysBrk nx root b addr = some (b', result)) : UserTree own root b'.phys := by
  obtain ⟨-, rfl, -⟩ | ⟨-, -, rfl, -⟩ | ⟨-, -, -, phys, rfl, ⟨-, rfl⟩ | ⟨grows, mapped⟩⟩ :=
    sysBrk_cases returned
  · exact tree
  · exact tree
  · exact tree
  · have inside := user.resolve_left (by omega)
    have room : pageAlignUp addr ≤ userEnd := by
      simp only [userEnd, pageAlignUp, pageDown] at inside ⊢
      omega
    exact mapFreshLoop_tree tree room mapped

lemma sysMmap_tree {m m' : Syscall.Mmap} {len flags : Nat}
    (tree : UserTree own root m.phys)
    (user : (if addr = 0 then m.mmapBump else addr) + len ≤ userEnd)
    (returned : sysMmap nx root m addr len flags = some (m', result)) :
    UserTree own root m'.phys := by
  simp only [sysMmap] at returned
  split at returned
  · cases returned
    exact tree
  split at returned
  · cases returned
  next phys mapped =>
    cases returned
    exact mapFreshLoop_tree tree ((Nat.mod_le _ _).trans user) mapped

/-- A store whose free frames are available to a child is sound. -/
lemma sound_of_tree (tree : UserTree (Available k₀ k) root k.phys) : k.Sound where
  phys := ⟨fun f listed => tree.valid f (tree.freeOwned f listed), tree.nodup⟩
  apart := fun f listed => (tree.freeOwned f listed).2

lemma tree_of_heapOnly (sound : k₀.Sound) (tree : UserTree (Available k₀ k) root k.phys)
    (calls : k.HeapOnly k') : UserTree (Available k₀ k') root k'.phys := by
  have sound' := calls.sound (sound_of_tree tree)
  refine (tree.transfer (fun g _ x _ => by rw [calls.mem]) (fun f mine => sound.phys.valid f mine.1)
    (fun p f at_p found => ?_) (fun f listed => ?_) sound'.phys.nodup).1
  · obtain ⟨⟨mine, apart⟩, used⟩ := tree.owned p f at_p found
    refine ⟨⟨mine, fun taken => ?_⟩, fun listed => used (calls.taken.subset listed)⟩
    exact ((calls.spared f).mp (.inr taken)).elim used apart
  · exact ⟨(tree.freeOwned f (calls.taken.subset listed)).1, sound'.apart f listed⟩

lemma dupFiles_heapOnly {src files' : Fin 32 → Option Nat} {is : List (Fin 32)}
    (copied : dupFiles src is k files = some (k', files')) : k.HeapOnly k' := by
  induction is generalizing k files with
  | nil =>
    obtain ⟨rfl, -⟩ := Prod.mk.inj (some.inj copied)
    exact .refl k
  | cons i is ih =>
    rw [dupFiles] at copied
    split at copied
    · exact ih copied
    obtain ⟨⟨k₁, copy⟩, malloc, rest⟩ := bind_eq_some_iff.mp copied
    exact (of_kmalloc malloc).trans ((of_fill ..).trans (ih rest))

lemma closeFiles_heapOnly (files : Fin 32 → Option Nat) (is : List (Fin 32)) (k : Store) :
    k.HeapOnly (closeFiles files is k) := by
  induction is generalizing k with
  | nil => exact .refl k
  | cons i is ih =>
    refine .trans ?_ (ih _)
    cases files i with
    | none => exact .refl k
    | some a => exact .of_kfree k a

/-- Exchanging one tree for another that was built from free frames. -/
lemma tree_of_exchange {new : Nat} (sound : k₀.Sound)
    (low : ∀ f ∈ k₀.phys.free, f < 2 ^ 40) (old : UserTree (Available k₀ k) root k.phys)
    (touches : k.phys.Touches (fun x => x / 4096 ∈ k.phys.free) s)
    (tree : UserTree (· ∈ k.phys.free) new s)
    (ran : (vmmFreeUserPages ⟨s, []⟩ (some (root * 4096))).phys.pfree (root * 4096) = s') :
    UserTree (Available k₀ k) new s' := by
  have used : ∀ p f, userPath p → k.phys.walk root p = some f → f ∉ k.phys.free :=
    fun p f at_p found => (old.owned p f at_p found).2
  have tables : ∀ g, k.phys.IsTable root g → ∀ x, x / 4096 = g → s.mem x = k.phys.mem x := by
    rintro g ⟨q, at_q, -, found⟩ x inside
    exact touches.mem x fun within => used q g at_q found (inside ▸ within.1)
  obtain ⟨old', walks⟩ := old.congr tables touches.taken
  generalize swept : (vmmFreeUserPages ⟨s, []⟩ (some (root * 4096))).phys = s₁
  obtain ⟨nodup, free, mem⟩ := old'.freed (fun f mine => low f mine.1) swept
  have atRoot := old'.owned [] root userPath_nil rfl
  have rootFree : root ∉ s₁.free := by
    rw [free]
    rintro (listed | ⟨q, nonempty, at_q, found⟩)
    · exact atRoot.2 listed
    · exact nonempty (old'.walk_unique at_q userPath_nil found rfl)
  have given : s'.mem = s₁.mem ∧ s'.free = root :: s₁.free := by
    have positive := (old'.valid root atRoot.1).1
    rw [← ran, swept, pfree, if_neg (by omega), Nat.mul_div_cancel _ (by decide)]
    exact ⟨rfl, rfl⟩
  have members : ∀ f, f ∈ s'.free ↔ f ∈ s.free ∨ ∃ q, userPath q ∧ s.walk root q = some f := by
    intro f
    rw [given.2, mem_cons, free]
    constructor
    · rintro (rfl | listed | ⟨q, -, at_q, found⟩)
      · exact .inr ⟨[], userPath_nil, rfl⟩
      · exact .inl listed
      · exact .inr ⟨q, at_q, found⟩
    · rintro (listed | ⟨q, at_q, found⟩)
      · exact .inr (.inl listed)
      · by_cases top : q = []
        · subst top
          exact .inl (some.inj found).symm
        · exact .inr (.inr ⟨q, top, at_q, found⟩)
  have apart : ∀ p q f, userPath p → userPath q → s.walk new p = some f → s.walk root q ≠ some f := by
    intro p q f at_p at_q found found'
    rw [walks q at_q] at found'
    exact used q f at_q found' (tree.owned p f at_p found).1
  refine (tree.transfer (fun g isTable x inside => ?_) (fun f mine => sound.phys.valid f mine.1)
    (fun p f at_p found => ?_) (fun f listed => ?_) ?_).1
  · obtain ⟨p, at_p, -, found⟩ := isTable
    rw [given.1]
    refine mem x fun isOld => ?_
    obtain ⟨q, at_q, -, found'⟩ := isOld
    exact apart p q g at_p at_q found (inside ▸ found')
  · refine ⟨old.freeOwned f (tree.owned p f at_p found).1, fun listed => ?_⟩
    rcases (members f).mp listed with listed | ⟨q, at_q, found'⟩
    · exact (tree.owned p f at_p found).2 listed
    · exact apart p q f at_p at_q found found'
  · rcases (members f).mp listed with listed | ⟨q, at_q, found⟩
    · exact old'.freeOwned f listed
    · exact (old'.owned q f at_q found).1
  · rw [given.2]
    exact nodup_cons.mpr ⟨rootFree, nodup⟩

end

/-! ## One step -/

/-- The child in the slot owns a tree of available frames. -/
def Node.Owns (k₀ : Store) (c : Slot) (n : Node) : Prop :=
  ∃ root, (n.residents c).proc.pml4 = root * 4096 ∧ UserTree (Available k₀ n.store) root n.store.phys

lemma closeFiles_pml4 (x : Exec) : x.closeFiles.proc.pml4 = x.proc.pml4 := by
  unfold Exec.closeFiles
  induction finRange 32 generalizing x with
  | nil => rfl
  | cons i is ih =>
    rw [foldl_cons, ih]
    split <;> rfl

variable {nx : Bool} {kernelPml4 : Nat}

lemma replaceProcessWithElf_tree {seed : Nat} {k₀ : Store} {x x' : Exec} {image : Bytes}
    {argv envp : List CString} {root : Nat} (sound : k₀.Sound)
    (low : ∀ f ∈ k₀.phys.free, f < 2 ^ 40) (isRoot : x.proc.pml4 = root * 4096)
    (tree : UserTree (Available k₀ x.store) root x.store.phys)
    (orderly : Orderly x.store.phys image argv envp)
    (ran : replaceProcessWithElf nx seed kernelPml4 x image argv envp = some (x', 0)) :
    ∃ new, x'.proc.pml4 = new * 4096 ∧ UserTree (Available k₀ x'.store) new x'.store.phys := by
  simp only [replaceProcessWithElf, bind_eq_bind, bind_eq_some_iff] at ran
  obtain ⟨⟨k₁, kargv, args⟩, copied₁, ⟨k₂, kenvp, vars⟩, copied₂, out, populated, final⟩ := ran
  have calls := (copyVector_heapOnly copied₁).trans (copyVector_heapOnly copied₂)
  have finish : ∀ k : Store, k.HeapOnly (freeVector kenvp vars (freeVector kargv args k)) :=
    fun k => (freeVector_heapOnly kargv args k).trans (freeVector_heapOnly kenvp vars _)
  split at final
  · cases final
  rename_i success
  obtain ⟨d, isPopulated⟩ := ne_none_iff_exists'.mp (mt isNone_iff_eq_none.mpr success)
  have tree₂ := tree_of_heapOnly sound tree calls
  have orderly₂ : Orderly k₂.phys image argv envp :=
    { orderly with falling := orderly.falling.suffix calls.taken }
  have valid : elfValidate image = true := by
    by_contra invalid
    unfold processPopulateFromElf at populated
    rw [if_pos (by simpa using invalid)] at populated
    cases populated
    cases isPopulated
  obtain ⟨new, s₁, isNew, -, first, rest, newTree⟩ :=
    processPopulateFromElf_tree (sound_of_tree tree₂).phys orderly₂ valid populated
  have touches := first.trans (rest.mono fun x inside => inside.1)
  have exchanged := tree_of_exchange sound low tree₂ touches newTree rfl
  cases final
  refine ⟨new, ?_, ?_⟩
  · simp only [closeFiles_pml4, Proc.populate, isPopulated, isNew, getD_some]
  · rw [← isRoot] at exchanged
    exact tree_of_heapOnly sound exchanged (finish { k₂ with phys := _ })

/-- `clone_process` returns NULL. -/
def Node.Refuses (n : Node) (src : Slot) : Prop :=
  (∀ p ∈ n.sys.processes src, p.state = .zombie) ∨ n.sys.processTableFindFreeSlot = none

/-- A machine whose process in the slot has an address space that can be cloned. -/
structure Node.Sane (n : Node) (src : Slot) : Prop where
  store : n.store.Sound
  low : ∀ f ∈ n.store.phys.free, f < 2 ^ 40
  space : ∃ own root, (n.residents src).proc.pml4 = root * 4096 ∧ UserTree own root n.store.phys

section

variable {nx : Bool} {k₀ : Store} {n n' : Node}

lemma Node.cloneProcess_refused (refuses : n.Refuses src) (regs : Frame) :
    n.cloneProcess src regs = some (n, none) := by
  unfold cloneProcess
  split
  next p slot there free =>
    rcases refuses with zombie | full
    · rw [if_pos (zombie p there)]
    · cases full.symm.trans free
  · rfl

/-- A call that is not refused makes a child with a tree of its own. -/
lemma Node.cloneProcess_owns (sane : n.Sane src)
    (accepted : ¬ n.Refuses src) (cloned : n.cloneProcess src regs = some (n', pid)) :
    ∃ slot, n.sys.processTableFindFreeSlot = some slot ∧ n'.Owns n.store slot ∧ pid ≠ none := by
  simp only [Refuses, not_or, not_forall] at accepted
  obtain ⟨⟨p, there, alive⟩, room⟩ := accepted
  obtain ⟨slot, free⟩ := ne_none_iff_exists'.mp room
  rw [mem_def] at there
  simp only [cloneProcess, there, free, if_neg alive, bind_eq_bind, bind_eq_some_iff] at cloned
  obtain ⟨⟨k, dst⟩, zalloc, ⟨s, pml4⟩, copied, ⟨k₂, kstack⟩, malloc, ⟨k₃, files⟩, duped, same⟩ := cloned
  cases same
  refine ⟨slot, free, ?_, by simp [System.cloneProcess, alive, free]⟩
  obtain ⟨own, root, isRoot, space⟩ := sane.space
  have calls := of_kzalloc zalloc
  have sound := calls.sound sane.store
  have source := (space.congr (fun g _ x _ => by rw [calls.mem]) calls.taken).1
  rw [isRoot] at copied
  obtain ⟨dst, rfl, -, tree, -⟩ := vmmClonePml4_spec (.of_userTree source) copied
  have available : ∀ f ∈ k.phys.free, Available n.store k f := fun f listed =>
    ⟨calls.taken.subset listed, sound.apart f listed⟩
  have owned : UserTree (Available n.store k) dst s := by
    refine (tree.transfer (fun _ _ _ _ => rfl) (fun f mine => sane.store.phys.valid f mine.1)
      (fun q f at_q found => ?_) (fun f listed => available f (tree.freeOwned f listed)) tree.nodup).1
    obtain ⟨mine, used⟩ := tree.owned q f at_q found
    exact ⟨available f mine, used⟩
  have stacked : UserTree (Available n.store k₂) dst k₂.phys :=
    tree_of_heapOnly (k := { k with phys := s }) sane.store owned (.of_kmalloc malloc)
  exact ⟨dst, by simp, tree_of_heapOnly sane.store stacked (dupFiles_heapOnly duped)⟩

/-- Every step of the child's life leaves it with a tree. -/
lemma ChildStep.owns {e : ChildEvent} (sound : k₀.Sound) (low : ∀ f ∈ k₀.phys.free, f < 2 ^ 40)
    (owns : n.Owns k₀ c) (step : ChildStep nx kernelPml4 c n e n') : n'.Owns k₀ c := by
  obtain ⟨root, isRoot, tree⟩ := owns
  cases step with
  | @brk _ n₁ regs result sys' _ _ user grown _ =>
    simp only [Node.sysBrk, map_eq_some_iff, isRoot, Nat.mul_div_cancel _ (by decide : 0 < 4096)] at grown
    obtain ⟨⟨b, r⟩, returned, same⟩ := grown
    cases same
    have grown := sysBrk_tree (b := ⟨n.store.phys, _, _⟩) tree user returned
    exact ⟨root, by simp [Node.setProc], grown⟩
  | @mmap _ n₁ regs result sys' _ _ user grown _ =>
    simp only [Node.sysMmap, map_eq_some_iff, isRoot, Nat.mul_div_cancel _ (by decide : 0 < 4096)] at grown
    obtain ⟨⟨m, r⟩, returned, same⟩ := grown
    cases same
    have zero : regs.rdi.toNat = 0 ↔ regs.rdi = 0 := BitVec.toNat_eq (y := 0) |>.symm
    have grown := sysMmap_tree (m := ⟨n.store.phys, _⟩) tree (by simpa only [zero] using user) returned
    exact ⟨root, isRoot, grown⟩
  | execve _ orderly replaced _ =>
    unfold Node.replaceProcess at replaced
    split at replaced
    next x ran =>
      cases replaced
      obtain ⟨new, isNew, tree'⟩ := replaceProcessWithElf_tree sound low isRoot tree orderly ran
      exact ⟨new, by simpa [Node.setProc] using isNew, tree'⟩
    · cases replaced
  | system _ _ => exact ⟨root, isRoot, tree⟩

/-- Reaping a child frees everything but its root table. -/
lemma Node.processDestroy_keeps_root (low : ∀ f ∈ k₀.phys.free, f < 2 ^ 40) (sound : k₀.Sound)
    (owns : n.Owns k₀ c) : ∃ root ∈ k₀.phys.free, (n.processDestroy c).store.Allocated root := by
  obtain ⟨root, isRoot, tree⟩ := owns
  obtain ⟨k, isK⟩ : ∃ k, k = (if (n.residents c).proc.kstackTop = 0 then
      closeFiles (n.residents c).proc.files (finRange 32) n.store
    else (closeFiles (n.residents c).proc.files (finRange 32) n.store).kfree
      ((n.residents c).proc.kstackTop - 32768)) := ⟨_, rfl⟩
  have calls : n.store.HeapOnly k := by
    rw [isK]
    refine (closeFiles_heapOnly (n.residents c).proc.files (finRange 32) n.store).trans ?_
    split
    · exact .refl _
    · exact .of_kfree _ _
  have tree' := tree_of_heapOnly sound tree calls
  generalize swept : (vmmFreeUserPages ⟨k.phys, []⟩ (some (root * 4096))).phys = s
  obtain ⟨-, free, -⟩ := tree'.freed (fun f mine => low f mine.1) swept
  obtain ⟨⟨mine, apart⟩, used⟩ := tree'.owned [] root userPath_nil rfl
  refine ⟨root, mine, ?_⟩
  rw [Node.processDestroy, ← isK, isRoot, swept, (of_kfree _ _).allocated_iff]
  refine ⟨fun listed => ?_, apart⟩
  rcases (free root).mp listed with listed | ⟨q, nonempty, at_q, found⟩
  · exact used listed
  · exact nonempty (tree'.walk_unique at_q userPath_nil found rfl)

end

/-! ## Life cycles -/

/-- A call of `clone_process` that returns NULL, or a `fork`, the life of the child, and a
    `do_wait` that reaps it. -/
inductive LifeCycle (nx : Bool) (kernelPml4 : Nat) (src : Slot) : Node → Node → Prop where
  | refused {n n' : Node} {regs : Frame} : n.cloneProcess src regs = some (n', none) →
      LifeCycle nx kernelPml4 src n n'
  | completed {n n₁ n₂ : Node} {regs : Frame} {pid status : Word} {c : Slot} {events : List ChildEvent}
      {parent : Process} {wanted : CInt} :
      n.sys.currentProcess = some (.slot src) → n.fork src regs = some (n₁, some pid) →
      n.sys.processTableFindFreeSlot = some c → Run (ChildStep nx kernelPml4 c) n₁ events n₂ →
      n₂.sys.running = some parent → n₂.sys.exitedChild parent wanted = some c →
      LifeCycle nx kernelPml4 src n (n₂.doWait wanted status).1

variable {n : Node}

lemma root_leaks {n₁ n₂ : Node}
    {events : List ChildEvent} {parent : Process} {wanted : CInt} (status : Word)
    (sane : n.Sane src) (accepted : ¬ n.Refuses src) (forked : n.fork src regs = some (n₁, pid))
    (free : n.sys.processTableFindFreeSlot = some c)
    (run : Run (ChildStep nx kernelPml4 c) n₁ events n₂) (running : n₂.sys.running = some parent)
    (exited : n₂.sys.exitedChild parent wanted = some c) :
    ∃ f, ¬ n.store.Allocated f ∧ (n₂.doWait wanted status).1.store.Allocated f := by
  simp only [Node.fork, map_eq_some_iff] at forked
  obtain ⟨⟨n₀, r⟩, cloned, same⟩ := forked
  cases same
  obtain ⟨slot, found, owns, -⟩ := Node.cloneProcess_owns (n := { n with sys := n.sys.swapgs })
    ⟨sane.store, sane.low, sane.space⟩ accepted cloned
  cases free.symm.trans found
  have owned : n₂.Owns n.store c :=
    run.invariant (fun _ _ _ owns step => step.owns sane.store sane.low owns) owns
  obtain ⟨root, mine, leaked⟩ := Node.processDestroy_keeps_root sane.low sane.store owned
  have reaped : (n₂.doWait wanted status).1.store = (n₂.processDestroy c).store := by
    simp only [Node.doWait, running, bind_some, exited]
  exact ⟨root, fun before => before.1 mine, reaped ▸ leaked⟩

/-- Frames are conserved exactly if there is no child. -/
theorem frames_conserved_iff {nx : Bool} {kernelPml4 : Nat} {src : Slot} {n n' : Node}
    (sane : n.Sane src) (life : LifeCycle nx kernelPml4 src n n') :
    ((∀ f, n'.store.Allocated f ↔ n.store.Allocated f) ↔ n.Refuses src) ∧ (n.Refuses src → n' = n) := by
  cases life with
  | refused cloned =>
    by_cases refuses : n.Refuses src
    · rw [Node.cloneProcess_refused refuses] at cloned
      cases cloned
      exact ⟨iff_of_true (fun _ => .rfl) refuses, fun _ => rfl⟩
    · obtain ⟨-, -, -, made⟩ := Node.cloneProcess_owns sane refuses cloned
      exact absurd rfl made
  | @completed n₁ n₂ regs pid status c events parent wanted _ forked free run running exited =>
    have accepted : ¬ n.Refuses src := by
      intro refuses
      rw [Node.fork, Node.cloneProcess_refused (n := { n with sys := n.sys.swapgs }) refuses] at forked
      cases forked
    obtain ⟨f, before, after⟩ := root_leaks status sane accepted forked free run running exited
    exact ⟨iff_of_false (fun conserved => before ((conserved f).mp after)) accepted,
      fun refuses => absurd refuses accepted⟩

/-! ## A fork, an exit and a wait -/

lemma run_system {events : List Event} {sys : System}
    (quiet : ∀ e ∈ events, e.quiet = true) (computed : events.foldlM next n.sys = some sys) :
    Run (ChildStep nx kernelPml4 c) n (events.map .system) { n with sys } := by
  induction events generalizing n with
  | nil =>
    cases computed
    exact .nil n
  | cons e events ih =>
    obtain ⟨sys₁, first, rest⟩ := bind_eq_some_iff.mp computed
    refine .cons (.system (quiet e mem_cons_self) (.of_next first)) ?_
    exact ih (n := { n with sys := sys₁ }) (forall_mem_cons.mp quiet).2 rest

/-- The first process, with nothing mapped and no descriptors. -/
def firstNode : Node where
  sys := started
  store := emptyStore
  residents := fun _ => ⟨0, emptyExec.proc⟩
  mmapBump := 0x600000000000
  core := emptyExec.core
  closed := []

lemma dupFiles_none (is : List (Fin 32)) (k : Store) (files : Fin 32 → Option Nat) :
    dupFiles (fun _ => none) is k files = some (k, files) := by
  induction is with
  | nil => rfl
  | cons i is ih => exact ih

lemma emptyStore_entry (i : Fin 512) : emptyStore.phys.entry 512 i = 0 :=
  Bytes.word_zero fun _ _ _ => rfl

lemma firstNode_sane : firstNode.Sane 0 where
  store := emptyStore_sound
  low := by decide
  space := by
    refine ⟨fun f => 0 < f ∧ f < 2 ^ 52, 512, rfl, ?_⟩
    exact (UserTree.of_zero (fun _ => id) (by decide) (by decide) (fun i _ => emptyStore_entry i)
      (by decide) (by decide)).1

/-- The first process after it has exited. -/
def zombieNode : Node :=
  { firstNode with sys := started.modifyCurrent fun p => { p with state := .zombie } }

theorem zombie_forks_nothing : ∃ n', LifeCycle true 0x100000 0 zombieNode n' ∧ zombieNode.Refuses 0 ∧
    n' = zombieNode ∧ ∀ f, n'.store.Allocated f ↔ zombieNode.store.Allocated f := by
  have refuses : zombieNode.Refuses 0 := .inl fun p there => by
    cases there
    rfl
  have life : LifeCycle true 0x100000 0 zombieNode zombieNode :=
    .refused (Node.cloneProcess_refused refuses (callFrame 57 0 0))
  have sane : zombieNode.Sane 0 := ⟨firstNode_sane.store, firstNode_sane.low, firstNode_sane.space⟩
  obtain ⟨conserved, same⟩ := frames_conserved_iff sane life
  exact ⟨_, life, refuses, same refuses, conserved.mpr refuses⟩

/-- The process table after a `fork` for which there is enough memory. -/
lemma Node.fork_total {p : Process} {k k₂ k₃ : Store} {s : Phys}
    {dst pml4 kstack : Nat} (regs : Frame)
    (there : n.sys.processes src = some p) (alive : p.state ≠ .zombie)
    (free : n.sys.processTableFindFreeSlot = some slot)
    (zalloc : n.store.kzalloc processSize = some (k, dst))
    (copied : vmmClonePml4 k.phys (n.residents src).proc.pml4 = some (s, pml4))
    (malloc : ({ k with phys := s } : Store).kmalloc 32768 = some (k₂, kstack))
    (duped : dupFiles (n.residents src).proc.files (finRange 32) k₂ (fun _ => none) = some (k₃, files)) :
    ∃ n₁, n.fork src regs = some (n₁, some n.sys.nextPid) ∧
      n₁.sys = (({ n.sys.swapgs with nextPid := n.sys.nextPid + 1 } : System).addProcess slot
        (cloneOf p regs n.sys.nextPid (BitVec.ofNat 64 (kstack + 32768)))).returnToUser
          { regs with rax := n.sys.nextPid } := by
  have there' : n.sys.swapgs.processes src = some p := there
  have free' : n.sys.swapgs.processTableFindFreeSlot = some slot := free
  have table : n.sys.swapgs.cloneProcess p regs (some (BitVec.ofNat 64 (kstack + 32768))) =
      (({ n.sys.swapgs with nextPid := n.sys.nextPid + 1 } : System).addProcess slot
        (cloneOf p regs n.sys.nextPid (BitVec.ofNat 64 (kstack + 32768))), some n.sys.nextPid) := by
    rw [System.cloneProcess, if_neg alive, free']
    rfl
  simp only [fork, cloneProcess, there', free', if_neg alive, zalloc, copied, malloc, duped, table,
    bind_eq_bind, bind_some, map_some, getD_some]
  exact ⟨_, rfl, rfl⟩

/-- The process table after the first process has forked a child into the slot. -/
def forkedSystem (slot : Slot) : System :=
  (({ started.swapgs with nextPid := 3 } : System).addProcess slot
    (cloneOf { createProcess 0 1 0xFFFF800000118000 0x401000 0x7FFFFFFFE000 with
      state := .running } (callFrame 57 0 0) 2 0xffff900000009000)).returnToUser
    (callFrame 2 0 0)

lemma firstNode_forks : ∃ n₁, firstNode.fork 0 (callFrame 57 0 0) = some (n₁, some 2) ∧
    n₁.sys = forkedSystem 1 := by
  obtain ⟨k, dst, zalloc, free, top⟩ : ∃ k dst, emptyStore.kzalloc processSize = some (k, dst) ∧
      k.phys.free = range' 2 11 ∧ k.heap.top = 0xffff900000001000 := by
    refine ⟨_, _, (some_get ?_).symm, ?_, ?_⟩ <;> decide +kernel
  have calls := of_kzalloc zalloc
  have vacant : ∀ i, userHalf i → present (k.phys.entry 512 i) = false := by
    intro i _
    rw [entry, read64, calls.mem]
    exact congrArg present (emptyStore_entry i)
  obtain ⟨s, copied, freeS⟩ := vmmClonePml4_vacant free (by decide) vacant
  obtain ⟨k₂, malloc⟩ := Store.kmalloc_pages (k := { k with phys := s }) (n := 32768) (by decide)
    (by rw [freeS]; decide) (by decide)
  rw [top] at malloc
  exact Node.fork_total (n := firstNode) (callFrame 57 0 0) rfl (by decide) (by decide +kernel)
    zalloc copied malloc (dupFiles_none _ k₂ _)

/-- The first process forks, the child exits, and the process reaps it. -/
theorem fork_exit_wait_loses_a_frame : ∃ n', firstNode.Sane 0 ∧
    LifeCycle true 0x100000 0 firstNode n' ∧
    ∃ f, ¬ firstNode.store.Allocated f ∧ n'.store.Allocated f := by
  obtain ⟨n₁, forked, isForked⟩ := firstNode_forks
  obtain ⟨sys, parent, computed, running, exited⟩ : ∃ sys parent,
      [.interrupt true (callFrame 2 0 0), .interrupt true (callFrame 2 0 0),
        .exit (callFrame 60 7 0)].foldlM next (forkedSystem 1) = some sys ∧
      sys.running = some parent ∧ sys.exitedChild parent (-1) = some 1 := by
    refine ⟨_, _, (some_get ?_).symm, (some_get ?_).symm, ?_⟩ <;> decide +kernel
  rw [← isForked] at computed
  have run : Run (ChildStep true 0x100000 1) n₁ _ { n₁ with sys } :=
    run_system (by simp [Event.quiet]) computed
  have free : firstNode.sys.processTableFindFreeSlot = some 1 := by decide +kernel
  have accepted : ¬ firstNode.Refuses 0 := by
    rintro (zombie | full)
    · exact absurd (zombie _ rfl) (by decide)
    · cases full.symm.trans free
  have life : LifeCycle true 0x100000 0 firstNode (Node.doWait { n₁ with sys } (-1) 0).1 :=
    .completed rfl forked free run running exited
  exact ⟨_, firstNode_sane, life, root_leaks 0 firstNode_sane accepted forked free run running exited⟩

end Znu.Kernel
