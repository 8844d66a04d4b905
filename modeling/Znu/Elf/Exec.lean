import Znu.Elf.Populate
import Znu.Kernel.Process
import Znu.Mm.Store
import Znu.Mm.UserMemory

/-! # Replacing and creating a process

`replace_process_with_elf` and `create_process_from_elf`. A call that fails should
change nothing. Both allocate the root table before they look at the program headers,
and neither gives it back when the loader rejects one.

`kmalloc` returns the null pointer only for a request of no bytes, so the tests of its
result are left out.
-/

namespace Znu.Elf

open Lib Mm Machine Option List Store.HeapOnly

/-- The fields of `process_t` that program loading reads or writes. A descriptor is the
    address of its `vfs_file_t`. -/
structure Proc where
  pml4 : Nat
  entry : Nat
  stackTop : Nat
  kstackTop : Nat
  brkStart : Nat
  brk : Nat
  tlsBase : Nat
  context : Frame
  files : Fin 32 → Option Nat

/-- The registers a program starts with. -/
def startContext (entry sp : Nat) : Frame :=
  { Kernel.zeroFrame with
    es := 0x1B, ds := 0x1B, rip := BitVec.ofNat 64 entry, rsp := BitVec.ofNat 64 sp, cs := userCs
    ss := 0x1B, rflags := 0x202 }

/-- What `process_populate_from_elf` stores in the process. -/
def Proc.populate (p : Proc) (out : Outcome) : Proc :=
  let p := { p with pml4 := out.pml4.getD p.pml4 }
  match out.populated with
  | none => p
  | some d =>
    { p with
      entry := d.entry, stackTop := d.stackTop, brkStart := d.brkStart, brk := d.brkStart
      tlsBase := d.tlsBase, context := startContext d.entry d.stackTop }

/-! ## The copies of the arguments -/

/-- `array[i] = kmalloc(len); memcpy(array[i], str, len);` for each string. -/
def copyStrings (array : Nat) : Nat → List CString → Store → Option (Store × List Nat)
  | _, [], k => some (k, [])
  | i, str :: rest, k => do
      let (k, a) ← k.kmalloc (str.strlen + 1)
      let k := (k.fill (array + 8 * i) 8 (Bytes.digit a)).fill a (str.strlen + 1) str.byte
      let (k, copies) ← copyStrings array (i + 1) rest k
      some (k, a :: copies)

/-- Returns the address of the array and those of the strings. -/
def copyVector (strs : List CString) (k : Store) : Option (Store × Nat × List Nat) := do
  let (k, array) ← k.kmalloc (8 * (strs.length + 1))
  let k := k.fill array (8 * (strs.length + 1)) fun _ => 0
  let (k, copies) ← copyStrings array 0 strs k
  some (k, array, copies)

def freeVector (array : Nat) (copies : List Nat) (k : Store) : Store :=
  (copies.foldl Store.kfree k).kfree array

/-! ## `replace_process_with_elf` -/

/-- What the processor is left with when the process goes on: `CR3`, the kernel stacks
    in the TSS and in `cpu_contexts`, and the FS base. -/
structure Core where
  cr3 : Nat
  rsp0 : Nat
  kernelStack : Nat
  fsBase : Nat
  deriving Repr, DecidableEq

structure Exec where
  store : Store
  proc : Proc
  core : Core
  /-- the descriptors passed to `vfse_close`, the last one first -/
  closed : List (Fin 32)

/-- The loop over the descriptors from 3 on. -/
def Exec.closeFiles (x : Exec) : Exec :=
  (List.finRange 32).foldl (fun x i =>
    if 3 ≤ i.val ∧ (x.proc.files i).isSome then
      { x with proc := { x.proc with files := Function.update x.proc.files i none }
               closed := i :: x.closed }
    else x) x

section

variable (nx : Bool) (seed kernelPml4 : Nat)

/-- Returns the result of the source in the second component. -/
def replaceProcessWithElf (x : Exec) (image : Bytes) (argv envp : List CString) :
    Option (Exec × Int) := do
  let (k, kargv, args) ← copyVector argv x.store
  let (k, kenvp, vars) ← copyVector envp k
  let oldPml4 := x.proc.pml4
  let out ← processPopulateFromElf nx seed k.phys kernelPml4 image argv envp
  let proc := x.proc.populate out
  let finish := fun (k : Store) => freeVector kenvp vars (freeVector kargv args k)
  if out.populated.isNone then
    some ({ x with store := finish { k with phys := out.mem }, proc := { proc with pml4 := oldPml4 } },
      -1)
  else
    let x := ({ x with proc } : Exec).closeFiles
    let phys := (vmmFreeUserPages ⟨out.mem, []⟩ (some oldPml4)).phys.pfree oldPml4
    some ({ x with
      store := finish { k with phys }
      core := ⟨proc.pml4, proc.kstackTop, proc.kstackTop, proc.tlsBase⟩ }, 0)

/-! ## `create_process_from_elf` -/

/-- The kernel's variables that `create_process_from_elf` changes. -/
structure Spawner where
  store : Store
  nextPid : Nat
  initProcess : Option Nat

/-- A process made from an image, at its address in the heap. -/
structure Created where
  address : Nat
  pid : Nat
  parentPid : Nat
  proc : Proc

/-- `sizeof(process_t)` -/
def processSize : Nat := 1872

/-- `tty_open_file` -/
def ttyOpenFile (k : Store) : Option (Store × Nat) := k.kzalloc 24

/-- `current` is the pid of the current process, 0 if there is none. -/
def createProcessFromElf (t : Spawner) (current : Nat) (image : Bytes) (argv envp : List CString) :
    Option (Spawner × Option Created) :=
  if !elfValidate image then some (t, none) else do
    let (k, proc) ← t.store.kzalloc processSize
    let pid := t.nextPid
    let (s, pml4) ← vmmCreateUserPml4 k.phys kernelPml4
    let (k, kstack) ← ({ k with phys := s } : Store).kmalloc 32768
    let kstackTop := (kstack + 32768) / 16 * 16
    let initProcess := if pid = 1 then some proc else t.initProcess
    match ← elfLoadSegments nx k.phys pml4 image with
    | (s, none) =>
      let k := (({ k with phys := s } : Store).kfree kstack).kfree proc
      some (⟨k, pid + 1, initProcess⟩, none)
    | (s, some l) =>
      let s ← allocUserStack nx s pml4 l.stackExec
      let (s, rsp) := elfBuildStack s pml4 seed argv envp (ehdr image) l.loadBase argv.head?
      let (k, stdin) ← ttyOpenFile { k with phys := s }
      let (k, stdout) ← ttyOpenFile k
      let (k, stderr) ← ttyOpenFile k
      let entry := (ehdr image).eEntry
      some (⟨k, pid + 1, initProcess⟩, some {
        address := proc, pid, parentPid := current
        proc := {
          pml4, entry, stackTop := rsp, kstackTop
          brkStart := pageUp l.maxVaddr, brk := pageUp l.maxVaddr, tlsBase := l.tlsBase
          context := startContext entry rsp
          files := fun i =>
            if i = 0 then some stdin else if i = 1 then some stdout else
            if i = 2 then some stderr else none } })

end

/-! ## The loader takes frames and frees none -/

section

variable {nx : Bool} {s s' : Phys} {pml4 : Nat}

variable {a : Nat} {ps : List Phdr} {r : Option Loaded}

lemma pallocZero_free (allocated : s.pallocZero = some (s', a)) :
    ∃ f, a = f * 4096 ∧ s.free = f :: s'.free := by
  unfold Phys.pallocZero at allocated
  split at allocated
  · cases allocated
  next f rest free =>
    cases allocated
    exact ⟨f, rfl, free⟩

lemma pallocZero_taken (allocated : s.pallocZero = some (s', a)) : s'.free <:+ s.free := by
  obtain ⟨f, -, free⟩ := pallocZero_free allocated
  rw [free]
  exact suffix_cons f _

lemma hhdmCopyToUser_free (s : Phys) (pml4 uva : Nat) (src : Nat → UInt8) (len : Nat) :
    (hhdmCopyToUser s pml4 uva src len).free = s.free := by
  fun_induction hhdmCopyToUser s pml4 uva src len with
  | case1 => rfl
  | case2 s uva src len more phys chunk shorter ih => exact ih

variable {flags : Nat} {image : Bytes}

lemma mapPages_taken (n page : Nat) (mapped : mapPages nx pml4 flags n page s = some s') :
    s'.free <:+ s.free := by
  induction n generalizing page s with
  | zero =>
    cases mapped
    exact suffix_rfl
  | succ n ih =>
    rw [mapPages] at mapped
    split at mapped
    · simp only [bind_eq_bind, bind_eq_some_iff] at mapped
      obtain ⟨⟨s₁, a⟩, allocated, s₂, linked, rest⟩ := mapped
      exact (ih _ rest).trans ((mapPage_taken linked).trans (pallocZero_taken allocated))
    · exact ih _ mapped

lemma mapFreshPages_taken (n page : Nat) (mapped : mapFreshPages nx pml4 flags n page s = some s') :
    s'.free <:+ s.free := by
  induction n generalizing page s with
  | zero =>
    cases mapped
    exact suffix_rfl
  | succ n ih =>
    simp only [mapFreshPages, bind_eq_bind, bind_eq_some_iff] at mapped
    obtain ⟨⟨s₁, a⟩, allocated, s₂, linked, rest⟩ := mapped
    exact (ih _ rest).trans ((mapPage_taken linked).trans (pallocZero_taken allocated))

lemma remapPages_taken (n page : Nat) (mapped : remapPages nx pml4 flags n page s = some s') :
    s'.free <:+ s.free := by
  induction n generalizing page s with
  | zero =>
    cases mapped
    exact suffix_rfl
  | succ n ih =>
    rw [remapPages] at mapped
    split at mapped
    · obtain ⟨s₁, linked, rest⟩ := bind_eq_some_iff.mp mapped
      exact (ih _ rest).trans (mapPage_taken linked)
    · exact ih _ mapped

lemma loadSegment_taken {p : Phdr} (loaded : loadSegment nx s pml4 image p = some s') :
    s'.free <:+ s.free := by
  simp only [loadSegment, bind_eq_bind, bind_eq_some_iff, hhdmCopyToUser_if] at loaded
  obtain ⟨s₁, mapped, same⟩ := loaded
  cases same
  rw [hhdmCopyToUser_free]
  exact mapPages_taken _ _ mapped

lemma elfSetupTls_taken {data : Nat → UInt8} {filesz memsz tcb : Nat}
    (setUp : elfSetupTls nx s pml4 data filesz memsz = some (s', tcb)) :
    s'.free <:+ s.free ∧ tcb = (tlsUserBase + memsz) % 2 ^ 64 := by
  simp only [elfSetupTls, bind_eq_bind, bind_eq_some_iff, hhdmCopyToUser_if] at setUp
  obtain ⟨s₁, mapped, same⟩ := setUp
  cases same
  refine ⟨?_, rfl⟩
  simp only [hhdmWrite64, Phys.write64_free, hhdmCopyToUser_free]
  exact mapFreshPages_taken _ _ mapped

/-- The thread control block of the header would be at address 0, which
    `elf_load_segments` takes for a failure. -/
def Phdr.NullTls (p : Phdr) : Prop := p.pType = ptTls ∧ (tlsUserBase + p.pMemsz) % 2 ^ 64 = 0

lemma loadHeaders_taken {l : Loaded}
    (loaded : loadHeaders nx pml4 image ps s l = some (s', r)) :
    s'.free <:+ s.free ∧ (r = none ↔ ∃ p ∈ ps, p.NullTls) := by
  induction ps generalizing s l with
  | nil =>
    cases loaded
    exact ⟨suffix_rfl, by simp⟩
  | cons p ps ih =>
    have skip : ¬ p.NullTls → ((∃ q ∈ p :: ps, q.NullTls) ↔ ∃ q ∈ ps, q.NullTls) := by
      intro other
      simp [other]
    rw [loadHeaders] at loaded
    split at loaded
    next isLoad =>
      rw [skip fun null => absurd (isLoad.symm.trans null.1) (by decide)]
      split at loaded
      · exact ih loaded
      obtain ⟨s₁, segment, rest⟩ := bind_eq_some_iff.mp loaded
      exact ⟨(ih rest).1.trans (loadSegment_taken segment), (ih rest).2⟩
    · split at loaded
      next isTls =>
        simp only [bind_eq_bind, bind_eq_some_iff] at loaded
        obtain ⟨⟨s₁, tcb⟩, setUp, rest⟩ := loaded
        obtain ⟨taken, rfl⟩ := elfSetupTls_taken setUp
        split at rest
        next null =>
          cases rest
          exact ⟨taken, iff_of_true rfl ⟨p, mem_cons_self, isTls, null⟩⟩
        next valid =>
          rw [skip fun null => valid null.2]
          exact ⟨(ih rest).1.trans taken, (ih rest).2⟩
      rename_i other
      rw [skip fun null => other null.1]
      split at loaded <;> exact ih loaded

lemma relroHeaders_taken (protected_ : relroHeaders nx pml4 ps s = some s') : s'.free <:+ s.free := by
  induction ps generalizing s with
  | nil =>
    cases protected_
    exact suffix_rfl
  | cons p ps ih =>
    rw [relroHeaders] at protected_
    split at protected_
    · obtain ⟨s₁, remapped, rest⟩ := bind_eq_some_iff.mp protected_
      exact (ih rest).trans (remapPages_taken _ _ remapped)
    · exact ih protected_

/-- A program header that makes the loader give up. -/
def Phdr.Rejected (p : Phdr) : Prop := p.pType = ptInterp ∨ p.NullTls

instance (p : Phdr) : Decidable p.Rejected := by
  unfold Phdr.Rejected Phdr.NullTls
  infer_instance

lemma elfLoadSegments_taken
    (loaded : elfLoadSegments nx s pml4 image = some (s', r)) :
    s'.free <:+ s.free ∧ (r = none ↔ ∃ p ∈ phdrs image, p.Rejected) := by
  unfold elfLoadSegments at loaded
  split at loaded
  next interp =>
    cases loaded
    obtain ⟨p, listed, isInterp⟩ := any_eq_true.mp interp
    exact ⟨suffix_rfl, iff_of_true rfl ⟨p, listed, .inl (beq_iff_eq.mp isInterp)⟩⟩
  rename_i noInterp
  have verdict : (∃ p ∈ phdrs image, p.Rejected) ↔ ∃ p ∈ phdrs image, p.NullTls := by
    refine exists_congr fun p => and_congr_right fun listed => or_iff_right fun isInterp => ?_
    exact noInterp (any_eq_true.mpr ⟨p, listed, beq_iff_eq.mpr isInterp⟩)
  rw [verdict]
  obtain ⟨⟨s₁, r₁⟩, headers, rest⟩ := bind_eq_some_iff.mp loaded
  obtain ⟨taken, failed⟩ := loadHeaders_taken headers
  cases r₁ with
  | none =>
    cases rest
    exact ⟨taken, failed⟩
  | some l =>
    obtain ⟨s₂, protected_, same⟩ := bind_eq_some_iff.mp rest
    cases same
    exact ⟨(relroHeaders_taken protected_).trans taken, by simpa using failed⟩

end

/-! ## Where the stack pointer ends up -/

/-- The address of a string that is pushed at a stack pointer. -/
def pushedAt (str : CString) (sp : Nat) : Nat := sub64 sp (str.strlen + 1) / 8 * 8

/-- What `elf_build_stack` returns depends on the lengths of the strings only. -/
def stackPointer (argv envp : List CString) (execfn : Option CString) : Nat :=
  let strings := execfn.toList.foldr pushedAt ((argv ++ envp).foldr pushedAt stackTop)
  let random := sub64 (sub64 (pushedAt .platform strings) 8) 8
  (sub64 · 8)^[vectorWords argv.length envp.length (if execfn.isSome ∧ strings ≠ 0 then 1 else 0)]
    (alignStack argv.length envp.length random)

section

variable (pml4 : Nat)

lemma pushStrings_free (strs : List CString) (s : Phys) (sp : Nat) :
    (pushStrings pml4 strs s sp).1.free = s.free ∧
      (pushStrings pml4 strs s sp).2.1 = strs.foldr pushedAt sp := by
  induction strs with
  | nil => exact ⟨rfl, rfl⟩
  | cons str strs ih =>
    refine ⟨(hhdmCopyToUser_free ..).trans ih.1, ?_⟩
    rw [foldr_cons, ← ih.2]
    rfl

lemma pushWords_free (ws : List Nat) (s : Phys) (sp : Nat) :
    (pushWords pml4 ws s sp).1.free = s.free ∧ (pushWords pml4 ws s sp).2 = (sub64 · 8)^[ws.length] sp := by
  induction ws generalizing s sp with
  | nil => exact ⟨rfl, rfl⟩
  | cons w ws ih => exact ih (hhdmWrite64 s pml4 (sub64 sp 8) w) (sub64 sp 8)

lemma pushVectors_free (seed : Nat) (h : Ehdr) (loadBase platform execfn : Nat)
    (uargv uenvp : List Nat) (s : Phys) :
    (pushVectors pml4 seed h loadBase platform execfn uargv uenvp s).1.free = s.free ∧
      (pushVectors pml4 seed h loadBase platform execfn uargv uenvp s).2 =
        (sub64 · 8)^[vectorWords uargv.length uenvp.length (if execfn ≠ 0 then 1 else 0)]
          (alignStack uargv.length uenvp.length (sub64 (sub64 platform 8) 8)) := by
  simp only [pushVectors]
  simp only [pushWords_free, true_and]
  congr 1
  simp only [length_append, length_cons, length_reverse, length_nil,
    auxvWords_length, auxv_length h loadBase platform _ (rfl : (if execfn ≠ 0 then 1 else 0) = _),
    vectorWords]
  omega

lemma elfBuildStack_free (s : Phys) (seed : Nat) (argv envp : List CString) (h : Ehdr)
    (loadBase : Nat) (execfn : Option CString) :
    (elfBuildStack s pml4 seed argv envp h loadBase execfn).1.free = s.free ∧
      (elfBuildStack s pml4 seed argv envp h loadBase execfn).2 = stackPointer argv envp execfn := by
  obtain ⟨free₁, sp₁⟩ := pushStrings_free pml4 envp s stackTop
  have count₁ := pushStrings_length pml4 envp s stackTop
  simp only [elfBuildStack, stackPointer, foldr_append, ← sp₁]
  generalize pushStrings pml4 envp s stackTop = r₁ at free₁ count₁ ⊢
  obtain ⟨free₂, sp₂⟩ := pushStrings_free pml4 argv r₁.1 r₁.2.1
  have count₂ := pushStrings_length pml4 argv r₁.1 r₁.2.1
  simp only [← sp₂]
  generalize pushStrings pml4 argv r₁.1 r₁.2.1 = r₂ at free₂ count₂ ⊢
  have named : (pushExecfn pml4 execfn r₂.1 r₂.2.1).1.free = r₂.1.free ∧
      (pushExecfn pml4 execfn r₂.1 r₂.2.1).2.1 = execfn.toList.foldr pushedAt r₂.2.1 ∧
      ((pushExecfn pml4 execfn r₂.1 r₂.2.1).2.2 ≠ 0 ↔
        execfn.isSome ∧ execfn.toList.foldr pushedAt r₂.2.1 ≠ 0) := by
    cases execfn with
    | none => simp [pushExecfn]
    | some str => simp [pushExecfn, pushString, hhdmCopyToUser_free, pushedAt]
  obtain ⟨free₃, sp₃, address⟩ := named
  simp only [← sp₃] at address ⊢
  generalize pushExecfn pml4 execfn r₂.1 r₂.2.1 = r₃ at free₃ address ⊢
  simp only [pushVectors_free, count₁, count₂, address]
  exact ⟨by rw [pushString, hhdmCopyToUser_free, free₃, free₂, free₁], rfl⟩

end

variable {kernelPml4 : Nat} {s : Phys}

lemma vmmCreateUserPml4_free {s' : Phys} {pml4 : Nat}
    (created : vmmCreateUserPml4 s kernelPml4 = some (s', pml4)) : ∃ f, s.free = f :: s'.free := by
  simp only [vmmCreateUserPml4, bind_eq_bind, bind_eq_some_iff] at created
  obtain ⟨⟨s₁, a⟩, allocated, same⟩ := created
  cases same
  obtain ⟨f, -, free⟩ := pallocZero_free allocated
  exact ⟨f, free⟩

/-- A valid image costs a frame, and may still turn out not to be loadable. -/
lemma processPopulateFromElf_taken {nx : Bool} {seed : Nat}
    {image : Bytes} {argv envp : List CString} {out : Outcome} (valid : elfValidate image = true)
    (ran : processPopulateFromElf nx seed s kernelPml4 image argv envp = some out) :
    (∃ f rest, s.free = f :: rest ∧ out.mem.free <:+ rest) ∧
      (out.populated = none ↔ (∃ p ∈ phdrs image, p.Rejected) ∨ stackPointer argv envp argv.head? = 0) := by
  unfold processPopulateFromElf at ran
  rw [if_neg (by simp [valid])] at ran
  simp only [bind_eq_bind, bind_eq_some_iff] at ran
  obtain ⟨⟨s₁, pml4⟩, created, ⟨s₂, r⟩, loaded, rest⟩ := ran
  obtain ⟨f, free⟩ := vmmCreateUserPml4_free created
  obtain ⟨taken, failed⟩ := elfLoadSegments_taken loaded
  cases r with
  | none =>
    cases rest
    exact ⟨⟨f, s₁.free, free, taken⟩, iff_of_true rfl (.inl (failed.mp rfl))⟩
  | some l =>
    obtain ⟨s₃, allocated, final⟩ := bind_eq_some_iff.mp rest
    obtain ⟨kept, pointer⟩ := elfBuildStack_free pml4 s₃ seed argv envp (ehdr image) l.loadBase argv.head?
    have accepted : ¬ ∃ p ∈ phdrs image, p.Rejected := fun rejected => by cases failed.mpr rejected
    have stack : s₃.free <:+ s₁.free := (mapFreshPages_taken _ _ allocated).trans taken
    rw [or_iff_right accepted, ← pointer]
    split at final
    next null =>
      cases final
      exact ⟨⟨f, s₁.free, free, kept ▸ stack⟩, iff_of_true rfl null⟩
    next valid =>
      cases final
      exact ⟨⟨f, s₁.free, free, kept ▸ stack⟩, iff_of_false (by simp) valid⟩

/-! ## The calls of the heap -/

section

variable {k k' : Store}

variable {array : Nat} {copies rest : List Nat} {strs : List CString}

lemma copyStrings_heapOnly {i : Nat}
    (copied : copyStrings array i strs k = some (k', copies)) : k.HeapOnly k' := by
  induction strs generalizing i k copies with
  | nil =>
    obtain ⟨rfl, -⟩ := Prod.mk.inj (some.inj copied)
    exact .refl k
  | cons str strs ih =>
    simp only [copyStrings, bind_eq_bind, bind_eq_some_iff] at copied
    obtain ⟨⟨k₁, a⟩, malloc, ⟨k₂, rest⟩, others, same⟩ := copied
    cases same
    exact (of_kmalloc malloc).trans ((of_fill ..).trans ((of_fill ..).trans (ih others)))

lemma copyVector_heapOnly (copied : copyVector strs k = some (k', array, copies)) : k.HeapOnly k' := by
  simp only [copyVector, bind_eq_bind, bind_eq_some_iff] at copied
  obtain ⟨⟨k₁, a⟩, malloc, ⟨k₂, rest⟩, others, same⟩ := copied
  cases same
  exact (of_kmalloc malloc).trans ((of_fill ..).trans (copyStrings_heapOnly others))

lemma freeVector_heapOnly (array : Nat) (copies : List Nat) (k : Store) :
    k.HeapOnly (freeVector array copies k) := by
  refine .trans ?_ (.of_kfree _ array)
  induction copies generalizing k with
  | nil => exact .refl k
  | cons a copies ih => exact (of_kfree k a).trans (ih (k.kfree a))

/-- A frame that is taken and not given to the heap has become allocated. -/
lemma allocated_of_taken (sound : k.Sound) {f : Nat}
    (free : k.phys.free = f :: rest) (taken : s.free <:+ rest) :
    ¬ k.Allocated f ∧ ({ k with phys := s } : Store).Allocated f := by
  have listed : f ∈ k.phys.free := free ▸ mem_cons_self
  have nodup := sound.phys.nodup
  rw [free, nodup_cons] at nodup
  exact ⟨fun used => used.1 listed, fun still => nodup.1 (taken.subset still), sound.apart f listed⟩

end

/-! ## Failures -/

/-- Nothing a process can notice has changed, and no frame was lost. -/
structure Exec.Untouched (x x' : Exec) : Prop where
  proc : x'.proc = x.proc
  memory : ∀ v b, ReadsAs x'.store.phys x'.proc.pml4 v b ↔ ReadsAs x.store.phys x.proc.pml4 v b
  frames : ∀ f, x'.store.Allocated f ↔ x.store.Allocated f

structure Spawner.Untouched (t t' : Spawner) : Prop where
  initProcess : t'.initProcess = t.initProcess
  frames : ∀ f, t'.store.Allocated f ↔ t.store.Allocated f

section

variable {nx : Bool} {seed kernelPml4 : Nat} {image : Bytes} {argv envp : List CString}

lemma replace_untouched_iff {x x' : Exec} {r : Int} (sound : x.store.Sound)
    (ran : replaceProcessWithElf nx seed kernelPml4 x image argv envp = some (x', r)) :
    (r = -1 → x.Untouched x') ↔ ¬ (elfValidate image = true ∧
      ((∃ p ∈ phdrs image, p.Rejected) ∨ stackPointer argv envp argv.head? = 0)) := by
  simp only [replaceProcessWithElf, bind_eq_bind, bind_eq_some_iff] at ran
  obtain ⟨⟨k₁, kargv, args⟩, copied₁, ⟨k₂, kenvp, vars⟩, copied₂, out, populated, final⟩ := ran
  have calls := (copyVector_heapOnly copied₁).trans (copyVector_heapOnly copied₂)
  have finish : ∀ k : Store, k.HeapOnly (freeVector kenvp vars (freeVector kargv args k)) :=
    fun k => (freeVector_heapOnly kargv args k).trans (freeVector_heapOnly kenvp vars _)
  cases valid : elfValidate image with
  | false =>
    refine iff_of_true (fun _ => ?_) (by simp)
    unfold processPopulateFromElf at populated
    rw [if_pos (by simp [valid])] at populated
    cases populated
    cases final
    have all := calls.trans (finish k₂)
    refine ⟨rfl, fun v b => ?_, all.allocated_iff⟩
    simp only [ReadsAs, all.mem]
  | true =>
    obtain ⟨⟨f, rest, free, taken⟩, failed⟩ := processPopulateFromElf_taken valid populated
    simp only [true_and, ← failed]
    split at final
    next none =>
      cases final
      refine iff_of_false (fun untouched => ?_) (not_not.mpr (isNone_iff_eq_none.mp none))
      obtain ⟨before, after⟩ := allocated_of_taken (calls.sound sound) free taken
      rw [calls.allocated_iff] at before
      exact before (((untouched rfl).frames f).mp ((finish _).allocated_iff f |>.mpr after))
    rename_i some
    cases final
    exact iff_of_true (fun wrong => absurd wrong (by decide)) (mt isNone_iff_eq_none.mpr some)

lemma create_untouched_iff {t t' : Spawner} {current : Nat} {r : Option Created}
    (sound : t.store.Sound)
    (ran : createProcessFromElf nx seed kernelPml4 t current image argv envp = some (t', r)) :
    (r = none → t.Untouched t') ↔ ¬ (elfValidate image = true ∧ ∃ p ∈ phdrs image, p.Rejected) := by
  unfold createProcessFromElf at ran
  split at ran
  next invalid =>
    cases ran
    exact iff_of_true (fun _ => ⟨rfl, fun _ => .rfl⟩) fun both => by simp [both.1] at invalid
  rename_i valid
  simp only [bind_eq_bind, bind_eq_some_iff] at ran
  obtain ⟨⟨k₁, proc⟩, malloc, ⟨s₁, pml4⟩, created, ⟨k₂, kstack⟩, stack, ⟨s₂, r₂⟩, loaded, rest⟩ := ran
  obtain ⟨f, free⟩ := vmmCreateUserPml4_free created
  obtain ⟨taken, failed⟩ := elfLoadSegments_taken loaded
  have valid : elfValidate image = true := by simpa using valid
  simp only [valid, true_and, ← failed]
  cases r₂ with
  | none =>
    cases rest
    refine iff_of_false (fun untouched => ?_) (not_not.mpr rfl)
    have first := of_kzalloc malloc
    have second := of_kmalloc stack
    obtain ⟨before, after⟩ := allocated_of_taken (first.sound sound) free suffix_rfl
    rw [first.allocated_iff] at before
    refine before (((untouched rfl).frames f).mp ?_)
    have kept : ({ k₂ with phys := s₂ } : Store).Allocated f :=
      ⟨fun listed => (second.allocated_iff f |>.mpr after).1 (taken.subset listed),
        (second.allocated_iff f |>.mpr after).2⟩
    exact ((of_kfree _ kstack).trans (.of_kfree _ proc)).allocated_iff f |>.mpr kept
  | some l =>
    simp only [bind_eq_some_iff] at rest
    obtain ⟨s₃, -, ⟨k₃, stdin⟩, -, ⟨k₄, stdout⟩, -, ⟨k₅, stderr⟩, -, same⟩ := rest
    cases same
    exact iff_of_true (fun wrong => by cases wrong) (by simp)

/-- A failed call changes nothing exactly if the image is no ELF program for this
    machine, and not if the loader gives up later. -/
theorem failed_loading_untouched_iff :
    (∀ (x x' : Exec) (r : Int), x.store.Sound →
      replaceProcessWithElf nx seed kernelPml4 x image argv envp = some (x', r) →
      ((r = -1 → x.Untouched x') ↔ ¬ (elfValidate image = true ∧
        ((∃ p ∈ phdrs image, p.Rejected) ∨ stackPointer argv envp argv.head? = 0)))) ∧
    ∀ (t t' : Spawner) (current : Nat) (r : Option Created), t.store.Sound →
      createProcessFromElf nx seed kernelPml4 t current image argv envp = some (t', r) →
      ((r = none → t.Untouched t') ↔ ¬ (elfValidate image = true ∧ ∃ p ∈ phdrs image, p.Rejected)) :=
  ⟨fun _ _ _ sound ran => replace_untouched_iff sound ran,
    fun _ _ _ _ sound ran => create_untouched_iff sound ran⟩

end

/-! ## An image that asks for an interpreter -/

def emptyStore : Store where
  phys := freshMachine (List.range' 1 12)
  heap := initSlab ⟨fun _ => 0, 0, fun _ => 0, 0⟩
  heapFrames := []

lemma emptyStore_sound : emptyStore.Sound :=
  ⟨⟨by decide, by decide⟩, fun _ _ listed => by cases listed⟩

def emptyExec : Exec where
  store := emptyStore
  proc := ⟨0x200000, 0, 0, 0, 0, 0, 0, Kernel.zeroFrame, fun _ => none⟩
  core := ⟨0x200000, 0, 0, 0⟩
  closed := []

theorem zero_image_untouched :
    ∃ x', replaceProcessWithElf true 0 0x100000 emptyExec (fun _ => 0) [] [] = some (x', -1) ∧
      emptyExec.Untouched x' := by
  have completes : (replaceProcessWithElf true 0 0x100000 emptyExec (fun _ => 0) [] []).map (·.2) =
      some (-1) := by decide +kernel
  obtain ⟨⟨x', r⟩, ran, rfl⟩ := map_eq_some_iff.mp completes
  exact ⟨x', ran, (failed_loading_untouched_iff.1 emptyExec x' (-1) emptyStore_sound ran).mpr
    (by decide) rfl⟩

/-- Both calls fail and keep the frame of the root table. The first process even stays
    `init_process` after its memory was freed. -/
theorem interpreter_costs_a_frame : elfValidate interpImage = true ∧
    (∃ x', replaceProcessWithElf true 0 0x100000 emptyExec interpImage [] [] = some (x', -1) ∧
      ¬ emptyExec.Untouched x') ∧
    ∃ t', createProcessFromElf true 0 0x100000 ⟨emptyStore, 1, none⟩ 0 interpImage [] [] =
        some (t', none) ∧ t'.initProcess ≠ none ∧ ¬ Spawner.Untouched ⟨emptyStore, 1, none⟩ t' := by
  have valid : elfValidate interpImage = true := by decide +kernel
  have rejected : ∃ p ∈ phdrs interpImage, p.Rejected := by decide +kernel
  have replaced : (replaceProcessWithElf true 0 0x100000 emptyExec interpImage [] []).map (·.2) =
      some (-1) := by decide +kernel
  have failed : (createProcessFromElf true 0 0x100000 ⟨emptyStore, 1, none⟩ 0 interpImage [] []).map
      (fun r => (r.1.initProcess.isSome, r.2.isSome)) = some (true, false) := by decide +kernel
  obtain ⟨⟨x', r⟩, ran, rfl⟩ := map_eq_some_iff.mp replaced
  obtain ⟨⟨t', r⟩, ran', same⟩ := map_eq_some_iff.mp failed
  obtain ⟨isInit, absent⟩ := Prod.mk.inj same
  obtain rfl : r = none := by simpa using absent
  refine ⟨valid, ⟨x', ran, fun untouched => ?_⟩, t', ran', isSome_iff_ne_none.mp isInit,
    fun untouched => ?_⟩
  · exact (replace_untouched_iff emptyStore_sound ran).mp (fun _ => untouched) ⟨valid, .inl rejected⟩
  · exact (create_untouched_iff emptyStore_sound ran').mp (fun _ => untouched) ⟨valid, rejected⟩

end Znu.Elf
