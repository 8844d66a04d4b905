import Znu.Files.Driver

/-! # The VFSe table

`vfse.c` keeps one table of descriptors and one working directory for the whole kernel. A
file and a pipe are known by their places in the order of creation; `freed` and
`freedPipes` list what `vfse_free_file` has given to `kfree`. The bytes in a pipe are left
out: no system call reaches `vfse_read` or `vfse_write`.
-/

namespace Znu.Files

open Function List

structure VfseFile (Node : Type) where
  node : Option Node
  pos : Nat
  flags : BitVec 32
  fdFlags : BitVec 32
  refCount : Int
  pipe : Option Nat

structure Vfse (Node : Type) where
  fds : Nat → Option Nat
  file : Nat → VfseFile Node
  /-- how many files and how many pipes have been created -/
  made : Nat
  pipes : Nat
  freed : List Nat
  freedPipes : List Nat
  nextFd : Nat
  cwd : List UInt8

variable {Node : Type}

/-- A file as `vfse_alloc_file` clears it. -/
def VfseFile.blank : VfseFile Node := ⟨none, 0, 0, 0, 0, none⟩

/-- An open file, which is at the end of its node if it is for appending. -/
def VfseFile.ofNode (node : Node) (size : Nat) (flags : BitVec 32) : VfseFile Node :=
  ⟨some node, if flags &&& 0x400 ≠ 0 then size else 0, flags, 0, 1, none⟩

def VfseFile.pipeEnd (pipe : Nat) (flags : BitVec 32) : VfseFile Node :=
  ⟨none, 0, flags, 0, 1, some pipe⟩

def vfseInit : Vfse Node where
  fds := fun _ => none
  file := fun _ => .blank
  made := 0
  pipes := 0
  freed := []
  freedPipes := []
  nextFd := 3
  cwd := [slash]

namespace Vfse

variable (v : Vfse Node)

@[simps] def setFd (fd : Nat) (entry : Option Nat) : Vfse Node :=
  { v with fds := Function.update v.fds fd entry }

@[simps] def setFile (id : Nat) (file : VfseFile Node) : Vfse Node :=
  { v with file := Function.update v.file id file }

/-- `file->ref_count += n` -/
@[simps] def addRef (id : Nat) (n : Int) : Vfse Node :=
  let file := { v.file id with refCount := (v.file id).refCount + n }
  { v with file := Function.update v.file id file }

/-- `vfse_alloc_file`, and the fields set by its caller. -/
@[simps] def vfseAllocFile (file : VfseFile Node) : Vfse Node :=
  { v with file := Function.update v.file v.made file, made := v.made + 1 }

@[simps] def vfseFreeFile (id : Nat) : Vfse Node :=
  { v with freed := id :: v.freed, freedPipes := (v.file id).pipe.toList ++ v.freedPipes }

/-- The descriptor `vfse_alloc_fd` takes. -/
def freeFd : Option Nat :=
  (List.range' v.nextFd (256 - v.nextFd) ++ List.range' 3 (v.nextFd - 3)).find?
    fun i => (v.fds i).isNone

def vfseAllocFd (id : Nat) : Vfse Node × Int :=
  match v.freeFd with
  | some i => ({ v.setFd i (some id) with nextFd := i + 1 }, i)
  | none => (v, -1)

def vfseGetFile (fd : Int) : Option Nat := if fd < 0 ∨ 256 ≤ fd then none else v.fds fd.toNat

def vfseFreeFd (fd : Int) : Vfse Node :=
  match v.vfseGetFile fd with
  | none => v
  | some id =>
    let v := v.addRef id (-1)
    let v := if (v.file id).refCount ≤ 0 then v.vfseFreeFile id else v
    { v.setFd fd.toNat none with nextFd := min fd.toNat v.nextFd }

def vfseClose (fd : Int) : Vfse Node × Int :=
  match v.vfseGetFile fd with
  | none => (v, -1)
  | some _ => (v.vfseFreeFd fd, 0)

/-- The part of `vfse_open` after the node has been found. -/
def openNode (node : Node) (size : Nat) (flags : BitVec 32) : Vfse Node × Int :=
  let allocated := (v.vfseAllocFile (.ofNode node size flags)).vfseAllocFd v.made
  if allocated.2 < 0 then (allocated.1.vfseFreeFile v.made, -1) else allocated

def vfseDup (fd : Int) : Vfse Node × Int :=
  match v.vfseGetFile fd with
  | none => (v, -1)
  | some id =>
    let allocated := (v.addRef id 1).vfseAllocFd id
    if allocated.2 < 0 then (allocated.1.addRef id (-1), -1) else allocated

def vfseDup2 (oldfd newfd : Int) : Vfse Node × Int :=
  if newfd < 0 ∨ 256 ≤ newfd then (v, -1) else
  match v.vfseGetFile oldfd with
  | none => (v, -1)
  | some id => (((v.vfseClose newfd).1.addRef id 1).setFd newfd.toNat (some id), newfd)

/-- The descriptor that `F_DUPFD` takes. -/
def freeFrom (least : Int) : Option Nat :=
  (List.range' least.toNat (256 - least.toNat)).find? fun i => (v.fds i).isNone

/-- The commands `F_DUPFD`, `F_GETFD`, `F_SETFD`, `F_GETFL` and `F_SETFL`. -/
def vfseFcntl (fd cmd : Int) (arg : BitVec 32) : Vfse Node × Int :=
  match v.vfseGetFile fd with
  | none => (v, -1)
  | some id =>
    let file := v.file id
    match cmd with
    | 0 =>
      match v.freeFrom arg.toInt with
      | some i => ((v.addRef id 1).setFd i (some id), i)
      | none => ((v.addRef id 1).addRef id (-1), -1)
    | 1 => (v, file.fdFlags.toInt)
    | 2 => (v.setFile id { file with fdFlags := arg }, 0)
    | 3 => (v, file.flags.toInt)
    | 4 => (v.setFile id { file with flags := arg }, 0)
    | _ => (v, -1)

/-- A new pipe and its two ends: the one to read from, and the one to write to. -/
def newPipe : Vfse Node :=
  { (v.vfseAllocFile (.pipeEnd v.pipes 0)).vfseAllocFile (.pipeEnd v.pipes 1) with
    pipes := v.pipes + 1 }

/-- The return value, and the two numbers stored in `pipefd`. -/
def vfsePipe : Vfse Node × Int × Int × Int :=
  let reader := v.newPipe.vfseAllocFd v.made
  let writer := reader.1.vfseAllocFd (v.made + 1)
  if reader.2 < 0 ∨ writer.2 < 0 then
    let v := if 0 ≤ reader.2 then (writer.1.vfseClose reader.2).1 else writer.1
    let v := if 0 ≤ writer.2 then (v.vfseClose writer.2).1 else v
    (v, -1, reader.2, writer.2)
  else (writer.1, 0, reader.2, writer.2)

end Vfse

end Znu.Files
