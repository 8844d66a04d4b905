import Znu.Files.Vfse
import Znu.Fs.Memfs
import Znu.Machine.Cpu

/-! # The system calls on files

A process has its own table `files`, which `open`, `close`, `read`, `write`, `writev`,
`fstat`, `getdents` and `ioctl` use; `pipe`, `dup`, `dup2`, `fcntl`, `chdir` and `getcwd` use
the VFSe table, and `execve` uses both. A `vfs_file_t` is never shared, so it is kept in the
table, with its place in the order in which the process opened its files.
-/

namespace Znu.Files

open Lib Machine List Function

structure VfsFile (Node : Type) where
  node : Node
  pos : Nat
  flags : BitVec 32
  serial : Nat

/-- What a system call of one process works on. -/
structure Context (Node Disk : Type) where
  /-- `current_process->files`, which has `MAX_FILES` entries -/
  files : Nat → Option (VfsFile Node)
  /-- how many files the process has opened -/
  opened : Nat
  vfse : Vfse Node
  disk : Disk

/-- The bytes stored from an address on. -/
structure Store where
  addr : Nat
  bytes : List UInt8
  deriving DecidableEq

structure Outcome where
  /-- `none` if the call does not return to its caller -/
  ret : Option Int
  /-- what is stored through the pointers in the arguments -/
  stores : List Store
  /-- the indices used into `current_process->files` -/
  indices : List Int

/-- What a system call finds beside its registers: the memory of its caller, and what is
    left on the kernel stack where `abspath` is. -/
structure Caller where
  memory : Bytes
  stack : List UInt8

def maxFiles : Nat := 32

def enoent : Int := 2
def eio : Int := 5
def efault : Int := 14
def enotdir : Int := 20
def emfile : Int := 24
def erofs : Int := 30

def oWronly : BitVec 32 := 0x1
def oRdwr : BitVec 32 := 0x2
def oCreat : BitVec 32 := 0x40
def oNonblock : BitVec 32 := 0x800
def oDirectory : BitVec 32 := 0x10000

/-- `file->pos += ret` -/
def VfsFile.advance {Node : Type} (file : VfsFile Node) (ret : Int) : VfsFile Node :=
  if 0 < ret then { file with pos := (file.pos + ret.toNat) % 2 ^ 64 } else file

/-- The node `sys_open` finds or creates, or the number of an error. -/
def Host.findOrCreate {Node Disk : Type} (host : Host Node Disk) (disk : Disk) (abspath : List UInt8)
    (flags : BitVec 32) : Except Int Node × Disk :=
  let found := host.respond disk (.pathToNode abspath)
  match found.1 with
  | some node => (.ok node, found.2)
  | none =>
    if flags &&& oCreat = 0 then (.error enoent, found.2) else
    match splitPath abspath with
    | none => (.error enoent, found.2)
    | some (dir, name) =>
      let parent := host.respond found.2 (.pathToNode (parentPath dir))
      match parent.1 with
      | none => (.error erofs, parent.2)
      | some node =>
        if (host.fields parent.2 node).creates = false then (.error erofs, parent.2) else
        let created := host.respond parent.2 (.create node (name.take 127))
        match created.1 with
        | none => (.error enoent, created.2)
        | some node => (.ok node, created.2)

section

variable {Node Disk : Type} [DecidableEq Node] (host : Host Node Disk) (caller : Caller)
  (c : Context Node Disk)

namespace Context

def setFile (fd : Nat) (entry : Option (VfsFile Node)) : Context Node Disk :=
  { c with files := Function.update c.files fd entry }

/-- A call that only returns a value. -/
def returns (indices : List Int) (ret : Int) : Outcome × Context Node Disk :=
  (⟨some ret, [], indices⟩, c)

/-- The first descriptor of a node, where the loop of `tty_vfs_read` stops. -/
def sameNode (node : Node) : Option Nat :=
  (range maxFiles).find? fun i => (c.files i).any (·.node = node)

def nonblock (node : Node) : Bool :=
  ((c.sameNode node).bind c.files).any fun file => file.flags &&& oNonblock ≠ 0

/-- The indices that `tty_vfs_read` uses. -/
def ttyIndices (node : Node) : List Int :=
  if (host.fields c.disk node).tty then
    (range (((c.sameNode node).map (· + 1)).getD maxFiles)).map Int.ofNat
  else []

/-! ## `read`, `write` and `writev` -/

def sysRead (fd : Int) (buf count : Nat) : Outcome × Context Node Disk :=
  if fd < 0 ∨ maxFiles ≤ fd then c.returns [] (-1) else
  if buf = 0 ∨ isUserAddr buf count = false then c.returns [] (-1) else
  match c.files fd.toNat with
  | none => c.returns [fd] (-1)
  | some file =>
    let reply := host.respond c.disk (.read file.node (c.nonblock file.node) count file.pos)
    (⟨some reply.1.1, [⟨buf, reply.1.2⟩], fd :: c.ttyIndices host file.node⟩,
      { c.setFile fd.toNat (some (file.advance reply.1.1)) with disk := reply.2 })

def sysWrite (fd : Int) (buf count : Nat) : Outcome × Context Node Disk :=
  if fd < 0 ∨ maxFiles ≤ fd then c.returns [] (-1) else
  if buf = 0 ∨ isUserAddr buf count = false then c.returns [] (-1) else
  match c.files fd.toNat with
  | none => c.returns [fd] (-1)
  | some file =>
    if file.flags &&& oWronly = 0 ∧ file.flags &&& oRdwr = 0 then c.returns [fd] (-1) else
    let reply := host.respond c.disk (.write file.node caller.memory buf count file.pos)
    (⟨some reply.1, [], [fd]⟩,
      { c.setFile fd.toNat (some (file.advance reply.1)) with disk := reply.2 })

/-- The loop over the `struct iovec`s that are left, from the one at `iov` on. -/
def writevLoop (fd : Int) (iov : Nat) (total : Int) :
    Nat → Context Node Disk → Outcome × Context Node Disk
  | 0, c => c.returns [] total
  | n + 1, c =>
    let base := caller.memory.word iov 8
    let len := caller.memory.word (iov + 8) 8
    if len = 0 then writevLoop fd (iov + 16) total n c else
    let written := c.sysWrite host caller fd base len
    let ret := written.1.ret.getD 0
    if ret < 0 then
      (⟨some (if 0 < total then total else -1), [], written.1.indices⟩, written.2)
    else
      let rest := writevLoop fd (iov + 16) (total + ret) n written.2
      (⟨rest.1.ret, [], written.1.indices ++ rest.1.indices⟩, rest.2)

/-- The system call with the number 20. -/
def writev (fd : Int) (iov : Nat) (iovcnt : BitVec 32) : Outcome × Context Node Disk :=
  if iov ≠ 0 ∧ isUserAddr iov ((16 * (iovcnt.signExtend 64).toNat) % 2 ^ 64) = true then
    writevLoop host caller fd iov 0 iovcnt.toInt.toNat c
  else c.returns [] (-1)

/-! ## `open` and `close` -/

/-- The path the file systems are asked for. -/
def abspath (path : List UInt8) : List UInt8 :=
  (vfseResolvePath c.vfse.cwd path).getD caller.stack

/-- The free entry that `open` takes, and the entries it looks at. -/
def freeFile : Option Nat := (range' 3 (maxFiles - 3)).find? fun i => (c.files i).isNone

def openIndices : List Int :=
  (range' 3 ((c.freeFile.map (· - 2)).getD (maxFiles - 3))).map Int.ofNat

/-- The part of `sys_open` after the node has been found. -/
def openNode (node : Node) (flags : BitVec 32) : Outcome × Context Node Disk :=
  if flags &&& oDirectory ≠ 0 ∧ (host.fields c.disk node).type ≠ .directory then
    c.returns [] (-enotdir) else
  match c.freeFile with
  | none => c.returns c.openIndices (-emfile)
  | some i =>
    (⟨some i, [], c.openIndices⟩,
      { c.setFile i (some ⟨node, 0, flags, c.opened⟩) with opened := c.opened + 1 })

def sysOpen (path : Nat) (flags : BitVec 32) : Outcome × Context Node Disk :=
  if path = 0 ∨ isUserAddr path 1 = false then c.returns [] (-efault) else
  match copyPath caller.memory path 255 with
  | none => c.returns [] (-efault)
  | some kpath =>
    if kpath = [] then c.returns [] (-enoent) else
    let target := host.findOrCreate c.disk (c.abspath caller kpath) flags
    let c := { c with disk := target.2 }
    match target.1 with
    | .error code => c.returns [] (-code)
    | .ok node => c.openNode host node flags

def sysClose (fd : Int) : Outcome × Context Node Disk :=
  if fd < 3 ∨ maxFiles ≤ fd then c.returns [] (-1) else
  match c.files fd.toNat with
  | none => c.returns [fd] (-1)
  | some _ => (c.setFile fd.toNat none).returns [fd] 0

/-! ## `fstat`, `getdents` and `ioctl` -/

/-- The `struct stat` of a node. -/
def kstat (fields : NodeFields) : List UInt8 :=
  let mode := match fields.type with
    | .file => 0o100755
    | .directory => 0o040755
    | _ => 0
  encode 16 0 ++ encode 8 mode ++ encode 8 0 ++ encode 4 fields.uid ++ encode 4 fields.gid ++
    encode 8 0 ++ encode 8 fields.size ++ encode 24 0

def sysFstat (fd : Int) (buf : Nat) : Outcome × Context Node Disk :=
  if fd < 0 ∨ maxFiles ≤ fd then c.returns [] (-1) else
  if buf = 0 ∨ isUserAddr buf 80 = false then c.returns [] (-1) else
  match c.files fd.toNat with
  | none => c.returns [fd] (-1)
  | some file => (⟨some 0, [⟨buf, kstat (host.fields c.disk file.node)⟩], [fd]⟩, c)

/-- `sizeof(znu_dirent_t)` -/
def direntSize : Nat := 136

def dirent (child : Child) : List UInt8 :=
  padded 127 child.name ++ [0] ++ encode 4 child.type.number ++ encode 4 child.size

/-- The loop of `sys_getdents` over the entries of a directory. -/
def direntLoop (buf count : Nat) : List Child → Nat → List Store
  | [], _ => []
  | child :: rest, read =>
    if read + direntSize ≤ count then
      ⟨(buf + read) % 2 ^ 64, dirent child⟩ :: direntLoop buf count rest (read + direntSize)
    else direntLoop buf count rest read

/-- The index is not tested; what a process has beyond its table is not modelled. -/
def sysGetdents (fd : Int) (buf count : Nat) : Outcome × Context Node Disk :=
  match if fd < 0 ∨ maxFiles ≤ fd then none else c.files fd.toNat with
  | none => c.returns [fd] (-1)
  | some file =>
    let fields := host.fields c.disk file.node
    if fields.type ≠ .directory then c.returns [fd] (-1) else
    if fields.listsItself then
      let reply := host.respond c.disk (.readdir file.node (file.pos % 2 ^ 32) count)
      (⟨some reply.1.1, [⟨buf, reply.1.2⟩], [fd]⟩,
        { c.setFile fd.toNat (some (file.advance (reply.1.1 / direntSize))) with disk := reply.2 })
    else
      let stores := direntLoop buf count (fields.children.drop (Fs.toInt file.pos).toNat) 0
      (⟨some (direntSize * stores.length), stores, [fd]⟩,
        c.setFile fd.toNat (some (file.advance stores.length)))

def ttyIoctl (request argp : Nat) (indices : List Int) : Outcome × Context Node Disk :=
  if argp = 0 then c.returns indices (-1) else
  match request with
  | 0x5401 =>
    let reply := host.respond c.disk .termios
    (⟨some 0, [⟨argp, padded termiosSize reply.1⟩], indices⟩, { c with disk := reply.2 })
  | 0x5402 | 0x5403 | 0x5404 =>
    let settings := (range termiosSize).map fun i => caller.memory (argp + i)
    let reply := host.respond c.disk (.setTermios settings)
    (⟨some 0, [], indices⟩, { c with disk := reply.2 })
  | 0x5413 => (⟨some 0, [⟨argp, encode 2 25 ++ encode 2 80 ++ encode 4 0⟩], indices⟩, c)
  | _ => c.returns indices (-1)

def sysIoctl (fd : Int) (request argp : Nat) : Outcome × Context Node Disk :=
  if fd < 0 ∨ maxFiles ≤ fd then c.returns [] (-1) else
  match c.files fd.toNat with
  | none => c.returns [fd] (-1)
  | some file =>
    let fields := host.fields c.disk file.node
    if fields.type = .device ∧ fields.tty then c.ttyIoctl host caller request argp [fd]
    else c.returns [fd] (-1)

/-! ## The calls on the VFSe table -/

/-- A call that works on the VFSe table only. -/
def onVfse (result : Vfse Node × Int) : Outcome × Context Node Disk :=
  ⟨⟨some result.2, [], []⟩, { c with vfse := result.1 }⟩

def vfsePipe (pipefd : Nat) : Outcome × Context Node Disk :=
  if pipefd = 0 then c.returns [] (-1) else
  let made := c.vfse.vfsePipe
  (⟨some made.2.1, [⟨pipefd, encodeInt made.2.2.1⟩, ⟨(pipefd + 4) % 2 ^ 64, encodeInt made.2.2.2⟩], []⟩,
    { c with vfse := made.1 })

def vfseChdir (path : Nat) : Outcome × Context Node Disk :=
  if path = 0 then c.returns [] (-1) else
  match vfseResolvePath c.vfse.cwd (text caller.memory path 4095) with
  | none => c.returns [] (-1)
  | some abspath =>
    let found := host.respond c.disk (.pathToNode abspath)
    let c := { c with disk := found.2 }
    match found.1 with
    | none => c.returns [] (-1)
    | some node =>
      if (host.fields c.disk node).type ≠ .directory then c.returns [] (-1) else
      c.onVfse ({ c.vfse with cwd := abspath }, 0)

/-- The result is the buffer itself, or NULL. -/
def vfseGetcwd (buf size : Nat) : Outcome × Context Node Disk :=
  if buf = 0 ∨ size = 0 then c.returns [] 0 else
  (⟨some buf, [⟨buf, padded (size - 1) c.vfse.cwd ++ [0]⟩], []⟩, c)

/-! ## `execve` -/

/-- The loop of `replace_process_with_elf` over the descriptors from 3 on. -/
def closeOnExec : List Nat → Context Node Disk → Context Node Disk
  | [], c => c
  | i :: rest, c =>
    closeOnExec rest (match c.files i with
      | none => c
      | some _ => { c.setFile i none with vfse := (c.vfse.vfseClose i).1 })

def sysExecve (path : Nat) : Outcome × Context Node Disk :=
  match copyPath caller.memory path 255 with
  | none => c.returns [] (-1)
  | some kpath =>
    let found := host.respond c.disk (.pathToNode (c.abspath caller kpath))
    let c := { c with disk := found.2 }
    match found.1 with
    | none => c.returns [] (-1)
    | some node =>
      let fields := host.fields c.disk node
      if fields.type ≠ .file then c.returns [] (-1) else
      let image := host.respond c.disk (.read node (c.nonblock node) fields.size 0)
      let c := { c with disk := image.2 }
      if image.1.1 ≠ Fs.toInt fields.size then c.returns [] (-eio) else
      match host.load image.1.2 with
      | none => c.returns [] (-1)
      | some entry =>
        let indices := (range' 3 (maxFiles - 3)).map Int.ofNat
        (⟨if entry < 0x1000 then some (-1) else none, [], indices⟩,
          closeOnExec (range' 3 (maxFiles - 3)) c)

end Context

/-! ## One system call -/

/-- With the arguments as the registers hold them, converted to the types of the functions. -/
inductive Call where
  | open (path : Word) (flags : BitVec 32)
  | close (fd : BitVec 32)
  | read (fd : BitVec 32) (buf count : Word)
  | write (fd : BitVec 32) (buf count : Word)
  | writev (fd : BitVec 32) (iov : Word) (iovcnt : BitVec 32)
  | fstat (fd : BitVec 32) (buf : Word)
  | getdents (fd : BitVec 32) (buf count : Word)
  | ioctl (fd : BitVec 32) (request argp : Word)
  | pipe (pipefd : Word)
  | dup (fd : BitVec 32)
  | dup2 (oldfd newfd : BitVec 32)
  | fcntl (fd cmd arg : BitVec 32)
  | chdir (path : Word)
  | getcwd (buf size : Word)
  | execve (path : Word)

def Context.run : Call → Outcome × Context Node Disk
  | .open path flags => c.sysOpen host caller path.toNat flags
  | .close fd => c.sysClose fd.toInt
  | .read fd buf count => c.sysRead host fd.toInt buf.toNat count.toNat
  | .write fd buf count => c.sysWrite host caller fd.toInt buf.toNat count.toNat
  | .writev fd iov iovcnt => c.writev host caller fd.toInt iov.toNat iovcnt
  | .fstat fd buf => c.sysFstat host fd.toInt buf.toNat
  | .getdents fd buf count => c.sysGetdents host fd.toInt buf.toNat count.toNat
  | .ioctl fd request argp => c.sysIoctl host caller fd.toInt request.toNat argp.toNat
  | .pipe pipefd => c.vfsePipe pipefd.toNat
  | .dup fd => c.onVfse (c.vfse.vfseDup fd.toInt)
  | .dup2 oldfd newfd => c.onVfse (c.vfse.vfseDup2 oldfd.toInt newfd.toInt)
  | .fcntl fd cmd arg => c.onVfse (c.vfse.vfseFcntl fd.toInt cmd.toInt arg)
  | .chdir path => c.vfseChdir host caller path.toNat
  | .getcwd buf size => c.vfseGetcwd buf.toNat size.toNat
  | .execve path => c.sysExecve host caller path.toNat

/-! ## Every process -/

/-- The tables of the processes, by pid, and what they share. -/
structure State (Node Disk : Type) where
  files : Nat → Nat → Option (VfsFile Node)
  opened : Nat → Nat
  vfse : Vfse Node
  disk : Disk

namespace State

variable (s : State Node Disk)

def context (pid : Nat) : Context Node Disk := ⟨s.files pid, s.opened pid, s.vfse, s.disk⟩

def resume (pid : Nat) (c : Context Node Disk) : State Node Disk where
  files := Function.update s.files pid c.files
  opened := Function.update s.opened pid c.opened
  vfse := c.vfse
  disk := c.disk

end State

/-- A system call of a process. -/
structure Event where
  pid : Nat
  caller : Caller
  call : Call

def State.handle (s : State Node Disk) (e : Event) : Outcome × State Node Disk :=
  let result := (s.context e.pid).run host e.caller e.call
  (result.1, s.resume e.pid result.2)

end

end Znu.Files
