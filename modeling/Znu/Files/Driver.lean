import Znu.Lib.Bytes
import Znu.Lib.Transducer

/-! # What system calls ask of the file systems

A system call reaches a file only through the tree of nodes and the functions in a node's
`vfs_ops_t`. What lies behind them (memfs, devfs, procfs, fat32, the terminals) is the
state of a host that answers requests, so what is proved for every host does not depend on
the drivers. The functions on paths are the kernel's own.
-/

namespace Znu.Files

open Lib

/-! ## Nodes -/

inductive NodeType where
  | file | directory | device | symlink
  deriving DecidableEq

/-- `VFS_FILE` and so on -/
def NodeType.number : NodeType → Nat
  | .file => 1
  | .directory => 2
  | .device => 3
  | .symlink => 4

/-- An entry of a directory. -/
structure Child where
  name : List UInt8
  type : NodeType
  size : Nat

/-- The fields of `vfs_node_t` that system calls read. -/
structure NodeFields where
  type : NodeType
  size : Nat
  uid : Nat
  gid : Nat
  /-- `ops->create` is set -/
  creates : Bool
  /-- `is_mountpoint` and `ops->readdir` are set -/
  listsItself : Bool
  /-- `internal_data` is not null and the first word there, taken for `tty`, is not 0 -/
  tty : Bool
  children : List Child

/-- `sizeof(struct termios)` -/
def termiosSize : Nat := 52

inductive Request (Node : Type) where
  | pathToNode (path : List UInt8)
  | fields (node : Node)
  | create (parent : Node) (name : List UInt8)
  | read (node : Node) (nonblock : Bool) (size offset : Nat)
  /-- the data are the `size` bytes of the memory from `buf` on -/
  | write (node : Node) (memory : Bytes) (buf size offset : Nat)
  | readdir (node : Node) (index count : Nat)
  /-- the settings of the active terminal -/
  | termios
  | setTermios (settings : List UInt8)

/-- A function that fills a buffer answers with its return value and the bytes it stored. -/
abbrev Request.Reply {Node : Type} : Request Node → Type
  | .pathToNode _ => Option Node
  | .fields _ => NodeFields
  | .create _ _ => Option Node
  | .read _ _ _ _ => Int × List UInt8
  | .write _ _ _ _ _ => Int
  | .readdir _ _ _ => Int × List UInt8
  | .termios => List UInt8
  | .setTermios _ => Unit

structure Host (Node Disk : Type) where
  respond : Disk → (q : Request Node) → q.Reply × Disk
  /-- `process_populate_from_elf`: the entry point, if the image can be loaded -/
  load : List UInt8 → Option Nat

def Host.fields {Node Disk : Type} (host : Host Node Disk) (disk : Disk) (node : Node) : NodeFields :=
  (host.respond disk (.fields node)).1

def emptyHost : Host Unit Unit where
  respond
    | (), .pathToNode _ => (none, ())
    | (), .fields _ => (⟨.file, 0, 0, 0, false, false, false, []⟩, ())
    | (), .create _ _ => (none, ())
    | (), .read _ _ _ _ => ((0, []), ())
    | (), .write _ _ _ _ _ => (0, ())
    | (), .readdir _ _ _ => ((0, []), ())
    | (), .termios => ([], ())
    | (), .setTermios _ => ((), ())
  load _ := none

/-! ## Addresses and strings -/

def userEnd : Nat := 0x800000000000

def isUserAddr (addr len : Nat) : Bool :=
  !(userEnd ≤ addr || userEnd < (addr + len) % 2 ^ 64)

/-- The string at an address, up to `n` bytes of it. -/
def text (memory : Bytes) (addr : Nat) : Nat → List UInt8
  | 0 => []
  | n + 1 => if memory addr = 0 then [] else memory addr :: text memory (addr + 1) n

/-- The loop of `sys_open`, `sys_stat` and `sys_execve` that copies a path, which tests
    every byte's address first. -/
def copyPath (memory : Bytes) (path : Nat) : Nat → Option (List UInt8)
  | 0 => some []
  | n + 1 =>
    if isUserAddr path 1 then
      if memory path = 0 then some [] else (copyPath memory (path + 1) n).map (memory path :: ·)
    else none

def slash : UInt8 := 47

/-- `out` is 4096 bytes long. -/
def vfseResolvePath (cwd path : List UInt8) : Option (List UInt8) :=
  if path.head? = some slash then some (path.take 4095) else
  if cwd = [] then some [slash] else
  if 4095 ≤ cwd.length then none else
  let out := if cwd.getLast? = some slash then cwd else cwd ++ [slash]
  some (out ++ path.take (4095 - out.length))

/-- `strrchr(path, '/')`: what is before the last slash, and what is after it. -/
def splitPath (path : List UInt8) : Option (List UInt8 × List UInt8) :=
  if slash ∈ path then
    let name := (path.reverse.takeWhile (· ≠ slash)).reverse
    some (path.take (path.length - name.length - 1), name)
  else none

/-- `strlen(abspath) == 0 ? "/" : abspath` -/
def parentPath (dir : List UInt8) : List UInt8 := if dir = [] then [slash] else dir

/-- The little-endian bytes of a number. -/
def encode (width value : Nat) : List UInt8 := (List.range width).map (Bytes.digit value)

/-- A C `int` in memory. -/
def encodeInt (value : Int) : List UInt8 := encode 4 (value % 2 ^ 32).toNat

/-- `strncpy` into a buffer of `n` bytes. -/
def padded (n : Nat) (s : List UInt8) : List UInt8 := (List.range n).map fun i => s.getD i 0

lemma isUserAddr_iff {a n : Nat} : isUserAddr a n = true ↔ a < userEnd ∧ (a + n) % 2 ^ 64 ≤ userEnd := by
  simp [isUserAddr]

lemma isUserAddr_byte {a : Nat} (inside : a < userEnd) : isUserAddr a 1 = true := by
  simp only [isUserAddr_iff, userEnd] at inside ⊢
  omega

@[simp] lemma encode_length (width value : Nat) : (encode width value).length = width := by
  simp [encode]

@[simp] lemma encodeInt_length (value : Int) : (encodeInt value).length = 4 := by simp [encodeInt]

@[simp] lemma padded_length (n : Nat) (s : List UInt8) : (padded n s).length = n := by simp [padded]

end Znu.Files
