import Znu.Files.Namespace

/-! # Isolation of processes

The VFSe table and the working directory belong to the kernel, not to a process. Another
process can be taken out of a run without changing what a process sees if it leaves alone
the part of them that the process uses, and if its lookups and reads leave the file
systems as they are.
-/

namespace Znu.Files

open Lib Vfse Context Function Host

/-! ## The table without its working directory -/

variable {Node : Type}

namespace Vfse

variable {α : Type} {v w u : Vfse Node}

def withCwd (v : Vfse Node) (cwd : List UInt8) : Vfse Node := { v with cwd := cwd }

def SameTable (v w : Vfse Node) : Prop := w = v.withCwd w.cwd

lemma SameTable.trans (first : SameTable v w) (second : SameTable w u) : SameTable v u := by
  rw [second, first]
  rfl

/-- An operation that neither reads nor changes the working directory. -/
def IgnoresCwd (op : Vfse Node → Vfse Node × α) : Prop :=
  ∀ v cwd, op (v.withCwd cwd) = ((op v).1.withCwd cwd, (op v).2)

variable {op : Vfse Node → Vfse Node × α}

lemma IgnoresCwd.cwd (ignores : IgnoresCwd op) (v : Vfse Node) : (op v).1.cwd = v.cwd :=
  congrArg (·.1.cwd) (ignores v v.cwd)

lemma IgnoresCwd.same (ignores : IgnoresCwd op)
    (same : SameTable v w) : (op v).2 = (op w).2 ∧ SameTable (op v).1 (op w).1 := by
  rw [same, ignores v]
  exact ⟨rfl, rfl⟩

lemma vfseFreeFd_withCwd (fd : Int) (v : Vfse Node) (cwd : List UInt8) :
    (v.withCwd cwd).vfseFreeFd fd = (v.vfseFreeFd fd).withCwd cwd := by
  have found : (v.withCwd cwd).vfseGetFile fd = v.vfseGetFile fd := rfl
  cases there : v.vfseGetFile fd with
  | none => rw [vfseFreeFd, vfseFreeFd, found, there]
  | some id =>
    rw [vfseFreeFd_eq there, vfseFreeFd_eq (found.trans there)]
    rfl

lemma vfseClose_ignores (fd : Int) : IgnoresCwd fun v : Vfse Node => v.vfseClose fd := by
  intro v cwd
  have found : (v.withCwd cwd).vfseGetFile fd = v.vfseGetFile fd := rfl
  dsimp only
  rw [vfseClose, vfseClose, found]
  split
  · rfl
  rw [vfseFreeFd_withCwd]

lemma vfseAllocFd_ignores (id : Nat) : IgnoresCwd fun v : Vfse Node => v.vfseAllocFd id := by
  intro v cwd
  have free : (v.withCwd cwd).freeFd = v.freeFd := rfl
  dsimp only
  rw [vfseAllocFd, vfseAllocFd, free]
  split
  · rfl
  · rfl

lemma vfseDup_ignores (fd : Int) : IgnoresCwd fun v : Vfse Node => v.vfseDup fd := by
  intro v cwd
  have found : (v.withCwd cwd).vfseGetFile fd = v.vfseGetFile fd := rfl
  dsimp only
  rw [vfseDup, vfseDup, found]
  split
  · rfl
  rename_i id _
  have allocated : ((v.withCwd cwd).addRef id 1).vfseAllocFd id = _ :=
    vfseAllocFd_ignores id (v.addRef id 1) cwd
  rw [allocated]
  dsimp only
  split
  · rfl
  · rfl

lemma vfseDup2_ignores (oldfd newfd : Int) : IgnoresCwd fun v : Vfse Node => v.vfseDup2 oldfd newfd := by
  intro v cwd
  have found : (v.withCwd cwd).vfseGetFile oldfd = v.vfseGetFile oldfd := rfl
  have closed := vfseClose_ignores newfd v cwd
  dsimp only at closed ⊢
  rw [vfseDup2, vfseDup2, found]
  split
  · rfl
  split
  · rfl
  rw [closed]
  rfl

lemma vfseFcntl_ignores (fd cmd : Int) (arg : BitVec 32) :
    IgnoresCwd fun v : Vfse Node => v.vfseFcntl fd cmd arg := by
  intro v cwd
  have found : (v.withCwd cwd).vfseGetFile fd = v.vfseGetFile fd := rfl
  have free : (v.withCwd cwd).freeFrom arg.toInt = v.freeFrom arg.toInt := rfl
  dsimp only
  rw [vfseFcntl, vfseFcntl, found]
  split
  · rfl
  rw [free]
  split
  · split
    · rfl
    · rfl
  · rfl
  · rfl
  · rfl
  · rfl
  · rfl

lemma vfseFcntl_leaves {fd cmd : Int} {arg : BitVec 32}
    (leaves : v.vfseGetFile fd = none ∨ cmd ≠ 0 ∧ cmd ≠ 2 ∧ cmd ≠ 4) :
    (v.vfseFcntl fd cmd arg).1 = v := by
  unfold vfseFcntl
  split
  · rfl
  rename_i id there
  obtain ⟨copies, sets, sets'⟩ := leaves.resolve_left (by simp [there])
  split
  · exact absurd rfl copies
  · rfl
  · exact absurd rfl sets
  · rfl
  · exact absurd rfl sets'
  · rfl

lemma vfsePipe_ignores : IgnoresCwd fun v : Vfse Node => v.vfsePipe := by
  intro v cwd
  have free : (v.withCwd cwd).freeFd = v.freeFd := rfl
  dsimp only
  cases found : v.freeFd with
  | none =>
    rw [vfsePipe_of_full found, vfsePipe_of_full (free.trans found)]
    rfl
  | some i =>
    have free' : ((v.withCwd cwd).withReader i).freeFd = (v.withReader i).freeFd := rfl
    cases found' : (v.withReader i).freeFd with
    | none =>
      have closed := vfseClose_ignores (i : Int) (v.withReader i) cwd
      rw [vfsePipe_of_one found found', vfsePipe_of_one (free.trans found) (free'.trans found')]
      exact Prod.ext (congrArg (·.1) closed) rfl
    | some j =>
      rw [vfsePipe_of_two found found', vfsePipe_of_two (free.trans found) (free'.trans found')]
      rfl

/-! ### The slots that are taken stay so -/

variable {i : Nat}

end Vfse

/-! ## What a process sees -/

variable {Disk : Type}

section

variable (host : Host Node Disk)

/-- The request leaves the file systems answering as before. -/
def Host.Passive (disk : Disk) (q : Request Node) : Prop :=
  Alike host.respond disk (host.respond disk q).2

/-- The contexts of a process in two runs. The VFSe table and the working directory agree if
    the process is to use them. -/
structure Context.View (table dir : Bool) (c d : Context Node Disk) : Prop where
  files : c.files = d.files
  opened : c.opened = d.opened
  disk : Alike host.respond c.disk d.disk
  vfse : table = true → c.vfse.SameTable d.vfse
  cwd : dir = true → c.vfse.cwd = d.vfse.cwd

namespace Call

def Listed : Call → Prop
  | .writev _ _ _ | .fstat _ _ | .getdents _ _ _ | .ioctl _ _ _ => False
  | _ => True

def UsesTable : Call → Prop
  | .pipe _ | .dup _ | .dup2 _ _ | .fcntl _ _ _ => True
  | _ => False

/-- A relative path, or the directory itself. -/
def UsesCwd (caller : Caller) : Call → Prop
  | .open path _ | .chdir path | .execve path => caller.memory path.toNat ≠ slash
  | .getcwd _ _ => True
  | _ => False

variable [DecidableEq Node] (caller : Caller) (c : Context Node Disk)

/-- The call creates nothing, and its lookups, reads and writes have no effect on the file
    systems. -/
def Quiet : Call → Prop
  | .open path flags => ∀ kpath, copyPath caller.memory path.toNat 255 = some kpath →
      host.Passive c.disk (.pathToNode (c.abspath caller kpath)) ∧
        (flags &&& oCreat = 0 ∨ (host.respond c.disk (.pathToNode (c.abspath caller kpath))).1 ≠ none)
  | .read fd _ count => ∀ file, c.openFile fd.toInt = some file →
      host.Passive c.disk (.read file.node (c.nonblock file.node) count.toNat file.pos)
  | .write fd buf count => ∀ file, c.openFile fd.toInt = some file →
      file.flags &&& oWronly = 0 ∧ file.flags &&& oRdwr = 0 ∨
        host.Passive c.disk (.write file.node caller.memory buf.toNat count.toNat file.pos)
  | .chdir path => ∀ abspath,
      vfseResolvePath c.vfse.cwd (text caller.memory path.toNat 4095) = some abspath →
        host.Passive c.disk (.pathToNode abspath)
  | .execve path => ∀ kpath, copyPath caller.memory path.toNat 255 = some kpath →
      let found := host.respond c.disk (.pathToNode (c.abspath caller kpath))
      Alike host.respond c.disk found.2 ∧ ∀ node, found.1 = some node →
        host.Passive found.2 (.read node (c.nonblock node) (host.fields found.2 node).size 0)
  | _ => True

/-- The descriptors the call names are not open, so that it changes none. -/
def LeavesTable : Call → Prop
  | .pipe pipefd => pipefd = 0
  | .dup fd => c.vfse.vfseGetFile fd.toInt = none
  | .dup2 oldfd _ => c.vfse.vfseGetFile oldfd.toInt = none
  | .fcntl fd cmd _ =>
    c.vfse.vfseGetFile fd.toInt = none ∨ cmd.toInt ≠ 0 ∧ cmd.toInt ≠ 2 ∧ cmd.toInt ≠ 4
  | .execve _ => c.ClosesNone
  | _ => True

/-- The call is no `chdir` to another directory. -/
def LeavesCwd : Call → Prop
  | .chdir path => ∀ abspath,
      vfseResolvePath c.vfse.cwd (text caller.memory path.toNat 4095) = some abspath →
        (host.respond c.disk (.pathToNode abspath)).1 = none ∨ abspath = c.vfse.cwd
  | _ => True

end Call

variable [DecidableEq Node]

/-- The call is one of those considered, stores in user memory only and frees no end of a pipe. -/
structure State.Sane (s : State Node Disk) (e : Event) : Prop where
  listed : e.call.Listed
  fits : e.call.Fits host (s.context e.pid)
  spares : e.call.Spares (s.context e.pid)

/-- The process uses the VFSe table and the working directory only if it may, and then the
    others leave them alone. -/
structure State.Isolated (table dir : Bool) (pid : Nat) (s : State Node Disk) (e : Event) : Prop where
  sane : s.Sane host e
  usesTable : e.pid = pid → e.call.UsesTable → table = true
  usesCwd : e.pid = pid → e.call.UsesCwd e.caller → dir = true
  quiet : e.pid ≠ pid → e.call.Quiet host e.caller (s.context e.pid)
  leavesTable : e.pid ≠ pid → table = true → e.call.LeavesTable (s.context e.pid)
  leavesCwd : e.pid ≠ pid → dir = true → e.call.LeavesCwd host e.caller (s.context e.pid)

end

/-! ## The calls of the process -/

variable {kpath : List UInt8}

variable {table dir : Bool}

namespace Context

variable {host : Host Node Disk} {c d : Context Node Disk}

variable {call : Call} {disk disk' : Disk}

lemma findOrCreate_alike (alike : Alike host.respond disk disk')
    (path : List UInt8) (flags : BitVec 32) :
    (host.findOrCreate disk path flags).1 = (host.findOrCreate disk' path flags).1 ∧
      Alike host.respond (host.findOrCreate disk path flags).2 (host.findOrCreate disk' path flags).2 := by
  have found := alike.next (.pathToNode path)
  unfold findOrCreate
  dsimp only
  rw [alike.answer (.pathToNode path)]
  split
  · exact ⟨rfl, found⟩
  split
  · exact ⟨rfl, found⟩
  split
  · exact ⟨rfl, found⟩
  rename_i dir name _
  have parent := found.next (.pathToNode (parentPath dir))
  rw [found.answer (.pathToNode (parentPath dir))]
  split
  · exact ⟨rfl, parent⟩
  rename_i node _
  have created := parent.next (.create node (name.take 127))
  rw [Host.fields, Host.fields, parent.answer (.fields node)]
  split
  · exact ⟨rfl, parent⟩
  rw [parent.answer (.create node (name.take 127))]
  split <;> exact ⟨rfl, created⟩

variable {path : Nat}

variable {caller : Caller}

namespace View

lemma withDisk (view : View host table dir c d)
    (alike : Alike host.respond disk disk') :
    View host table dir { c with disk := disk } { d with disk := disk' } :=
  ⟨view.files, view.opened, alike, view.vfse, view.cwd⟩

/-- A path that starts with a slash does not depend on the working directory. -/
lemma resolve_absolute {cwd cwd' path : List UInt8} (absolute : path.head? = some slash) :
    vfseResolvePath cwd path = vfseResolvePath cwd' path := by
  rw [vfseResolvePath, if_pos absolute, vfseResolvePath, if_pos absolute]

lemma head_copyPath {memory : Lib.Bytes}
    (copied : copyPath memory path 255 = some kpath) (absolute : memory path = slash) :
    kpath.head? = some slash := by
  have nonzero : memory path ≠ 0 := by
    rw [absolute]
    decide
  rw [copyPath, if_neg nonzero] at copied
  split at copied
  · obtain ⟨rest, -, rfl⟩ := Option.map_eq_some_iff.mp copied
    rw [absolute]
    rfl
  · cases copied

section

variable (view : View host table dir c d)

include view

lemma setFile (fd : Nat) (entry : Option (VfsFile Node)) :
    View host table dir (c.setFile fd entry) (d.setFile fd entry) := by
  refine ⟨?_, view.opened, view.disk, view.vfse, view.cwd⟩
  rw [Context.setFile, Context.setFile, view.files]

lemma fields (node : Node) : host.fields c.disk node = host.fields d.disk node :=
  view.disk.answer (.fields node)

lemma freeFile : c.freeFile = d.freeFile := by
  rw [Context.freeFile, Context.freeFile, view.files]

lemma openIndices : c.openIndices = d.openIndices := by
  rw [Context.openIndices, Context.openIndices, view.freeFile]

/-- Two calls answer alike and leave the same view. -/
structure SameReply (host : Host Node Disk) (table dir : Bool) (x y : Outcome × Context Node Disk) :
    Prop where
  answer : x.1 = y.1
  view : View host table dir x.2 y.2

lemma openNode (node : Node) (flags : BitVec 32) :
    SameReply host table dir (c.openNode host node flags) (d.openNode host node flags) := by
  unfold Context.openNode
  rw [view.fields, view.freeFile, view.openIndices]
  split
  · exact ⟨rfl, view⟩
  split
  · exact ⟨rfl, view⟩
  rename_i i _
  have set := view.setFile i (some ⟨node, 0, flags, d.opened⟩)
  rw [view.opened]
  exact ⟨rfl, set.files, rfl, set.disk, set.vfse, set.cwd⟩

lemma abspath
    (uses : caller.memory path ≠ slash → dir = true)
    (copied : copyPath caller.memory path 255 = some kpath) :
    c.abspath caller kpath = d.abspath caller kpath := by
  rw [Context.abspath, Context.abspath]
  by_cases absolute : caller.memory path = slash
  · rw [resolve_absolute (head_copyPath copied absolute)]
  · rw [view.cwd (uses absolute)]

lemma sysOpen (flags : BitVec 32)
    (uses : caller.memory path ≠ slash → dir = true) :
    SameReply host table dir (c.sysOpen host caller path flags) (d.sysOpen host caller path flags) := by
  unfold Context.sysOpen
  split
  · exact ⟨rfl, view⟩
  split
  · exact ⟨rfl, view⟩
  rename_i kpath copied
  split
  · exact ⟨rfl, view⟩
  obtain ⟨target, alike⟩ := findOrCreate_alike view.disk (d.abspath caller kpath) flags
  rw [view.abspath uses copied]
  dsimp only
  rw [target]
  split
  · exact ⟨rfl, view.withDisk alike⟩
  · exact (view.withDisk alike).openNode _ flags

lemma sysClose (fd : Int) : SameReply host table dir (c.sysClose fd) (d.sysClose fd) := by
  unfold Context.sysClose
  rw [view.files]
  split
  · exact ⟨rfl, view⟩
  split
  · exact ⟨rfl, view⟩
  · exact ⟨rfl, view.setFile _ none⟩

lemma sysWrite (caller : Caller) (fd : Int) (buf count : Nat) :
    SameReply host table dir (c.sysWrite host caller fd buf count) (d.sysWrite host caller fd buf count) := by
  unfold Context.sysWrite
  rw [view.files]
  split
  · exact ⟨rfl, view⟩
  split
  · exact ⟨rfl, view⟩
  split
  · exact ⟨rfl, view⟩
  rename_i file _
  split
  · exact ⟨rfl, view⟩
  dsimp only
  rw [view.disk.answer (.write file.node caller.memory buf count file.pos)]
  exact ⟨rfl, (view.setFile _ _).withDisk (view.disk.next _)⟩

lemma onVfse {op : Vfse Node → Vfse Node × Int}
    (ignores : Vfse.IgnoresCwd op) (uses : table = true) :
    SameReply host table dir (c.onVfse (op c.vfse)) (d.onVfse (op d.vfse)) := by
  obtain ⟨ret, same⟩ := ignores.same (view.vfse uses)
  refine ⟨?_, view.files, view.opened, view.disk, fun _ => same, fun shares => ?_⟩
  · rw [Context.onVfse, Context.onVfse, ret]
  · rw [Context.onVfse, Context.onVfse, ignores.cwd, ignores.cwd]
    exact view.cwd shares

lemma vfsePipe (pipefd : Nat) (uses : table = true) :
    SameReply host table dir (c.vfsePipe pipefd) (d.vfsePipe pipefd) := by
  obtain ⟨made, same⟩ := vfsePipe_ignores.same (view.vfse uses)
  unfold Context.vfsePipe
  split
  · exact ⟨rfl, view⟩
  dsimp only
  rw [made]
  refine ⟨rfl, view.files, view.opened, view.disk, fun _ => same, fun shares => ?_⟩
  have left := vfsePipe_ignores.cwd c.vfse
  have right := vfsePipe_ignores.cwd d.vfse
  exact left.trans ((view.cwd shares).trans right.symm)

lemma vfseChdir (uses : caller.memory path ≠ slash → dir = true) :
    SameReply host table dir (c.vfseChdir host caller path) (d.vfseChdir host caller path) := by
  have resolved : vfseResolvePath c.vfse.cwd (text caller.memory path 4095) =
      vfseResolvePath d.vfse.cwd (text caller.memory path 4095) := by
    by_cases absolute : caller.memory path = slash
    · refine resolve_absolute ?_
      rw [text, absolute, if_neg (by decide)]
      rfl
    · rw [view.cwd (uses absolute)]
  unfold Context.vfseChdir
  rw [resolved]
  split
  · exact ⟨rfl, view⟩
  split
  · exact ⟨rfl, view⟩
  rename_i abspath _
  have found := view.disk.next (.pathToNode abspath)
  dsimp only
  rw [view.disk.answer (.pathToNode abspath)]
  split
  · exact ⟨rfl, view.withDisk found⟩
  rename_i node _
  rw [Host.fields, Host.fields, found.answer (.fields node)]
  split
  · exact ⟨rfl, view.withDisk found⟩
  refine ⟨rfl, view.files, view.opened, found, fun shares => ?_, fun _ => rfl⟩
  have same := view.vfse shares
  rw [same]
  rfl

lemma vfseGetcwd (buf size : Nat) (uses : dir = true) :
    SameReply host table dir (c.vfseGetcwd buf size) (d.vfseGetcwd buf size) := by
  unfold Context.vfseGetcwd
  rw [view.cwd uses]
  split <;> exact ⟨rfl, view⟩

end

lemma closeOnExec (view : View host table dir c d) (entries : List Nat) :
    View host table dir (closeOnExec entries c) (closeOnExec entries d) := by
  induction entries generalizing c d with
  | nil => exact view
  | cons i rest ih =>
    refine ih ?_
    rw [view.files]
    split
    · exact view
    have set := view.setFile i none
    refine ⟨set.files, set.opened, set.disk, fun shares => ?_, fun shares => ?_⟩
    · exact ((vfseClose_ignores (i : Int)).same (view.vfse shares)).2
    · have left := (vfseClose_ignores (i : Int)).cwd c.vfse
      have right := (vfseClose_ignores (i : Int)).cwd d.vfse
      exact left.trans ((view.cwd shares).trans right.symm)

section

variable (view : View host table dir c d)

include view

variable [DecidableEq Node]

lemma nonblock (node : Node) : c.nonblock node = d.nonblock node := by
  rw [Context.nonblock, Context.nonblock, sameNode, sameNode, view.files]

lemma sysRead (fd : Int) (buf count : Nat) :
    SameReply host table dir (c.sysRead host fd buf count) (d.sysRead host fd buf count) := by
  unfold Context.sysRead
  rw [view.files]
  split
  · exact ⟨rfl, view⟩
  split
  · exact ⟨rfl, view⟩
  split
  · exact ⟨rfl, view⟩
  rename_i file _
  have indices : c.ttyIndices host file.node = d.ttyIndices host file.node := by
    rw [ttyIndices, ttyIndices, view.fields, sameNode, sameNode, view.files]
  dsimp only
  rw [view.nonblock, indices, view.disk.answer (.read file.node (d.nonblock file.node) count file.pos)]
  exact ⟨rfl, (view.setFile _ _).withDisk (view.disk.next _)⟩

lemma sysExecve (uses : caller.memory path ≠ slash → dir = true) :
    SameReply host table dir (c.sysExecve host caller path) (d.sysExecve host caller path) := by
  unfold Context.sysExecve
  split
  · exact ⟨rfl, view⟩
  rename_i kpath copied
  have found := view.disk.next (.pathToNode (d.abspath caller kpath))
  rw [view.abspath uses copied]
  dsimp only
  rw [view.disk.answer (.pathToNode (d.abspath caller kpath))]
  split
  · exact ⟨rfl, view.withDisk found⟩
  rename_i node _
  have fields : host.fields (host.respond c.disk (.pathToNode (d.abspath caller kpath))).2 node =
      host.fields (host.respond d.disk (.pathToNode (d.abspath caller kpath))).2 node :=
    found.answer (.fields node)
  have nonblock := (view.withDisk found).nonblock node
  rw [fields, nonblock]
  split
  · exact ⟨rfl, view.withDisk found⟩
  rw [found.answer]
  split
  · exact ⟨rfl, view.withDisk (found.next _)⟩
  split
  · exact ⟨rfl, view.withDisk (found.next _)⟩
  · exact ⟨rfl, (view.withDisk (found.next _)).closeOnExec _⟩

lemma run (listed : call.Listed)
    (usesTable : call.UsesTable → table = true) (usesCwd : call.UsesCwd caller → dir = true) :
    SameReply host table dir (c.run host caller call) (d.run host caller call) := by
  cases call with
  | «open» path flags => exact view.sysOpen flags usesCwd
  | close fd => exact view.sysClose _
  | read fd buf count => exact view.sysRead ..
  | write fd buf count => exact view.sysWrite ..
  | pipe pipefd => exact view.vfsePipe _ (usesTable trivial)
  | dup fd => exact view.onVfse (vfseDup_ignores _) (usesTable trivial)
  | dup2 oldfd newfd => exact view.onVfse (vfseDup2_ignores _ _) (usesTable trivial)
  | fcntl fd cmd arg => exact view.onVfse (vfseFcntl_ignores _ _ _) (usesTable trivial)
  | chdir path => exact view.vfseChdir usesCwd
  | getcwd buf size => exact view.vfseGetcwd _ _ (usesCwd trivial)
  | execve path => exact view.sysExecve usesCwd
  | writev _ _ _ | fstat _ _ | getdents _ _ _ | ioctl _ _ _ => exact listed.elim

lemma fits (listed : call.Listed) (fits : call.Fits host c) : call.Fits host d := by
  cases call with
  | read fd buf count =>
    intro file there
    have fits := fits file
    rw [openFile, view.files] at fits
    rw [← view.nonblock, ← view.disk.answer]
    exact fits there
  | pipe _ | getcwd _ _ => exact fits
  | getdents _ _ _ | ioctl _ _ _ => exact listed.elim
  | «open» _ _ | close _ | write _ _ _ | writev _ _ _ | fstat _ _ | dup _ | dup2 _ _ | fcntl _ _ _
  | chdir _ | execve _ => trivial

end

end View

/-! ## The calls of the others -/

section

variable {buf count : Nat} {flags : BitVec 32}

variable {fd : Int}

/-- Nothing is closed if no open entry has an open slot. -/
lemma closeOnExec_leaves (entries : List Nat) (c : Context Node Disk)
    (closed : ∀ i ∈ entries, c.files i ≠ none → c.vfse.fds i = none) :
    (closeOnExec entries c).vfse = c.vfse := by
  induction entries generalizing c with
  | nil => rfl
  | cons i rest ih =>
    rw [closeOnExec]
    cases there : c.files i with
    | none => exact ih c fun j member => closed j (.tail i member)
    | some file =>
      have slot : c.vfse.vfseGetFile i = none := by
        rw [vfseGetFile, Int.toNat_natCast, closed i (.head rest) (by simp [there]), ite_self]
      have same : (c.vfse.vfseClose i).1 = c.vfse := by rw [vfseClose, slot]
      rw [same, ih]
      intro j member opened
      refine closed j (.tail i member) fun empty => opened ?_
      by_cases here : j = i
      · simp [setFile, here]
      · simpa [setFile, here] using empty

variable [DecidableEq Node]

lemma run_table (host : Host Node Disk) (caller : Caller) (leaves : call.LeavesTable c) :
    (c.run host caller call).2.vfse.SameTable c.vfse := by
  have unchanged : ∀ {v : Vfse Node}, v = c.vfse → v.SameTable c.vfse := by
    rintro v rfl
    rfl
  have after := run_after host caller c call
  generalize (c.run host caller call).2 = c' at after
  cases after with
  | steady steady => exact unchanged steady.vfse
  | opens | closes => rfl
  | pipe given =>
    subst leaves
    exact absurd rfl given
  | dup =>
    rw [vfseDup, leaves]
    rfl
  | dup2 =>
    rw [vfseDup2, leaves]
    split
    · rfl
    · rfl
  | fcntl => exact unchanged (vfseFcntl_leaves leaves)
  | chdir result =>
    rw [result]
    rfl
  | @execs _ disk =>
    refine unchanged (closeOnExec_leaves _ { c with disk := disk } fun i member opened => ?_)
    rw [List.mem_range'_1] at member
    exact leaves i member.1 member.2 opened

omit [DecidableEq Node] in
/-- Without the calls that use the table, only `execve` could change it. -/
lemma leavesTable_of_spares (spares : call.Spares c) (unused : ¬ call.UsesTable) : call.LeavesTable c := by
  cases call with
  | execve path => exact spares
  | pipe _ | dup _ | dup2 _ _ | fcntl _ _ _ => exact absurd trivial unused
  | _ => trivial

end

end Context

/-! ## Two runs -/

namespace State

variable {host : Host Node Disk} {pid : Nat} {s t : State Node Disk} {e : Event}

def View (host : Host Node Disk) (table dir : Bool) (pid : Nat) (s t : State Node Disk) : Prop :=
  (s.context pid).View host table dir (t.context pid)

variable [DecidableEq Node]

lemma context_handle_own (e : Event) :
    (s.handle host e).2.context e.pid = ((s.context e.pid).run host e.caller e.call).2 := by
  rw [handle, resume, context]
  dsimp only
  rw [update_self, update_self]

/-- What is empty in the table of the one run is empty in that of the other. -/
def Fuller (s t : State Node Disk) : Prop := ∀ i, s.vfse.fds i = none → t.vfse.fds i = none

lemma View.spares (view : View host table dir e.pid s t) (fuller : s.Fuller t)
    (isolated : s.Isolated host table dir e.pid e) : e.call.Spares (t.context e.pid) := by
  have spares := isolated.sane.spares
  have uses := isolated.usesTable rfl
  generalize e.call = call at spares uses
  cases call with
  | dup2 oldfd newfd =>
    have same : s.vfse.SameTable t.vfse := view.vfse (uses trivial)
    have transferred : t.vfse.Spares (.dup2 oldfd.toInt newfd.toInt) := by
      rw [same]
      exact spares
    exact transferred
  | execve path =>
    intro i low high opened
    refine fuller i (spares i low high ?_)
    rw [view.files]
    exact opened
  | _ => trivial

/-- A run with the other processes and one without. -/
structure Paired (host : Host Node Disk) (table dir : Bool) (pid : Nat) (s t : State Node Disk) : Prop where
  view : View host table dir pid s t
  fuller : s.Fuller t

lemma Paired.seen (paired : Paired host table dir pid s t) (own : e.pid = pid)
    (isolated : s.Isolated host table dir pid e) :
    (s.handle host e).1 = (t.handle host e).1 ∧
      Paired host table dir pid (s.handle host e).2 (t.handle host e).2 ∧ t.Sane host e := by
  subst own
  obtain ⟨view, fuller⟩ := paired
  have listed := isolated.sane.listed
  have spares := view.spares fuller isolated
  obtain ⟨answer, view'⟩ := view.run listed (isolated.usesTable rfl) (isolated.usesCwd rfl)
  rw [← context_handle_own, ← context_handle_own] at view'
  refine ⟨answer, ⟨view', fun i empty => ?_⟩, listed, view.fits listed isolated.sane.fits, spares⟩
  cases shares : table with
  | true =>
    have same : (s.handle host e).2.vfse.SameTable (t.handle host e).2.vfse := view'.vfse shares
    rw [same]
    exact empty
  | false =>
    have unused : ¬ e.call.UsesTable := fun uses => by
      cases shares.symm.trans (isolated.usesTable rfl uses)
    have first : (s.handle host e).2.vfse.SameTable s.vfse :=
      run_table host e.caller (leavesTable_of_spares isolated.sane.spares unused)
    have second : (t.handle host e).2.vfse.SameTable t.vfse :=
      run_table host e.caller (leavesTable_of_spares spares unused)
    have before := fuller i (by rw [first]; exact empty)
    rw [second] at before
    exact before

end State

open State

end Znu.Files
