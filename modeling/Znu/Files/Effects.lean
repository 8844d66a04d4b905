import Znu.Files.Calls

/-! # What a call does to the tables

`open` either fills the free entry it finds or changes nothing but the file systems; `close`
and `execve` empty entries; every other call leaves each descriptor with the file it had.
-/

namespace Znu.Files

open Lib List

namespace Context

variable {Node Disk : Type} {host : Host Node Disk} {caller : Caller} {c : Context Node Disk}

/-! ## `open` -/

/-- The path names a node, or one is created for it, and there is a free entry. -/
structure Opens (host : Host Node Disk) (caller : Caller) (c : Context Node Disk) (path : Nat)
    (flags : BitVec 32) (i : Nat) (node : Node) (disk : Disk) : Prop where
  nonzero : path ≠ 0
  user : isUserAddr path 1 = true
  target : ∃ kpath, copyPath caller.memory path 255 = some kpath ∧ kpath ≠ [] ∧
    host.findOrCreate c.disk (c.abspath caller kpath) flags = (.ok node, disk)
  directory : flags &&& oDirectory ≠ 0 → (host.fields disk node).type = .directory
  free : c.freeFile = some i

variable {disk : Disk} {flags : BitVec 32} {i : Nat}

lemma sysOpen_of_opens {path : Nat} {node : Node}
    (opens : Opens host caller c path flags i node disk) :
    c.sysOpen host caller path flags =
      (⟨some i, [], c.openIndices⟩,
        { c.setFile i (some ⟨node, 0, flags, c.opened⟩) with
          opened := c.opened + 1
          disk := disk }) := by
  obtain ⟨nonzero, user, ⟨kpath, copied, nonempty, target⟩, directory, free⟩ := opens
  have accepted : ¬ (path = 0 ∨ isUserAddr path 1 = false) := by simp [nonzero, user]
  have allowed : ¬ (flags &&& oDirectory ≠ 0 ∧ (host.fields disk node).type ≠ .directory) :=
    fun wrong => wrong.2 (directory wrong.1)
  have free' : ({ c with disk := disk } : Context Node Disk).freeFile = some i := free
  unfold sysOpen
  rw [if_neg accepted, copied]
  dsimp only
  rw [if_neg nonempty, target]
  dsimp only
  rw [openNode, if_neg allowed, free']
  rfl

lemma findOrCreate_error {path : List UInt8} {code : Int}
    (failed : (host.findOrCreate disk path flags).1 = .error code) : 0 < code := by
  have positive : 0 < enoent ∧ 0 < erofs := by decide
  unfold Host.findOrCreate at failed
  dsimp only at failed
  split at failed
  · cases failed
  split at failed
  · cases failed
    exact positive.1
  split at failed
  · cases failed
    exact positive.1
  split at failed
  · cases failed
    exact positive.2
  split at failed
  · cases failed
    exact positive.2
  split at failed
  · cases failed
    exact positive.1
  cases failed

lemma sysOpen_cases (host : Host Node Disk) (caller : Caller) (c : Context Node Disk)
    (path : Nat) (flags : BitVec 32) :
    (∃ i node disk, Opens host caller c path flags i node disk) ∨
      ∃ (ret : Int) (indices : List Int) (disk : Disk), ret < 0 ∧
        c.sysOpen host caller path flags = (⟨some ret, [], indices⟩, { c with disk := disk }) := by
  unfold sysOpen
  split
  · exact .inr ⟨-efault, [], c.disk, by decide, rfl⟩
  rename_i accepted
  push Not at accepted
  split
  · exact .inr ⟨-efault, [], c.disk, by decide, rfl⟩
  rename_i kpath copied
  split
  · exact .inr ⟨-enoent, [], c.disk, by decide, rfl⟩
  rename_i nonempty
  dsimp only
  split
  next code failed =>
    exact .inr ⟨-code, [], _, Int.neg_neg_of_pos (findOrCreate_error failed), rfl⟩
  rename_i node found
  unfold openNode
  split
  · exact .inr ⟨-enotdir, [], _, by decide, rfl⟩
  rename_i allowed
  push Not at allowed
  split
  · exact .inr ⟨-emfile, _, _, by decide, rfl⟩
  rename_i i free
  refine .inl ⟨i, node, _, accepted.1, by simpa using accepted.2,
    ⟨kpath, copied, nonempty, Prod.ext found rfl⟩, ?_, free⟩
  exact allowed

lemma freeFile_lt (free : c.freeFile = some i) : 3 ≤ i ∧ i < maxFiles ∧ c.files i = none := by
  have member := mem_of_find?_eq_some free
  have empty := find?_some free
  rw [mem_range'_1] at member
  exact ⟨member.1, member.2, by simpa using empty⟩

/-! ## Calls that keep every file -/

def serial (c : Context Node Disk) (fd : Nat) : Option Nat := (c.files fd).map VfsFile.serial

/-- The same files, perhaps at other positions, and the same VFSe table. -/
structure Steady (c c' : Context Node Disk) : Prop where
  serial : ∀ fd, c'.serial fd = c.serial fd
  opened : c'.opened = c.opened
  vfse : c'.vfse = c.vfse

lemma Steady.refl (c : Context Node Disk) (disk : Disk) : Steady c { c with disk := disk } :=
  ⟨fun _ => rfl, rfl, rfl⟩

lemma Steady.trans {c₁ c₂ c₃ : Context Node Disk} (first : Steady c₁ c₂) (second : Steady c₂ c₃) :
    Steady c₁ c₃ :=
  ⟨fun fd => (second.serial fd).trans (first.serial fd), second.opened.trans first.opened,
    second.vfse.trans first.vfse⟩

lemma advance_serial (file : VfsFile Node) (ret : Int) : (file.advance ret).serial = file.serial := by
  unfold VfsFile.advance
  split <;> rfl

lemma steady_advance {fd : Nat} {file : VfsFile Node} (there : c.files fd = some file) (ret : Int)
    (disk : Disk) : Steady c { c.setFile fd (some (file.advance ret)) with disk := disk } := by
  refine ⟨fun fd' => ?_, rfl, rfl⟩
  by_cases same : fd' = fd
  · subst same
    simp [Context.serial, setFile, there, advance_serial]
  · simp [Context.serial, setFile, same]

variable (fd : Int)

lemma sysWrite_steady (buf count : Nat) : Steady c (c.sysWrite host caller fd buf count).2 := by
  unfold sysWrite
  split
  · exact .refl c c.disk
  split
  · exact .refl c c.disk
  split
  · exact .refl c c.disk
  rename_i file there
  split
  · exact .refl c c.disk
  · exact steady_advance there _ _

lemma writevLoop_steady (n iov : Nat) (total : Int) (c : Context Node Disk) :
    Steady c (writevLoop host caller fd iov total n c).2 := by
  induction n generalizing iov total c with
  | zero => exact .refl c c.disk
  | succ n ih =>
    unfold writevLoop
    dsimp only
    split
    · exact ih _ _ c
    split
    · exact sysWrite_steady ..
    · exact (sysWrite_steady ..).trans (ih ..)

lemma writev_steady (iov : Nat) (iovcnt : BitVec 32) : Steady c (c.writev host caller fd iov iovcnt).2 := by
  unfold writev
  split
  · exact writevLoop_steady ..
  · exact .refl c c.disk

lemma sysFstat_steady (buf : Nat) : Steady c (c.sysFstat host fd buf).2 := by
  unfold sysFstat
  split
  · exact .refl c c.disk
  split
  · exact .refl c c.disk
  split <;> exact .refl c c.disk

lemma sysGetdents_steady (buf count : Nat) : Steady c (c.sysGetdents host fd buf count).2 := by
  unfold sysGetdents
  split
  · exact .refl c c.disk
  rename_i file found
  have there : c.files fd.toNat = some file := by
    split at found
    · cases found
    · exact found
  dsimp only
  split
  · exact .refl c c.disk
  split
  · exact steady_advance there _ _
  · exact steady_advance there _ c.disk

lemma ttyIoctl_steady (request argp : Nat) (indices : List Int) :
    Steady c (c.ttyIoctl host caller request argp indices).2 := by
  unfold ttyIoctl
  split
  · exact .refl c c.disk
  split
  · exact .refl c _
  · exact .refl c _
  · exact .refl c _
  · exact .refl c _
  · exact .refl c c.disk
  · exact .refl c c.disk

lemma sysIoctl_steady (request argp : Nat) : Steady c (c.sysIoctl host caller fd request argp).2 := by
  unfold sysIoctl
  split
  · exact .refl c c.disk
  split
  · exact .refl c c.disk
  dsimp only
  split
  · exact ttyIoctl_steady ..
  · exact .refl c c.disk

lemma sysRead_steady [DecidableEq Node] (buf count : Nat) : Steady c (c.sysRead host fd buf count).2 := by
  unfold sysRead
  split
  · exact .refl c c.disk
  split
  · exact .refl c c.disk
  split
  · exact .refl c c.disk
  next file there => exact steady_advance there _ _

end Context

end Znu.Files
