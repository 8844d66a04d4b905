import Znu.Files.Effects
import Znu.Files.Namespace

/-! # Redirection in the shell

`runcmd` closes descriptor 0 or 1 and opens the file, in the belief that `open` takes the
entry just closed; for a pipe it closes the descriptor and duplicates an end of the pipe.
But `sys_close` refuses the first three descriptors, `sys_open` starts its search at 3, and
`dup` works on the other table, which `read` and `write` never look at.
-/

namespace Znu.Files

namespace Context

variable {Node Disk : Type} (host : Host Node Disk) (caller : Caller) (c : Context Node Disk) {fd : Int}

/-- `close(fd); open(path, flags)` -/
def redirect (fd : Int) (path : Nat) (flags : BitVec 32) : Outcome × Context Node Disk :=
  (c.sysClose fd).2.sysOpen host caller path flags

/-- `close(1); dup(w)` -/
def dupOnto (w : Int) : Outcome × Context Node Disk :=
  let c := (c.sysClose 1).2
  c.onVfse (c.vfse.vfseDup w)

/-- Files are numbered in the order in which they were opened. -/
def Numbered : Prop := ∀ fd file, c.files fd = some file → file.serial < c.opened

/-- If the file can be opened, the descriptor refers to it afterwards. -/
def Redirects (fd : Int) (path : Nat) (flags : BitVec 32) : Prop :=
  ∀ ret : Int, 0 ≤ ret → (c.redirect host caller fd path flags).1.ret = some ret →
    (c.redirect host caller fd path flags).2.serial fd.toNat = some c.opened

/-- The open file that `read` and `write` find at a descriptor, and the one that `dup` finds. -/
def denotes (fd : Int) : Table → Option OpenFile
  | .process => (c.openFile fd).map fun file => .process file.serial
  | .vfse => (c.vfse.vfseGetFile fd).map .vfse

/-- Descriptor 1 is used for the open file of `w`, whichever table that is in. -/
def DupRedirects (w : Int) : Prop :=
  ∀ table f, c.denotes w table = some f → (c.dupOnto w).2.denotes 1 .process = some f

variable {host caller c}

lemma sysClose_standard (standard : fd < 3) : (c.sysClose fd).2 = c := by
  rw [sysClose, if_pos (.inl standard)]
  rfl

lemma redirects_iff (numbered : c.Numbered) (standard : fd = 0 ∨ fd = 1) (path : Nat)
    (flags : BitVec 32) :
    c.Redirects host caller fd path flags ↔ ¬ ∃ i node disk, Opens host caller c path flags i node disk := by
  have closed : (c.sysClose fd).2 = c := sysClose_standard (by omega)
  constructor
  · rintro redirects ⟨i, node, disk, opens⟩
    have result := sysOpen_of_opens opens
    have above := (freeFile_lt opens.free).1
    rw [Redirects, redirect, closed, result] at redirects
    have there := redirects i (Int.natCast_nonneg i) rfl
    have other : fd.toNat ≠ i := by omega
    simp only [serial, setFile, Function.update_of_ne other, Option.map_eq_some_iff] at there
    obtain ⟨file, found, same⟩ := there
    exact absurd same (Nat.ne_of_lt (numbered _ file found))
  · intro fails ret positive returned
    rw [redirect, closed] at returned
    rcases sysOpen_cases host caller c path flags with
      opens | ⟨code, indices, disk, negative, result⟩
    · exact absurd opens fails
    · rw [result] at returned
      cases returned
      omega

/-- Neither call changes the table that `write` uses. -/
lemma dupOnto_denotes (w : Int) : (c.dupOnto w).2.denotes 1 .process = c.denotes 1 .process := by
  have closed : (c.sysClose 1).2 = c := sysClose_standard (by decide)
  rw [dupOnto, closed]
  rfl

lemma dupRedirects_iff (w : Int) :
    c.DupRedirects w ↔ c.denotes w .vfse = none ∧
      (c.denotes w .process = none ∨ c.denotes w .process = c.denotes 1 .process) := by
  simp only [DupRedirects, dupOnto_denotes]
  constructor
  · refine fun redirects => ⟨?_, ?_⟩
    · cases found : c.denotes w .vfse with
      | none => rfl
      | some f =>
        obtain ⟨file, -, isProcess⟩ := Option.map_eq_some_iff.mp (redirects .vfse f found)
        obtain ⟨id, -, isVfse⟩ := Option.map_eq_some_iff.mp found
        cases isProcess.trans isVfse.symm
    · cases found : c.denotes w .process with
      | none => exact .inl rfl
      | some f => exact .inr (redirects .process f found).symm
  · rintro ⟨isNone, same⟩ table f found
    cases table with
    | vfse => cases isNone.symm.trans found
    | process =>
      rcases same with isNone | same
      · cases isNone.symm.trans found
      · exact same.symm.trans found

/-- The redirections of the shell work if and only if `open` fails anyway, and `w` is no end of a
    pipe and no open file but that of descriptor 1. -/
theorem redirections_iff (host : Host Node Disk) (caller : Caller) (c : Context Node Disk) (fd : Int)
    (path : Nat) (flags : BitVec 32) (w : Int) (numbered : c.Numbered) (standard : fd = 0 ∨ fd = 1) :
    (c.Redirects host caller fd path flags ↔
      ¬ ∃ i node disk, Opens host caller c path flags i node disk) ∧
    (c.DupRedirects w ↔ c.denotes w .vfse = none ∧
      (c.denotes w .process = none ∨ c.denotes w .process = c.denotes 1 .process)) :=
  ⟨redirects_iff numbered standard path flags, dupRedirects_iff w⟩

end Context

/-! ## A process with its three terminals -/

/-- A host on which every path names the same file. -/
def oneFileHost : Host Unit Unit where
  respond
    | (), .pathToNode _ => (some (), ())
    | (), q => emptyHost.respond () q
  load _ := none

/-- A process with its three standard descriptors and a pipe. -/
def shellContext : Context Unit Unit where
  files fd := if fd < 3 then some ⟨(), 0, 0, fd⟩ else none
  opened := 3
  vfse := vfseInit.vfsePipe.1
  disk := ()

/-- A caller with the path `a` at the address 4096. -/
def namingCaller : Caller := ⟨fun addr => if addr = 4096 then 97 else 0, []⟩

lemma shellContext_numbered : shellContext.Numbered := by
  intro fd file there
  simp only [shellContext] at there ⊢
  split at there
  next inside =>
    cases there
    exact inside
  · cases there

theorem shell_redirections :
    (shellContext.Redirects oneFileHost namingCaller 1 4096 1 ↔
      ¬ ∃ i node disk, Context.Opens oneFileHost namingCaller shellContext 4096 1 i node disk) ∧
    (shellContext.DupRedirects 4 ↔ shellContext.denotes 4 .vfse = none ∧
      (shellContext.denotes 4 .process = none ∨
        shellContext.denotes 4 .process = shellContext.denotes 1 .process)) :=
  Context.redirections_iff oneFileHost namingCaller shellContext 1 4096 1 4 shellContext_numbered
    (.inr rfl)

/-- The opened file gets descriptor 3, and descriptor 1 stays the terminal when the end of the pipe
    is duplicated. -/
theorem redirections_miss :
    ¬ shellContext.Redirects oneFileHost namingCaller 1 4096 1 ∧ ¬ shellContext.DupRedirects 4 := by
  refine ⟨fun redirects => ?_, fun redirects => ?_⟩
  · have there := redirects 3 (by decide) (by decide)
    exact absurd there (by decide)
  · have there := redirects .vfse (.vfse 1) (by decide)
    exact absurd there (by decide)

end Znu.Files
