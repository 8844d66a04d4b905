import Znu.Files.Pointers
import Znu.Files.References

/-! # One namespace of descriptors

`open` returns an entry of the process's own table, `pipe`, `dup`, `dup2` and `fcntl` an
entry of the VFSe table, and each later call looks in one of the two tables only. A history
keeps, for each process and number, the open files the number was returned for; a number
keeps its file for the calls that use the table it came from, and for no others.
-/

namespace Znu.Files

open Lib Function Option List Machine

/-! ## What a call does to a descriptor -/

namespace Vfse

variable {Node : Type} {v : Vfse Node} {fd id : Nat}

lemma freeFd_empty {i : Nat} (free : v.freeFd = some i) : v.fds i = none := by
  simpa using find?_some free

lemma vfseAllocFd_keeps (there : v.fds fd = some id) (id' : Nat) :
    (v.vfseAllocFd id').1.fds fd = some id := by
  cases free : v.freeFd with
  | none => rwa [vfseAllocFd_of_full free]
  | some i =>
    have other : fd ≠ i := by
      rintro rfl
      rw [freeFd_empty free] at there
      cases there
    rw [vfseAllocFd_of_free free, setFd_fds, update_of_ne other]
    exact there

lemma vfseClose_other {fd' : Int} (other : fd ≠ fd'.toNat) : (v.vfseClose fd').1.fds fd = v.fds fd := by
  unfold vfseClose
  cases found : v.vfseGetFile fd' with
  | none => rfl
  | some id =>
    rw [vfseFreeFd_eq found, setFd_fds, update_of_ne other]
    rfl

section

variable (there : v.fds fd = some id)

include there

lemma vfseDup_keeps (oldfd : Int) : (v.vfseDup oldfd).1.fds fd = some id := by
  unfold vfseDup
  split
  · exact there
  rename_i id' _
  have kept := vfseAllocFd_keeps (v := v.addRef id' 1) there id'
  dsimp only
  split
  · exact kept
  · exact kept

lemma vfseFcntl_keeps (oldfd cmd : Int) (arg : BitVec 32) :
    (v.vfseFcntl oldfd cmd arg).1.fds fd = some id := by
  unfold vfseFcntl
  split
  · exact there
  dsimp only
  split
  · split
    next i free =>
      have other : fd ≠ i := by
        rintro rfl
        rw [(freeFrom_some free).2] at there
        cases there
      rw [setFd_fds, update_of_ne other]
      exact there
    · exact there
  · exact there
  · exact there
  · exact there
  · exact there
  · exact there

lemma vfsePipe_keeps : v.vfsePipe.1.fds fd = some id := by
  cases free : v.freeFd with
  | none =>
    rw [vfsePipe_of_full free]
    exact there
  | some i =>
    have other : fd ≠ i := by
      rintro rfl
      rw [freeFd_empty free] at there
      cases there
    have reader : (v.withReader i).fds fd = some id := by
      rw [withReader, setFd_fds, update_of_ne other]
      exact there
    cases free' : (v.withReader i).freeFd with
    | none =>
      rw [vfsePipe_of_one free free', vfseClose_other (by simpa using other)]
      exact reader
    | some j =>
      have kept := vfseAllocFd_keeps reader (v.made + 1)
      rw [vfseAllocFd_of_free free'] at kept
      rw [vfsePipe_of_two free free']
      exact kept

lemma vfseDup2_keeps (oldfd newfd : Int) :
    (v.vfseDup2 oldfd newfd).1.fds fd = some id ∨
      (v.vfseDup2 oldfd newfd).2 = newfd ∧ 0 ≤ newfd ∧ newfd.toNat = fd := by
  unfold vfseDup2
  split
  · exact .inl there
  split
  · exact .inl there
  by_cases same : newfd.toNat = fd
  · exact .inr ⟨rfl, by omega, same⟩
  refine .inl ?_
  rw [setFd_fds, update_of_ne (Ne.symm same), addRef_fds, vfseClose_other (Ne.symm same)]
  exact there

end

end Vfse

namespace Context

variable {Node Disk : Type} {host : Host Node Disk} {caller : Caller} {c : Context Node Disk}
  {fd id k : Nat}

lemma closeOnExec_files (entries : List Nat) (c : Context Node Disk) :
    (closeOnExec entries c).files fd = if fd ∈ entries then none else c.files fd := by
  induction entries generalizing c with
  | nil => simp [closeOnExec]
  | cons i rest ih =>
    rw [closeOnExec, ih]
    by_cases same : fd = i
    · subst same
      split
      · simp
      cases empty : c.files fd <;> simp [empty, setFile]
    · cases there : c.files i <;> simp [setFile, same]

lemma closeOnExec_vfse (entries : List Nat) (c : Context Node Disk)
    (kept : fd ∉ entries ∨ c.files fd = none) :
    (closeOnExec entries c).vfse.fds fd = c.vfse.fds fd := by
  induction entries generalizing c with
  | nil => rfl
  | cons i rest ih =>
    rw [closeOnExec]
    cases there : c.files i with
    | none => exact ih c (kept.imp_left fun outside => fun member => outside (.tail i member))
    | some file =>
      have other : fd ≠ i := by
        rintro rfl
        simp [there] at kept
      rw [ih]
      · exact Vfse.vfseClose_other (by simpa using other)
      · simpa [setFile, other] using kept

variable [DecidableEq Node]

/-- What a call leaves of the tables. -/
inductive After (host : Host Node Disk) (caller : Caller) (c : Context Node Disk) :
    Call → Context Node Disk → Prop where
  | steady {call : Call} {c' : Context Node Disk} (steady : Steady c c') : After host caller c call c'
  | opens {path : Machine.Word} {flags : BitVec 32} {i : Nat} {node : Node} {disk : Disk}
      (opens : Opens host caller c path.toNat flags i node disk) :
      After host caller c (.open path flags) { c.setFile i (some ⟨node, 0, flags, c.opened⟩) with
        opened := c.opened + 1
        disk := disk }
  | closes {fd : BitVec 32} : After host caller c (.close fd) (c.setFile fd.toInt.toNat none)
  | pipe {pipefd : Machine.Word} (given : pipefd.toNat ≠ 0) :
      After host caller c (.pipe pipefd) { c with vfse := c.vfse.vfsePipe.1 }
  | dup {fd : BitVec 32} : After host caller c (.dup fd) (c.onVfse (c.vfse.vfseDup fd.toInt)).2
  | dup2 {oldfd newfd : BitVec 32} : After host caller c (.dup2 oldfd newfd)
      (c.onVfse (c.vfse.vfseDup2 oldfd.toInt newfd.toInt)).2
  | fcntl {fd cmd arg : BitVec 32} : After host caller c (.fcntl fd cmd arg)
      (c.onVfse (c.vfse.vfseFcntl fd.toInt cmd.toInt arg)).2
  | chdir {path : Machine.Word} {disk : Disk} {cwd : List UInt8} {c' : Context Node Disk}
      (result : c' = { c with disk := disk, vfse := { c.vfse with cwd := cwd } })
      (same : c' = (c.vfseChdir host caller path.toNat).2) : After host caller c (.chdir path) c'
  | execs {path : Machine.Word} {disk : Disk} : After host caller c (.execve path)
      (closeOnExec (range' 3 (maxFiles - 3)) { c with disk := disk })

lemma run_after (host : Host Node Disk) (caller : Caller) (c : Context Node Disk) (call : Call) :
    After host caller c call (c.run host caller call).2 := by
  cases call with
  | «open» path flags =>
    rcases sysOpen_cases host caller c path.toNat flags with
      ⟨i, node, disk, opens⟩ | ⟨ret, indices, disk, -, result⟩
    · rw [run, sysOpen_of_opens opens]
      exact .opens opens
    · rw [run, result]
      exact .steady (.refl c disk)
  | close fd =>
    rw [run, sysClose]
    split
    · exact .steady (.refl c c.disk)
    split
    · exact .steady (.refl c c.disk)
    · exact .closes
  | read fd buf count => exact .steady (sysRead_steady ..)
  | write fd buf count => exact .steady (sysWrite_steady ..)
  | writev fd iov iovcnt => exact .steady (writev_steady ..)
  | fstat fd buf => exact .steady (sysFstat_steady ..)
  | getdents fd buf count => exact .steady (sysGetdents_steady ..)
  | ioctl fd request argp => exact .steady (sysIoctl_steady ..)
  | pipe pipefd =>
    rw [run, vfsePipe]
    split
    · exact .steady (.refl c c.disk)
    next given => exact .pipe given
  | dup fd => exact .dup
  | dup2 oldfd newfd => exact .dup2
  | fcntl fd cmd arg => exact .fcntl
  | chdir path =>
    obtain ⟨disk, cwd, result⟩ : ∃ disk cwd, (c.vfseChdir host caller path.toNat).2 =
        { c with disk := disk, vfse := { c.vfse with cwd := cwd } } := by
      unfold vfseChdir
      split
      · exact ⟨c.disk, c.vfse.cwd, rfl⟩
      split
      · exact ⟨c.disk, c.vfse.cwd, rfl⟩
      dsimp only
      split
      · exact ⟨_, c.vfse.cwd, rfl⟩
      split
      · exact ⟨_, c.vfse.cwd, rfl⟩
      · exact ⟨_, _, rfl⟩
    exact .chdir result rfl
  | getcwd buf size =>
    rw [run, vfseGetcwd]
    split <;> exact .steady (.refl c c.disk)
  | execve path =>
    rw [run, sysExecve]
    split
    · exact .steady (.refl c c.disk)
    dsimp only
    split
    · exact .steady (.refl c _)
    split
    · exact .steady (.refl c _)
    split
    · exact .steady (.refl c _)
    split
    · exact .steady (.refl c _)
    · exact .execs

/-- After a call a descriptor has the file it had, or none. -/
lemma run_serial (host : Host Node Disk) (caller : Caller) (call : Call)
    (there : c.serial fd = some k) :
    (c.run host caller call).2.serial fd = some k ∨ (c.run host caller call).2.files fd = none := by
  have after := run_after host caller c call
  generalize (c.run host caller call).2 = c' at after
  cases after with
  | steady steady => exact .inl ((steady.serial fd).trans there)
  | @opens _ _ i _ _ opens =>
    have other : fd ≠ i := by
      rintro rfl
      simp [serial, (freeFile_lt opens.free).2.2] at there
    exact .inl (by simpa [serial, setFile, other] using there)
  | @closes fd' =>
    by_cases same : fd = fd'.toInt.toNat
    · exact .inr (by simp [setFile, same])
    · exact .inl (by simpa [serial, setFile, same] using there)
  | pipe | dup | dup2 | fcntl => exact .inl there
  | chdir result =>
    rw [result]
    exact .inl there
  | execs =>
    rw [serial, closeOnExec_files]
    split
    · exact .inr rfl
    · exact .inl there

/-- Only `dup2` onto a descriptor and an `execve` that closes it take it out of the VFSe
    table. -/
lemma run_vfse (host : Host Node Disk) (caller : Caller) (call : Call)
    (there : c.vfse.fds fd = some id) :
    (c.run host caller call).2.vfse.fds fd = some id ∨
      (∃ oldfd newfd, call = .dup2 oldfd newfd ∧
        (c.run host caller call).1.ret = some newfd.toInt ∧ 0 ≤ newfd.toInt ∧ newfd.toInt.toNat = fd) ∨
      (∃ path, call = .execve path) ∧ (c.files fd).isSome = true ∧
        (c.run host caller call).2.files fd = none := by
  have after := run_after host caller c call
  generalize ran : (c.run host caller call).2 = c' at after
  cases after with
  | steady steady =>
    rw [steady.vfse]
    exact .inl there
  | opens | closes => exact .inl there
  | pipe => exact .inl (Vfse.vfsePipe_keeps there)
  | dup => exact .inl (Vfse.vfseDup_keeps there _)
  | @dup2 oldfd newfd =>
    rcases Vfse.vfseDup2_keeps there oldfd.toInt newfd.toInt with kept | ⟨returned, positive, same⟩
    · exact .inl kept
    · exact .inr (.inl ⟨oldfd, newfd, rfl, congrArg some returned, positive, same⟩)
  | fcntl => exact .inl (Vfse.vfseFcntl_keeps there _ _ _)
  | chdir result =>
    rw [result]
    exact .inl there
  | @execs path disk =>
    by_cases kept : fd ∉ range' 3 (maxFiles - 3) ∨ c.files fd = none
    · exact .inl ((closeOnExec_vfse _ { c with disk := disk } kept).trans there)
    push Not at kept
    refine .inr (.inr ⟨⟨path, rfl⟩, isSome_iff_ne_none.mpr kept.2, ?_⟩)
    rw [closeOnExec_files, if_pos kept.1]

end Context

/-! ## Descriptors and what they were returned for -/

/-- The two tables in which a call may look. -/
inductive Table where
  | process | vfse
  deriving DecidableEq

/-- An open file, by its place in the order of creation. -/
inductive OpenFile where
  | process (serial : Nat)
  | vfse (id : Nat)
  deriving DecidableEq

def OpenFile.table : OpenFile → Table
  | .process _ => .process
  | .vfse _ => .vfse

namespace Call

def table : Call → Table
  | .pipe _ | .dup _ | .dup2 _ _ | .fcntl _ _ _ => .vfse
  | _ => .process

/-- The descriptor that a call is about. -/
def descriptor : Call → Option (BitVec 32)
  | .close fd | .read fd _ _ | .write fd _ _ | .writev fd _ _ | .fstat fd _ | .getdents fd _ _
  | .ioctl fd _ _ | .dup fd | .dup2 fd _ | .fcntl fd _ _ => some fd
  | _ => none

end Call

/-- For a process and a number, the open files that it was returned for and that the process
    has not closed since. -/
abbrev History := Nat → Int → List OpenFile

/-- What can happen: the process `child` begins as a copy of its parent, or with a terminal
    as its standard files. -/
inductive Step (Node : Type) where
  | call (e : Event)
  | fork (parent child : Nat)
  | spawn (pid : Nat) (tty : Node)
  | exit (pid : Nat)

open Step

section

variable {Node Disk : Type} [DecidableEq Node] (host : Host Node Disk) (s : State Node Disk)

namespace State

/-- The open file that a call with this descriptor finds. -/
def denotes (pid : Nat) (fd : Int) : Table → Option OpenFile
  | .process => if fd < 0 ∨ maxFiles ≤ fd then none else
      (s.files pid fd.toNat).map fun file => .process file.serial
  | .vfse => (s.vfse.vfseGetFile fd).map .vfse

def after : Step Node → State Node Disk
  | .call e => (s.handle host e).2
  | .fork parent child =>
    { s with files := update s.files child (s.files parent)
             opened := update s.opened child (s.opened parent) }
  | .spawn pid tty =>
    let flags (fd : Nat) : BitVec 32 := if fd = 0 then 0 else oWronly
    let standard (fd : Nat) := if fd < 3 then some ⟨tty, 0, flags fd, fd⟩ else none
    { s with files := update s.files pid standard
             opened := update s.opened pid 3 }
  | .exit pid => { s with files := update s.files pid fun _ => none }

/-- The numbers that a successful call returns. -/
def returned (e : Event) : List Int :=
  match e.call, (s.handle host e).1.ret with
  | .pipe _, some ret => if ret = 0 then [s.vfse.vfsePipe.2.2.1, s.vfse.vfsePipe.2.2.2] else []
  | .open _ _, some ret | .dup _, some ret | .dup2 _ _, some ret => if 0 ≤ ret then [ret] else []
  | .fcntl _ cmd _, some ret => if cmd = 0 ∧ 0 ≤ ret then [ret] else []
  | _, _ => []

/-- `close` and `execve` empty entries of the table, and `dup2` closes what it returns. -/
def closes (e : Event) (fd : Int) : Bool :=
  (0 ≤ fd && (s.files e.pid fd.toNat).isSome && ((s.handle host e).2.files e.pid fd.toNat).isNone) ||
    match e.call with
    | .dup2 _ _ => fd ∈ s.returned host e
    | _ => false

def record (h : History) : Step Node → History
  | .call e => fun pid fd =>
    if pid = e.pid then
      let new := ((s.handle host e).2.denotes pid fd e.call.table).toList
      (if s.closes host e fd then [] else h pid fd) ++ (if fd ∈ s.returned host e then new else [])
    else h pid fd
  | .fork _ child => update h child fun _ => []
  | .spawn pid _ => update h pid fun _ => []
  | .exit pid => update h pid fun _ => []

variable (h : History)

/-- A call finds the open files that its descriptor was returned for. -/
def Finds (e : Event) : Prop :=
  ∀ fd, e.call.descriptor = some fd → ∀ f ∈ h e.pid fd.toInt,
    s.denotes e.pid fd.toInt e.call.table = some f

end State

/-- The descriptor of a call was returned by calls on the table that the call uses. -/
def History.OwnTable (h : History) (e : Event) : Prop :=
  ∀ fd, e.call.descriptor = some fd → ∀ f ∈ h e.pid fd.toInt, f.table = e.call.table

/-- No other process has got the slots of the VFSe table that the call closes. -/
def State.Unshared (h : History) (e : Event) : Prop :=
  ∀ pid ≠ e.pid, ∀ fd id, .vfse id ∈ h pid fd →
    match e.call with
    | .dup2 _ newfd => newfd.toInt ≠ fd
    | .execve _ => s.files e.pid fd.toNat = none
    | _ => True

/-- `execve` closes no descriptor of the VFSe table. -/
def Context.ClosesNone (c : Context Node Disk) : Prop :=
  ∀ i, 3 ≤ i → i < maxFiles → c.files i ≠ none → c.vfse.fds i = none

/-- No end of a pipe loses its last descriptor. -/
def Call.Spares (c : Context Node Disk) : Call → Prop
  | .dup2 oldfd newfd => c.vfse.Spares (.dup2 oldfd.toInt newfd.toInt)
  | .execve _ => c.ClosesNone
  | _ => True

/-- The call stays on its own table and closes nothing of another process. Besides, what it
    stores is in user memory, and it frees no end of a pipe: a call that breaks this can change
    any table, because the memory of a pipe is freed with each of its ends. -/
structure State.Disciplined (h : History) (e : Event) : Prop where
  own : h.OwnTable e
  unshared : s.Unshared h e
  fits : e.call.Fits host (s.context e.pid)
  spares : e.call.Spares (s.context e.pid)

abbrev Step.Takes (s : State Node Disk) (step : Step Node) (s' : State Node Disk) : Prop :=
  s' = s.after host step

abbrev Step.Records : State Node Disk × History → Step Node → State Node Disk × History → Prop :=
  Recorded (Step.Takes host) fun s step h => s.record host h step

def Step.Disciplined (s : State Node Disk × History) : Step Node → Prop
  | .call e => s.1.Disciplined host s.2 e
  | _ => True

end

/-! ## What a history promises -/

namespace State

variable {Node Disk : Type} {host : Host Node Disk} {s s' : State Node Disk} {h : History} {f : OpenFile}

/-- In its own table every number still has the file it was returned for. -/
def Honours (s : State Node Disk) (h : History) : Prop :=
  ∀ pid fd, ∀ f ∈ h pid fd, s.denotes pid fd f.table = some f

variable {pid : Nat} {fd : Int} {e : Event}

lemma table_of_denotes {table : Table} (found : s.denotes pid fd table = some f) : f.table = table := by
  cases table with
  | process =>
    rw [denotes] at found
    split at found
    · cases found
    obtain ⟨file, -, rfl⟩ := map_eq_some_iff.mp found
    rfl
  | vfse =>
    obtain ⟨id, -, rfl⟩ := map_eq_some_iff.mp found
    rfl

lemma denotes_process {k : Nat} :
    s.denotes pid fd .process = some (.process k) ↔
      (0 ≤ fd ∧ fd < maxFiles) ∧ (s.context pid).serial fd.toNat = some k := by
  rw [denotes]
  split
  · refine iff_of_false (by simp) ?_
    omega
  next inside =>
    have inside : 0 ≤ fd ∧ fd < maxFiles := by omega
    simp [inside, Context.serial, context]

lemma denotes_vfse {id : Nat} :
    s.denotes pid fd .vfse = some (.vfse id) ↔ (0 ≤ fd ∧ fd.toNat < 256) ∧ s.vfse.fds fd.toNat = some id := by
  rw [denotes, and_assoc, ← Vfse.vfseGetFile_some]
  simp

/-- A call of the right table finds what was promised, and one of the other table cannot. -/
lemma Honours.finds_iff (honours : s.Honours h) (e : Event) : s.Finds h e ↔ h.OwnTable e := by
  constructor
  · intro finds fd about f promised
    exact table_of_denotes (finds fd about f promised)
  · intro own fd about f promised
    rw [← own fd about f promised]
    exact honours e.pid fd.toInt f promised

/-- A process that begins or ends has been promised nothing. -/
lemma Honours.replace (honours : s.Honours h) (pid : Nat)
    (others : ∀ pid' ≠ pid, s'.files pid' = s.files pid') (same : s'.vfse = s.vfse) :
    s'.Honours (update h pid fun _ => []) := by
  intro pid' fd f promised
  by_cases own : pid' = pid
  · simp [own] at promised
  rw [update_of_ne own] at promised
  have before := honours pid' fd f promised
  cases table : f.table with rw [table, denotes] at before
  | process =>
    rwa [denotes, others pid' own]
  | vfse =>
    rwa [denotes, same]

variable [DecidableEq Node]

lemma closes_of_emptied (positive : 0 ≤ fd) (opened : (s.files e.pid fd.toNat).isSome = true)
    (gone : (s.handle host e).2.files e.pid fd.toNat = none) : s.closes host e fd = true := by
  simp [closes, positive, opened, gone]

lemma closes_of_dup2 {oldfd newfd : BitVec 32} (about : e.call = .dup2 oldfd newfd)
    (ret : (s.handle host e).1.ret = some newfd.toInt) (positive : 0 ≤ newfd.toInt) :
    s.closes host e newfd.toInt = true := by
  simp [closes, returned, about, ret, positive]

/-- A number keeps its file over every call that does not close it. -/
lemma Honours.kept (honours : s.Honours h) (unshared : s.Unshared h e)
    (promised : f ∈ h pid fd) (unclosed : pid = e.pid → s.closes host e fd = false) :
    (s.handle host e).2.denotes pid fd f.table = some f := by
  have before := honours pid fd f promised
  cases f with
  | process k =>
    obtain ⟨inside, there⟩ := denotes_process.mp before
    refine denotes_process.mpr ⟨inside, ?_⟩
    by_cases own : pid = e.pid
    · subst own
      have same : ((s.handle host e).2.context e.pid).files =
          ((s.context e.pid).run host e.caller e.call).2.files := update_self ..
      rcases Context.run_serial host e.caller e.call there with kept | gone
      · rwa [Context.serial, same]
      obtain ⟨file, found, -⟩ := map_eq_some_iff.mp there
      have found : s.files e.pid fd.toNat = some file := found
      have gone : (s.handle host e).2.files e.pid fd.toNat = none := by
        rw [← gone, ← same]
        rfl
      have opened : (s.files e.pid fd.toNat).isSome = true := by rw [found, isSome_some]
      rw [closes_of_emptied inside.1 opened gone] at unclosed
      cases unclosed rfl
    · have same : ((s.handle host e).2.context pid).files = (s.context pid).files :=
        update_of_ne own ..
      rwa [Context.serial, same]
  | vfse id =>
    obtain ⟨inside, there⟩ := denotes_vfse.mp before
    refine denotes_vfse.mpr ⟨inside, ?_⟩
    rcases Context.run_vfse (c := s.context e.pid) host e.caller e.call there with
      kept | ⟨oldfd, newfd, about, ret, positive, same⟩ | ⟨⟨path, about⟩, opened, gone⟩
    · exact kept
    · exfalso
      have same : newfd.toInt = fd := by omega
      by_cases own : pid = e.pid
      · rw [← same, closes_of_dup2 about ret positive] at unclosed
        cases unclosed own
      have other := unshared pid own fd id promised
      rw [about] at other
      exact other same
    · exfalso
      by_cases own : pid = e.pid
      · have gone : (s.handle host e).2.files e.pid fd.toNat = none := by
          rw [← gone]
          exact congrFun (update_self ..) _
        rw [closes_of_emptied inside.1 opened gone] at unclosed
        cases unclosed own
      · have empty := unshared pid own fd id promised
        rw [about] at empty
        have opened : (s.files e.pid fd.toNat).isSome = true := opened
        simp [empty] at opened

lemma Honours.handle (honours : s.Honours h) (unshared : s.Unshared h e) :
    (s.after host (.call e)).Honours (s.record host h (.call e)) := by
  intro pid fd f promised
  simp only [record] at promised
  split at promised
  · rcases mem_append.mp promised with old | new
    · split at old
      · cases old
      next unclosed => exact honours.kept unshared old fun _ => by simpa using unclosed
    split at new
    · have found := mem_toList.mp new
      rw [table_of_denotes found]
      exact found
    · cases new
  next other => exact honours.kept unshared promised fun own => absurd own other

lemma Honours.after (honours : s.Honours h) {step : Step Node}
    (disciplined : step.Disciplined host (s, h)) :
    (s.after host step).Honours (s.record host h step) := by
  cases step with
  | call e => exact honours.handle disciplined.unshared
  | fork parent child =>
    exact honours.replace child (fun pid other => update_of_ne other ..) rfl
  | spawn pid tty => exact honours.replace pid (fun pid other => update_of_ne other ..) rfl
  | exit pid => exact honours.replace pid (fun pid other => update_of_ne other ..) rfl

end State

/-- In every run whose calls are disciplined, every call finds the open files for which its
    descriptor was returned; the next call does so if and only if it uses the table the
    descriptor came from. -/
theorem descriptors_denote {Node Disk : Type} [DecidableEq Node] (host : Host Node Disk)
    {s₀ s : State Node Disk} {h : History} {steps : List (Step Node)}
    (run : Run (When (Step.Records host) (Step.Disciplined host)) (s₀, fun _ _ => []) steps (s, h))
    (e : Event) :
    s.Finds h e ↔ h.OwnTable e := by
  have keeps : ∀ (p : State Node Disk × History) (step : Step Node) (p' : State Node Disk × History),
      p.1.Honours p.2 → When (Step.Records host) (Step.Disciplined host) p step p' →
        p'.1.Honours p'.2 := by
    rintro ⟨s, h⟩ step ⟨s', h'⟩ honours ⟨⟨rfl, rfl⟩, disciplined⟩
    exact honours.after disciplined
  have honours := run.invariant keeps (by simp [State.Honours])
  exact honours.finds_iff e

/-! ## Two files and a pipe -/

/-- A host with the files `/a` and `/b`, whose contents are its state. -/
def twoFileHost : Host Bool (Bool → List UInt8) where
  respond
    | disk, .pathToNode path =>
      (if path = [slash, 97] then some false else if path = [slash, 98] then some true else none, disk)
    | disk, .fields node => (⟨.file, (disk node).length, 0, 0, false, false, false, []⟩, disk)
    | disk, .create _ _ => (none, disk)
    | disk, .read node _ size offset =>
      let bytes := ((disk node).drop offset).take size
      ((bytes.length, bytes), disk)
    | disk, .write node memory buf size offset =>
      let bytes := (range size).map fun i => memory (buf + i)
      (size, update disk node ((disk node).take offset ++ bytes))
    | disk, .readdir _ _ _ => ((0, []), disk)
    | disk, .termios => ([], disk)
    | disk, .setTermios _ => ((), disk)
  load _ := none

/-- The paths `a` and `b` are at 4096 and 4098. -/
def pathsCaller : Caller := ⟨fun addr => if addr = 4096 then 97 else if addr = 4098 then 98 else 0, []⟩

/-- Before any process has opened a file. -/
def freshState : State Bool (Bool → List UInt8) := ⟨fun _ _ => none, fun _ => 0, vfseInit, fun _ => []⟩

def openA : Event := ⟨0, pathsCaller, .open 4096 0⟩
def openB : Event := ⟨0, pathsCaller, .open 4098 1⟩
def makePipe : Event := ⟨0, pathsCaller, .pipe 8192⟩
def writeEnd : Event := ⟨0, pathsCaller, .write 4 4096 1⟩
def readEnd : Event := ⟨0, pathsCaller, .read 3 8192 1⟩

theorem opened_file_found :
    (freshState.after twoFileHost (.call openA)).Finds
      (freshState.record twoFileHost (fun _ _ => []) (.call openA)) readEnd := by
  have disciplined : freshState.Disciplined twoFileHost (fun _ _ => []) openA :=
    ⟨by simp [History.OwnTable], by simp [State.Unshared], trivial, trivial⟩
  have run : Run (When (Step.Records twoFileHost) (Step.Disciplined twoFileHost))
      (freshState, fun _ _ => []) [.call openA]
      (freshState.after twoFileHost (.call openA),
        freshState.record twoFileHost (fun _ _ => []) (.call openA)) :=
    .cons ⟨⟨rfl, rfl⟩, disciplined⟩ (.nil _)
  refine (descriptors_denote twoFileHost run readEnd).mpr ?_
  intro fd about f promised
  cases about
  have only : freshState.record twoFileHost (fun _ _ => []) (.call openA) 0 3 = [.process 0] := by decide
  have promised : f ∈ freshState.record twoFileHost (fun _ _ => []) (.call openA) 0 3 := promised
  cases mem_singleton.mp promised
  rfl

/-- The pipe gets the numbers 3 and 4, which the process has for two files. The byte written
    to 4 goes to the second file and does not come back from 3. -/
theorem pipe_ends_name_files :
    ∃ s h, Run (Step.Records twoFileHost) (freshState, fun _ _ => [])
        [.call openA, .call openB, .call makePipe] (s, h) ∧
      ¬ s.Finds h writeEnd ∧ ¬ s.Finds h readEnd ∧
      (s.handle twoFileHost writeEnd).1.ret = some 1 ∧
      ((s.handle twoFileHost writeEnd).2.handle twoFileHost readEnd).1.ret = some 0 := by
  let next (p : State Bool (Bool → List UInt8) × History) (step : Step Bool) :=
    some (p.1.after twoFileHost step, p.1.record twoFileHost p.2 step)
  let check (p : State Bool (Bool → List UInt8) × History) : Bool :=
    .vfse 1 ∈ p.2 0 4 ∧ .vfse 0 ∈ p.2 0 3 ∧
      (p.1.handle twoFileHost writeEnd).1.ret = some 1 ∧
      ((p.1.handle twoFileHost writeEnd).2.handle twoFileHost readEnd).1.ret = some 0
  have sound : ∀ p step p', next p step = some p' → Step.Records twoFileHost p step p' := by
    intro p step p' taken
    cases taken
    exact ⟨rfl, rfl⟩
  obtain ⟨⟨s, h⟩, run, checked⟩ := Run.of_check next sound (freshState, fun _ _ => [])
    [.call openA, .call openB, .call makePipe] check (by decide)
  obtain ⟨writer, reader, written, read⟩ := of_decide_eq_true checked
  refine ⟨s, h, run, fun finds => ?_, fun finds => ?_, written, read⟩
  · cases State.table_of_denotes (finds 4 rfl (.vfse 1) writer)
  · cases State.table_of_denotes (finds 3 rfl (.vfse 0) reader)

end Znu.Files
