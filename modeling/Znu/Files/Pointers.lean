import Znu.Files.Effects
import Znu.Kernel.System

/-! # Where system calls store

What `syscall_handler` stores through the pointers in its arguments, and the indices it
uses into the table of descriptors, for every number and every value of the registers.
`is_user_addr` adds the length modulo 2^64, and several calls do not use it at all.
-/

namespace Znu.Files

open Lib Machine List Outcome Kernel.System Kernel Call

structure Span where
  addr : Nat
  len : Nat

open Files.Span

structure Touched where
  spans : List Span
  indices : List Int

open Touched

def Outcome.touched (o : Outcome) : Touched :=
  ⟨o.stores.map fun store => ⟨store.addr, store.bytes.length⟩, o.indices⟩

/-! ## The calls that are not about files -/

/-- `sizeof(struct stat)`, `sizeof(struct sysinfo)` and `sizeof(struct zfilt_result)` -/
def statSize : Nat := 80
def sysinfoSize : Nat := 112
def zfiltResultSize : Nat := 16

/-- What a system call finds: the files of its process, the process table, and whether the
    random number generator has been seeded. -/
structure Moment (Node Disk : Type) where
  context : Context Node Disk
  system : Kernel.System
  seeded : Bool

inductive Syscall where
  | file (call : Call)
  | stat (path buf : Word)
  | fork
  | wait (pid : BitVec 32) (status : Word)
  | sysinfo (info : Word)
  | getrandom (buf buflen : Word)
  | zfilt (code len res : Word)
  /-- stores through no argument and uses no descriptor of its process -/
  | other

/-- The `switch` of `syscall_handler`. -/
def Syscall.ofRegs (regs : Frame) : Syscall :=
  let fd := regs.rdi.setWidth 32
  match regs.rax.toNat with
  | 0 => .file (.read fd regs.rsi regs.rdx)
  | 1 => .file (.write fd regs.rsi regs.rdx)
  | 2 => .file (.open regs.rdi (regs.rsi.setWidth 32))
  | 3 => .file (.close fd)
  | 4 | 6 => .stat regs.rdi regs.rsi
  | 5 => .file (.fstat fd regs.rsi)
  | 16 => .file (.ioctl fd regs.rsi regs.rdx)
  | 20 => .file (.writev fd regs.rsi (regs.rdx.setWidth 32))
  | 22 => .file (.pipe regs.rdi)
  | 32 => .file (.dup fd)
  | 33 => .file (.dup2 fd (regs.rsi.setWidth 32))
  | 57 => .fork
  | 59 => .file (.execve regs.rdi)
  | 61 => .wait fd regs.rsi
  | 72 => .file (.fcntl fd (regs.rsi.setWidth 32) (regs.rdx.setWidth 32))
  | 79 => .file (.getcwd regs.rdi regs.rsi)
  | 80 => .file (.chdir regs.rdi)
  | 99 => .sysinfo regs.rdi
  | 217 => .file (.getdents fd regs.rsi regs.rdx)
  | 318 => .getrandom regs.rdi regs.rsi
  | 400 => .zfilt regs.rdi regs.rsi regs.rdx
  | _ => .other

variable {indices : List Int} {n : Nat}

variable {Node Disk : Type}

section

variable [DecidableEq Node] (host : Host Node Disk) (caller : Caller) (m : Moment Node Disk)

namespace Moment

def sysStat (path buf : Nat) : List Span :=
  if path = 0 ∨ isUserAddr path 1 = false then [] else
  if buf = 0 ∨ isUserAddr buf statSize = false then [] else
  match copyPath caller.memory path 255 with
  | none => []
  | some kpath =>
    match (host.respond m.context.disk (.pathToNode kpath)).1 with
    | none => []
    | some _ => [⟨buf, statSize⟩]

def sysSysinfo (info : Nat) : List Span :=
  if info = 0 ∨ isUserAddr info sysinfoSize = false then [] else [⟨info, sysinfoSize⟩]

/-- `secure_random_bytes` fills the whole buffer, in chunks, unless the generator has not
    been seeded. -/
def sysGetrandom (buf buflen : Nat) : List Span :=
  if buf = 0 ∨ buflen = 0 then [] else
  if isUserAddr buf buflen = false then [] else
  if m.seeded then [⟨buf, buflen⟩] else []

def sysZfilt (code len res : Nat) : List Span :=
  if code = 0 ∨ len = 0 ∨ 1024 * 1024 < len then [] else
  if isUserAddr code len = false then [] else
  if res ≠ 0 ∧ isUserAddr res zfiltResultSize = false then [] else
  if res ≠ 0 then [⟨res, zfiltResultSize⟩] else []

/-- What `do_wait` adds to the status codes stored. -/
def doWait (pid : BitVec 32) (status : Word) : List Span :=
  let stores := (m.system.doWait pid status).1.statusStores
  (stores.take (stores.length - m.system.statusStores.length)).map fun store => ⟨store.1.toNat, 4⟩

/-- `clone_process` copies every entry of the table, if the process can be cloned. -/
def forkIndices : List Int :=
  match m.system.running with
  | none => []
  | some src =>
    if (m.system.cloneProcess src Kernel.zeroFrame (some 0)).2.isSome then
      (List.range maxFiles).map Int.ofNat
    else []

def touched : Syscall → Touched
  | .file call => (m.context.run host caller call).1.touched
  | .stat path buf => ⟨m.sysStat host caller path.toNat buf.toNat, []⟩
  | .fork => ⟨[], m.forkIndices⟩
  | .wait pid status => ⟨m.doWait pid status, []⟩
  | .sysinfo info => ⟨sysSysinfo info.toNat, []⟩
  | .getrandom buf buflen => ⟨m.sysGetrandom buf.toNat buflen.toNat, []⟩
  | .zfilt code len res => ⟨sysZfilt code.toNat len.toNat res.toNat, []⟩
  | .other => ⟨[], []⟩

def syscallHandler (regs : Frame) : Touched := m.touched host caller (.ofRegs regs)

end Moment

/-! ## Staying inside -/

/-- Every byte is below the end of the user half. -/
def Span.InUserHalf (span : Span) : Prop := ∀ k < span.len, (span.addr + k) % 2 ^ 64 < userEnd

def Touched.Confined (t : Touched) : Prop :=
  (∀ span ∈ t.spans, span.InUserHalf) ∧ ∀ i ∈ t.indices, 0 ≤ i ∧ i < maxFiles

variable (c : Context Node Disk)

/-- The file of a descriptor that has been tested. -/
def Context.openFile (fd : Int) : Option (VfsFile Node) :=
  if fd < 0 ∨ maxFiles ≤ fd then none else c.files fd.toNat

/-- How many entries of a directory `getdents` can return. -/
def Context.entriesLeft (file : VfsFile Node) (count : Nat) : Nat :=
  min ((host.fields c.disk file.node).children.length - (Fs.toInt file.pos).toNat)
    (count / Context.direntSize)

/-- The room a call needs, where nothing tests that it is there. -/
def Call.Fits : Call → Prop
  | .read fd buf count => ∀ file, c.openFile fd.toInt = some file → buf ≠ 0 →
      isUserAddr buf.toNat count.toNat = true → buf.toNat + (host.respond c.disk
        (.read file.node (c.nonblock file.node) count.toNat file.pos)).1.2.length ≤ userEnd
  | .getdents fd buf count => 0 ≤ fd.toInt ∧ fd.toInt < maxFiles ∧
      ∀ file, c.files fd.toInt.toNat = some file →
        (host.fields c.disk file.node).type = .directory →
        if (host.fields c.disk file.node).listsItself then
          let bytes := (host.respond c.disk (.readdir file.node (file.pos % 2 ^ 32) count.toNat)).1.2
          bytes = [] ∨ buf.toNat + bytes.length ≤ userEnd
        else
          c.entriesLeft host file count.toNat = 0 ∨
            buf.toNat + Context.direntSize * c.entriesLeft host file count.toNat ≤ userEnd
  | .ioctl fd request argp => ∀ file, c.openFile fd.toInt = some file →
      (host.fields c.disk file.node).type = .device → (host.fields c.disk file.node).tty = true →
        argp ≠ 0 → (request = 0x5401 → argp.toNat + termiosSize ≤ userEnd) ∧
          (request = 0x5413 → argp.toNat + 8 ≤ userEnd)
  | .pipe pipefd => pipefd = 0 ∨ pipefd.toNat + 8 ≤ userEnd
  | .getcwd buf size => buf = 0 ∨ size = 0 ∨ buf.toNat + size.toNat ≤ userEnd
  | _ => True

/-- The pointers of the system calls that do not test them, or test them modulo 2^64, leave
    the room that is needed, and `getdents` names an entry of the table. -/
def Moment.Checked : Syscall → Prop
  | .file call => call.Fits host m.context
  | .wait pid status =>
    (m.system.running.bind (m.system.exitedChild · pid)).isSome = true → status ≠ 0 →
      status.toNat + 4 ≤ userEnd
  | .getrandom buf buflen => m.seeded = true → buf ≠ 0 →
      isUserAddr buf.toNat buflen.toNat = true → buf.toNat + buflen.toNat ≤ userEnd
  | _ => True

/-! ## Spans -/

variable {a : Nat}

lemma Span.inUserHalf_iff (wide : a < 2 ^ 64) : (mk a n).InUserHalf ↔ n = 0 ∨ a + n ≤ userEnd := by
  simp only [InUserHalf, userEnd]
  constructor
  · intro inside
    by_contra! outside
    obtain ⟨nonempty, beyond⟩ := outside
    have last := inside (0x800000000000 - a) (by omega)
    omega
  · intro room k inside
    omega

/-- The test of `is_user_addr` is right for short lengths. -/
lemma room_of_isUserAddr (short : n ≤ 2 ^ 63) (tested : isUserAddr a n = true) : a + n ≤ userEnd := by
  obtain ⟨low, room⟩ := isUserAddr_iff.mp tested
  simp only [userEnd] at *
  omega

lemma Touched.confined_nil (inside : ∀ i ∈ indices, 0 ≤ i ∧ i < maxFiles) : (mk [] indices).Confined :=
  ⟨fun _ member => absurd member not_mem_nil, inside⟩

/-- A call that stores through one pointer and uses entries of the table. -/
lemma Touched.confined_iff (wide : a < 2 ^ 64)
    (inside : ∀ i ∈ indices, 0 ≤ i ∧ i < maxFiles) :
    (mk [⟨a, n⟩] indices).Confined ↔ n = 0 ∨ a + n ≤ userEnd := by
  rw [← inUserHalf_iff wide, Touched.Confined, forall_mem_singleton]
  exact and_iff_left inside

lemma range_inside (short : n ≤ maxFiles) : ∀ i ∈ (range n).map Int.ofNat, 0 ≤ i ∧ i < maxFiles := by
  intro i member
  obtain ⟨k, below, rfl⟩ := mem_map.mp member
  have := mem_range.mp below
  exact ⟨Int.natCast_nonneg k, by simpa using lt_of_lt_of_le this short⟩

lemma range'_inside (short : 3 + n ≤ maxFiles) : ∀ i ∈ (range' 3 n).map Int.ofNat, 0 ≤ i ∧ i < maxFiles := by
  intro i member
  obtain ⟨k, below, rfl⟩ := mem_map.mp member
  have := (mem_range'_1.mp below).2
  exact ⟨Int.natCast_nonneg k, by simpa using lt_of_lt_of_le this short⟩

/-! ## Calls that store nothing -/

/-- The call stores nothing and uses entries of the table only. -/
def Outcome.Silent (o : Outcome) : Prop := o.stores = [] ∧ ∀ i ∈ o.indices, 0 ≤ i ∧ i < maxFiles

lemma Outcome.Silent.confined {o : Outcome} (silent : o.Silent) : o.touched.Confined := by
  rw [touched, silent.1]
  exact confined_nil silent.2

end

namespace Context

variable {host : Host Node Disk} {caller : Caller} {c : Context Node Disk}

variable {argp iov request : Nat} {flags iovcnt : BitVec 32} {ret : Int}

lemma returns_silent (inside : ∀ i ∈ indices, 0 ≤ i ∧ i < maxFiles) : (c.returns indices ret).1.Silent :=
  ⟨rfl, inside⟩

lemma returns_nil_silent : (c.returns [] ret).1.Silent := returns_silent (by simp)

variable {fd : Int} {buf count path : Nat}

lemma inside_singleton (tested : ¬ (fd < 0 ∨ maxFiles ≤ fd)) : ∀ i ∈ [fd], 0 ≤ i ∧ i < maxFiles := by
  intro i member
  cases mem_singleton.mp member
  push Not at tested
  exact tested

lemma openIndices_inside : ∀ i ∈ c.openIndices, 0 ≤ i ∧ i < maxFiles := by
  refine range'_inside ?_
  cases free : c.freeFile with
  | none => exact le_rfl
  | some i =>
    have bounds := freeFile_lt free
    simp only [Option.map_some, Option.getD_some]
    omega

lemma onVfse_silent {result : Vfse Node × Int} : (c.onVfse result).1.Silent := ⟨rfl, by simp [onVfse]⟩

lemma openNode_silent {node : Node} : (c.openNode host node flags).1.Silent := by
  unfold openNode
  split
  · exact returns_nil_silent
  split
  · exact returns_silent openIndices_inside
  · exact ⟨rfl, openIndices_inside⟩

lemma sysOpen_silent : (c.sysOpen host caller path flags).1.Silent := by
  unfold sysOpen
  split
  · exact returns_nil_silent
  split
  · exact returns_nil_silent
  split
  · exact returns_nil_silent
  dsimp only
  split
  · exact returns_nil_silent
  · exact openNode_silent

lemma sysClose_silent : (c.sysClose fd).1.Silent := by
  unfold sysClose
  split
  · exact returns_nil_silent
  have inside := @inside_singleton fd (by omega)
  split <;> exact returns_silent inside

lemma sysWrite_silent : (c.sysWrite host caller fd buf count).1.Silent := by
  unfold sysWrite
  split
  · exact returns_nil_silent
  rename_i tested
  split
  · exact returns_nil_silent
  split
  · exact returns_silent (inside_singleton tested)
  split
  · exact returns_silent (inside_singleton tested)
  · exact ⟨rfl, inside_singleton tested⟩

lemma writevLoop_silent {total : Int} : (writevLoop host caller fd iov total n c).1.Silent := by
  induction n generalizing iov total c with
  | zero => exact returns_nil_silent
  | succ n ih =>
    unfold writevLoop
    dsimp only
    split
    · exact ih
    have first : (c.sysWrite host caller fd (caller.memory.word iov 8)
        (caller.memory.word (iov + 8) 8)).1.Silent := sysWrite_silent
    split
    · exact ⟨rfl, first.2⟩
    refine ⟨rfl, fun i member => ?_⟩
    rcases mem_append.mp member with here | later
    · exact first.2 i here
    · exact ih.2 i later

lemma writev_silent : (c.writev host caller fd iov iovcnt).1.Silent := by
  unfold writev
  split
  · exact writevLoop_silent
  · exact returns_nil_silent

lemma vfseChdir_silent : (c.vfseChdir host caller path).1.Silent := by
  unfold vfseChdir
  split
  · exact returns_nil_silent
  split
  · exact returns_nil_silent
  dsimp only
  split
  · exact returns_nil_silent
  split
  · exact returns_nil_silent
  · exact onVfse_silent

/-! ## Calls that store -/

lemma kstat_length (fields : NodeFields) : (kstat fields).length = statSize := by
  simp [kstat, statSize]

lemma sysFstat_confined : (c.sysFstat host fd buf).1.touched.Confined := by
  unfold sysFstat
  split
  · exact returns_nil_silent.confined
  rename_i tested
  split
  · exact returns_nil_silent.confined
  rename_i accepted
  push Not at accepted
  have user : isUserAddr buf 80 = true := by simpa using accepted.2
  have wide : buf < 2 ^ 64 := lt_trans (isUserAddr_iff.mp user).1 (by decide)
  split
  · exact (returns_silent (inside_singleton tested)).confined
  simp only [touched, map_cons, map_nil, kstat_length]
  rw [confined_iff wide (inside_singleton tested)]
  exact .inr (room_of_isUserAddr (by decide) user)

lemma dirent_length (child : Child) : (dirent child).length = direntSize := by
  simp [dirent, direntSize]

/-- The entries lie one after the other, so that none can wrap around before another has
    left the user half. -/
lemma direntLoop_confined (children : List Child) {read : Nat} (wide : buf + read < 2 ^ 64) :
    (∀ store ∈ direntLoop buf count children read, (Span.mk store.addr store.bytes.length).InUserHalf) ↔
      min children.length ((count - read) / direntSize) = 0 ∨
        buf + read + direntSize * min children.length ((count - read) / direntSize) ≤ userEnd := by
  induction children generalizing read with
  | nil => simp [direntLoop]
  | cons child rest ih =>
    unfold direntLoop
    split
    next fits =>
      have addr : (buf + read) % 2 ^ 64 = buf + read := Nat.mod_eq_of_lt wide
      have more : min (child :: rest).length ((count - read) / direntSize) =
          min rest.length ((count - (read + direntSize)) / direntSize) + 1 := by
        simp only [direntSize, length_cons] at fits ⊢
        omega
      rw [forall_mem_cons, addr, dirent_length, inUserHalf_iff wide, more]
      by_cases room : buf + read + direntSize ≤ userEnd
      · have wide' : buf + (read + direntSize) < 2 ^ 64 := by
          simp only [userEnd] at room
          omega
        rw [ih wide']
        simp only [direntSize] at room ⊢
        omega
      · simp only [direntSize] at room ⊢
        omega
    rename_i full
    have none_left : (count - read) / direntSize = 0 := by
      simp only [direntSize] at full ⊢
      omega
    rw [ih wide, none_left]
    simp

lemma sysGetdents_confined (wide : buf < 2 ^ 64) :
    (c.sysGetdents host fd buf count).1.touched.Confined ↔ 0 ≤ fd ∧ fd < maxFiles ∧
      ∀ file, c.files fd.toNat = some file → (host.fields c.disk file.node).type = .directory →
        if (host.fields c.disk file.node).listsItself then
          let bytes := (host.respond c.disk (.readdir file.node (file.pos % 2 ^ 32) count)).1.2
          bytes = [] ∨ buf + bytes.length ≤ userEnd
        else
          c.entriesLeft host file count = 0 ∨ buf + direntSize * c.entriesLeft host file count ≤ userEnd := by
  by_cases tested : fd < 0 ∨ maxFiles ≤ fd
  · rw [sysGetdents, if_pos tested]
    refine iff_of_false (fun confined => ?_) (by omega)
    have inside := confined.2 fd (mem_singleton_self fd)
    omega
  rw [sysGetdents, if_neg tested]
  have inside := inside_singleton tested
  have bounds : 0 ≤ fd ∧ fd < maxFiles := by omega
  cases there : c.files fd.toNat with
  | none => simp [(returns_silent inside).confined, bounds]
  | some file =>
    dsimp only
    split
    next notDirectory =>
      refine iff_of_true (returns_silent inside).confined ⟨bounds.1, bounds.2, ?_⟩
      rintro file' same directory
      cases same
      exact absurd directory notDirectory
    rename_i isDirectory
    push Not at isDirectory
    split
    next lists =>
      simp only [touched, map_cons, map_nil]
      rw [confined_iff wide inside, length_eq_zero_iff]
      simp [bounds, isDirectory, lists]
    rename_i walks
    have loop := @direntLoop_confined buf count
      ((host.fields c.disk file.node).children.drop (Fs.toInt file.pos).toNat) 0 wide
    simp only [touched, Touched.Confined, forall_mem_map]
    rw [loop, and_iff_left inside]
    simp [bounds, isDirectory, walks, entriesLeft]

lemma ttyIoctl_confined (wide : argp < 2 ^ 64)
    (inside : ∀ i ∈ indices, 0 ≤ i ∧ i < maxFiles) :
    (c.ttyIoctl host caller request argp indices).1.touched.Confined ↔
      (argp ≠ 0 → (request = 0x5401 → argp + termiosSize ≤ userEnd) ∧
        (request = 0x5413 → argp + 8 ≤ userEnd)) := by
  have nothing : (Touched.mk [] indices).Confined := Touched.confined_nil inside
  unfold ttyIoctl
  split
  next null => simp [null, (returns_silent inside).confined]
  rename_i nonzero
  split
  · simp only [touched, map_cons, map_nil, padded_length]
    rw [confined_iff wide inside]
    simp [nonzero, termiosSize]
  · simpa [touched] using nothing
  · simpa [touched] using nothing
  · simpa [touched] using nothing
  · simp only [touched, map_cons, map_nil, length_append, encode_length]
    rw [confined_iff wide inside]
    simp [nonzero]
  next notGet _ _ _ notSize =>
    refine iff_of_true (returns_silent inside).confined fun _ => ?_
    exact ⟨fun get => (notGet get).elim, fun size => (notSize size).elim⟩

lemma sysIoctl_confined (wide : argp < 2 ^ 64) :
    (c.sysIoctl host caller fd request argp).1.touched.Confined ↔
      ∀ file, c.openFile fd = some file → (host.fields c.disk file.node).type = .device →
        (host.fields c.disk file.node).tty = true → argp ≠ 0 →
          (request = 0x5401 → argp + termiosSize ≤ userEnd) ∧ (request = 0x5413 → argp + 8 ≤ userEnd) := by
  unfold sysIoctl openFile
  split
  · simp [returns_nil_silent.confined]
  rename_i tested
  have inside := inside_singleton tested
  cases there : c.files fd.toNat with
  | none => simp [(returns_silent inside).confined]
  | some file =>
    dsimp only
    split
    next terminal =>
      rw [ttyIoctl_confined wide inside]
      simp [terminal]
    rename_i other
    refine iff_of_true (returns_silent inside).confined ?_
    rintro file' same device tty
    cases same
    exact absurd ⟨device, tty⟩ other

lemma vfsePipe_confined {pipefd : Nat} (wide : pipefd < 2 ^ 64) :
    (c.vfsePipe pipefd).1.touched.Confined ↔ pipefd = 0 ∨ pipefd + 8 ≤ userEnd := by
  unfold vfsePipe
  split
  next null => simp [null, returns_nil_silent.confined]
  · simp only [touched, Touched.Confined, map_cons, map_nil, encodeInt_length,
      forall_mem_cons, not_mem_nil, false_implies, implies_true, and_true]
    rw [inUserHalf_iff wide, inUserHalf_iff (Nat.mod_lt _ (by decide))]
    simp only [userEnd]
    omega

lemma vfseGetcwd_confined {size : Nat} (wide : buf < 2 ^ 64) :
    (c.vfseGetcwd buf size).1.touched.Confined ↔ buf = 0 ∨ size = 0 ∨ buf + size ≤ userEnd := by
  unfold vfseGetcwd
  split
  next nothing =>
    refine iff_of_true returns_nil_silent.confined ?_
    rcases nothing with null | empty
    · exact .inl null
    · exact .inr (.inl empty)
  · simp only [touched, map_cons, map_nil, length_append, padded_length, length_singleton]
    rw [confined_iff wide (by simp)]
    omega

/-! ## Calls that compare nodes -/

variable [DecidableEq Node]

lemma sysExecve_silent : (c.sysExecve host caller path).1.Silent := by
  unfold sysExecve
  split
  · exact returns_nil_silent
  dsimp only
  split
  · exact returns_nil_silent
  split
  · exact returns_nil_silent
  split
  · exact returns_nil_silent
  split
  · exact returns_nil_silent
  · exact ⟨rfl, range'_inside le_rfl⟩

lemma ttyIndices_inside (node : Node) : ∀ i ∈ c.ttyIndices host node, 0 ≤ i ∧ i < maxFiles := by
  unfold ttyIndices
  split
  · refine range_inside ?_
    cases found : c.sameNode node with
    | none => exact le_rfl
    | some i => exact mem_range.mp (mem_of_find?_eq_some found)
  · simp

lemma sysRead_confined :
    (c.sysRead host fd buf count).1.touched.Confined ↔
      ∀ file, c.openFile fd = some file → buf ≠ 0 → isUserAddr buf count = true →
        buf + (host.respond c.disk (.read file.node (c.nonblock file.node) count file.pos)).1.2.length ≤
          userEnd := by
  unfold sysRead openFile
  split
  · simp [returns_nil_silent.confined]
  rename_i tested
  split
  next rejected =>
    refine iff_of_true returns_nil_silent.confined fun file _ nonzero user => ?_
    rcases rejected with null | outside
    · exact absurd null nonzero
    · simp [outside] at user
  rename_i accepted
  push Not at accepted
  obtain ⟨nonzero, user⟩ := accepted
  have user : isUserAddr buf count = true := by simpa using user
  have low := (isUserAddr_iff.mp user).1
  have wide : buf < 2 ^ 64 := lt_trans low (by decide)
  cases there : c.files fd.toNat with
  | none => simp [(returns_silent (inside_singleton tested)).confined]
  | some file =>
    have inside : ∀ i ∈ fd :: c.ttyIndices host file.node, 0 ≤ i ∧ i < maxFiles := by
      intro i member
      rcases mem_cons.mp member with rfl | later
      · exact inside_singleton tested _ (mem_singleton_self _)
      · exact ttyIndices_inside file.node i later
    simp only [touched, map_cons, map_nil]
    rw [confined_iff wide inside]
    constructor
    · rintro room file' same - -
      cases same
      omega
    · intro room
      exact .inr (room file rfl nonzero user)

lemma toNat_eq_zero (w : Word) : w.toNat = 0 ↔ w = 0 := (BitVec.toNat_eq (y := 0)).symm

lemma run_confined (call : Call) : (c.run host caller call).1.touched.Confined ↔ call.Fits host c := by
  cases call with
  | «open» path flags => exact iff_of_true sysOpen_silent.confined trivial
  | close fd => exact iff_of_true sysClose_silent.confined trivial
  | read fd buf count =>
    rw [run, sysRead_confined]
    simp only [Fits, ne_eq, toNat_eq_zero]
  | write fd buf count => exact iff_of_true sysWrite_silent.confined trivial
  | writev fd iov iovcnt => exact iff_of_true writev_silent.confined trivial
  | fstat fd buf => exact iff_of_true sysFstat_confined trivial
  | getdents fd buf count => exact sysGetdents_confined buf.isLt
  | ioctl fd request argp =>
    rw [run, sysIoctl_confined argp.isLt]
    simp only [Fits, ne_eq, toNat_eq_zero, BitVec.toNat_eq (n := 64)]
    rfl
  | pipe pipefd =>
    rw [run, vfsePipe_confined pipefd.isLt]
    simp only [Fits, toNat_eq_zero]
  | dup _ | dup2 _ _ | fcntl _ _ _ => exact iff_of_true onVfse_silent.confined trivial
  | chdir path => exact iff_of_true vfseChdir_silent.confined trivial
  | getcwd buf size =>
    rw [run, vfseGetcwd_confined buf.isLt]
    simp only [Fits, toNat_eq_zero]
  | execve path => exact iff_of_true sysExecve_silent.confined trivial

end Context

/-! ## The other calls -/

namespace Moment

lemma confined_of_room {a : Nat} (short : n ≤ 2 ^ 63) (tested : isUserAddr a n = true) :
    (Touched.mk [⟨a, n⟩] []).Confined := by
  have wide : a < 2 ^ 64 := lt_trans (isUserAddr_iff.mp tested).1 (by decide)
  rw [confined_iff wide (by simp)]
  exact .inr (room_of_isUserAddr short tested)

lemma confined_empty : (Touched.mk [] []).Confined := Touched.confined_nil (by simp)

lemma sysSysinfo_confined (info : Nat) : (Touched.mk (sysSysinfo info) []).Confined := by
  unfold sysSysinfo
  split
  · exact confined_empty
  next accepted =>
    push Not at accepted
    exact confined_of_room (by decide) (by simpa using accepted.2)

lemma sysZfilt_confined (code len res : Nat) : (Touched.mk (sysZfilt code len res) []).Confined := by
  unfold sysZfilt
  split
  · exact confined_empty
  split
  · exact confined_empty
  split
  · exact confined_empty
  rename_i tested
  split
  next given =>
    push Not at tested
    exact confined_of_room (by decide) (by simpa using tested given)
  · exact confined_empty

variable {host : Host Node Disk} {caller : Caller} {m : Moment Node Disk}

lemma sysStat_confined (path buf : Nat) : (Touched.mk (m.sysStat host caller path buf) []).Confined := by
  unfold sysStat
  split
  · exact confined_empty
  split
  · exact confined_empty
  rename_i accepted
  push Not at accepted
  split
  · exact confined_empty
  split
  · exact confined_empty
  · exact confined_of_room (by decide) (by simpa using accepted.2)

lemma sysGetrandom_confined {buf buflen : Nat} (wide : buf < 2 ^ 64) :
    (Touched.mk (m.sysGetrandom buf buflen) []).Confined ↔
      (m.seeded = true → buf ≠ 0 → isUserAddr buf buflen = true → buf + buflen ≤ userEnd) := by
  unfold sysGetrandom
  split
  next nothing =>
    refine iff_of_true confined_empty fun _ nonzero user => ?_
    rcases nothing with null | empty
    · exact absurd null nonzero
    · subst empty
      exact room_of_isUserAddr (by decide) user
  rename_i given
  push Not at given
  split
  next rejected => simp [confined_empty, rejected]
  rename_i accepted
  have user : isUserAddr buf buflen = true := by simpa using accepted
  split
  next seeded =>
    rw [confined_iff wide (by simp)]
    simp [seeded, given, user]
  next unseeded => simp [confined_empty, unseeded]

lemma forkIndices_inside : ∀ i ∈ m.forkIndices, 0 ≤ i ∧ i < maxFiles := by
  unfold forkIndices
  split
  · simp
  split
  · exact range_inside le_rfl
  · simp

/-- A status is stored when an exited child is found and the pointer is not NULL. -/
lemma doWait_eq (pid : BitVec 32) (status : Word) :
    m.doWait pid status =
      if (m.system.running.bind (m.system.exitedChild · pid)).isSome = true ∧ status ≠ 0 then
        [⟨status.toNat, 4⟩]
      else [] := by
  unfold doWait System.doWait
  split
  next idle => simp only [idle, Nat.sub_self, take_zero, Option.bind_none, Option.isSome_none,
    Bool.false_eq_true, false_and, if_false, map_nil]
  rename_i parent running
  dsimp only
  rw [running, Option.bind_some]
  split
  next i exited =>
    simp only [exited, Option.isSome_some, true_and, modifyCurrent_statusStores, removeSlot]
    by_cases null : status = 0
    · rw [if_pos null, if_neg (not_not.mpr null), Nat.sub_self]
      rfl
    rw [if_neg null, if_pos null]
    simp only [length_cons, Nat.add_sub_cancel_left, take_succ_cons, take_zero, map_cons, map_nil]
  rename_i exited
  have unstored : ¬ ((none : Option Slot).isSome = true ∧ status ≠ 0) := by simp
  rw [exited, if_neg unstored]
  split
  · rw [modifyCurrent_statusStores, Nat.sub_self, take_zero, map_nil]
  rw [Nat.sub_self, take_zero, map_nil]

lemma doWait_confined (pid : BitVec 32) (status : Word) :
    (Touched.mk (m.doWait pid status) []).Confined ↔
      ((m.system.running.bind (m.system.exitedChild · pid)).isSome = true → status ≠ 0 →
        status.toNat + 4 ≤ userEnd) := by
  rw [doWait_eq]
  split
  next stored =>
    rw [confined_iff status.isLt (by simp)]
    exact ⟨fun room _ _ => room.resolve_left (by decide), fun room => .inr (room stored.1 stored.2)⟩
  next unstored =>
    refine iff_of_true confined_empty fun exited given => ?_
    exact absurd ⟨exited, given⟩ unstored

variable [DecidableEq Node]

/-- For every host, every state and all registers: what the handler stores through its
    arguments lies in the user half, and its indices in the table, if and only if the
    pointers that are not tested leave the room that is needed. -/
theorem syscallHandler_confined_iff (host : Host Node Disk) (caller : Caller)
    (m : Moment Node Disk) (regs : Frame) :
    (m.syscallHandler host caller regs).Confined ↔ m.Checked host (.ofRegs regs) := by
  unfold syscallHandler
  cases Syscall.ofRegs regs with
  | file call => exact Context.run_confined call
  | stat path buf => exact iff_of_true (sysStat_confined path.toNat buf.toNat) trivial
  | fork => exact iff_of_true (confined_nil forkIndices_inside) trivial
  | wait pid status => exact doWait_confined pid status
  | sysinfo info => exact iff_of_true (sysSysinfo_confined info.toNat) trivial
  | getrandom buf buflen =>
    rw [touched, sysGetrandom_confined buf.isLt]
    simp only [Checked, ne_eq, Context.toNat_eq_zero]
  | zfilt code len res => exact iff_of_true (sysZfilt_confined _ _ _) trivial
  | other => exact iff_of_true confined_empty trivial

end Moment

/-! ## Pointers that are not tested -/

/-- A process that has just been started, with a seeded generator. -/
def startMoment : Moment Unit Unit where
  context := ⟨fun _ => none, 0, vfseInit, ()⟩
  system := boot 0 0 0 0 0 0
  seeded := true

def clearCaller : Caller := ⟨fun _ => 0, []⟩

/-- A system call with its number and its first two arguments. -/
def callRegs (num arg1 arg2 : Word) : Frame :=
  { Kernel.zeroFrame with rax := num, rdi := arg1, rsi := arg2 }

/-- `pipe` stores at any address, `getrandom` accepts a length with which the end wraps
    around, and `getdents` uses any index. -/
theorem untested_arguments_escape :
    ¬ (startMoment.syscallHandler emptyHost clearCaller (callRegs 22 0xFFFF800000000000 0)).Confined ∧
    ¬ (startMoment.syscallHandler emptyHost clearCaller
        (callRegs 318 0x1000 0xFFFFFFFFFFFFF000)).Confined ∧
    ¬ (startMoment.syscallHandler emptyHost clearCaller (callRegs 217 32 0)).Confined := by
  refine ⟨fun confined => ?_, fun confined => ?_, fun confined => ?_⟩
  · have stored := confined.1 ⟨0xFFFF800000000000, 4⟩ (mem_cons_self ..) 0 (by decide)
    exact absurd stored (by decide)
  · have stored := confined.1 ⟨0x1000, 0xFFFFFFFFFFFFF000⟩ (mem_cons_self ..) 0x800000000000 (by decide)
    exact absurd stored (by decide)
  · have used := confined.2 32 (mem_singleton_self _)
    exact absurd used.2 (by decide)

end Znu.Files
