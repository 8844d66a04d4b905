import Znu.Vfs.Lookup
import Znu.Files.Pointers

/-! # Paths of system calls

The system calls over the tree of nodes. A user's path is cut to 255 bytes, then joined to
the working directory in a buffer of 4096, and each component is cut to 127: the node that
is opened has the full names only if all this cuts off nothing but slashes. `stat` and
`spawn` do not join the path to the working directory at all.
-/

namespace Znu.Vfs

open Lib List Option Vfs.Tree
open Files

variable {Volume : Type}

section

variable (fat : FatFs Volume)

namespace Fs

variable (fs : Fs Volume)

def memVfsCreate (parent : Nat) (name : List UInt8) : Option Nat × Fs Volume :=
  if (fs.tree.info parent).type ≠ .directory then (none, fs) else
  match fs.tree.vfsCreateNode name .file with
  | none => (none, fs)
  | some (node, tree) => (some node, { fs with tree := tree.vfsAddChild parent node })

def nodeFields (node : Nat) : NodeFields :=
  let info := fs.tree.info node
  { type := info.type
    size := info.size
    uid := info.uid
    gid := info.gid
    creates := info.ops = .mem
    listsItself := info.isMountpoint && info.ops == .fat32
    tty := info.tty
    children := (fs.tree.children node).map fun child =>
      ⟨(fs.tree.info child).name, (fs.tree.info child).type, (fs.tree.info child).size⟩ }

end Fs

/-- The tree answers what it is asked, and the drivers answer the rest. -/
def vfsHost (drivers : Host Nat (Fs Volume)) : Host Nat (Fs Volume) where
  respond
    | fs, .pathToNode path => fs.vfsPathToNode fat path
    | fs, .fields node => (fs.nodeFields node, fs)
    | fs, .create parent name => fs.memVfsCreate parent name
    | fs, q => drivers.respond fs q
  load := drivers.load

end

/-! ## The names of a path -/

/-- The string from an address on, up to the zero byte. -/
def stringAt (memory : Lib.Bytes) : Nat → List UInt8 → Prop
  | addr, [] => memory addr = 0
  | addr, b :: bytes => memory addr = b ∧ b ≠ 0 ∧ stringAt memory (addr + 1) bytes

variable {addr : Nat} {dir name string kpath cwd : List UInt8} {memory : Bytes} {parts : List (List UInt8)}

lemma text_of_stringAt
    (there : stringAt memory addr string) (n : Nat) : text memory addr n = string.take n := by
  induction n generalizing addr string with
  | zero => rfl
  | succ n ih =>
    cases string with
    | nil =>
      have zero : memory addr = 0 := there
      rw [text, if_pos zero]
      rfl
    | cons b rest =>
      obtain ⟨here, nonzero, later⟩ := there
      rw [text, here, if_neg nonzero, ih later, take_succ_cons]

/-- The names a path stands for in a working directory. -/
def fullNames (cwd path : List UInt8) : List (List UInt8) :=
  if path.head? = some slash then components path else components cwd ++ components path

/-- What is before the path in the buffer. -/
def joint (cwd path : List UInt8) : List UInt8 :=
  if path.head? = some slash then [] else
  if cwd.getLast? = some slash then cwd else cwd ++ [slash]

/-- How many bytes of the user's path come into the buffer. -/
def room (cwd path : List UInt8) : Nat := min 255 (4095 - (joint cwd path).length)

/-- Nothing but slashes is cut off the path, and nothing off its components. If the working
    directory fills the buffer, a relative path is not copied, and what is left on the
    stack is taken for it. -/
def Kept (caller : Caller) (cwd path : List UInt8) : Prop :=
  if path.head? ≠ some slash ∧ 4095 ≤ cwd.length then
    cut (components caller.stack) = fullNames cwd path
  else
    (∀ b ∈ path.drop (room cwd path), b = slash) ∧ ∀ part ∈ fullNames cwd path, part.length ≤ 127

variable {path : List UInt8}

lemma copyPath_take {n : Nat}
    (string : stringAt memory addr path) (copied : copyPath memory addr n = some kpath) :
    kpath = path.take n := by
  induction n generalizing addr path kpath with
  | zero =>
    cases copied
    rfl
  | succ n ih =>
    rw [copyPath] at copied
    split at copied
    · cases path with
      | nil =>
        have zero : memory addr = 0 := string
        rw [if_pos zero] at copied
        cases copied
        rfl
      | cons b rest =>
        obtain ⟨here, nonzero, later⟩ := string
        rw [here, if_neg nonzero] at copied
        obtain ⟨tail, copied', rfl⟩ := map_eq_some_iff.mp copied
        rw [ih later copied', take_succ_cons]
    · cases copied

lemma fullNames_eq (cwd path : List UInt8) : fullNames cwd path = components (joint cwd path ++ path) := by
  unfold fullNames joint
  split
  · rfl
  split
  next slashed =>
    obtain ⟨before, rfl⟩ : ∃ before, cwd = before ++ [slash] := by
      obtain ⟨before, same⟩ := getLast?_eq_some_iff.mp slashed
      exact ⟨before, same⟩
    have trailing : fields slash (before ++ [slash]) = fields slash before :=
      fields_append_seps before (by simp)
    rw [components, components, components, trailing, append_assoc, singleton_append, fields_append]
  · rw [components, components, components, append_assoc, singleton_append, fields_append]

lemma resolve_eq (absolute : cwd.head? = some slash)
    (fits : ¬ (path.head? ≠ some slash ∧ 4095 ≤ cwd.length)) :
    vfseResolvePath cwd (path.take 255) = some (joint cwd path ++ path.take (room cwd path)) := by
  have head : (path.take 255).head? = path.head? := by cases path <;> rfl
  have nonempty : cwd ≠ [] := by
    rintro rfl
    cases absolute
  unfold vfseResolvePath joint room joint
  rw [head]
  split
  · simp [take_take]
  rename_i relative
  have short : ¬ 4095 ≤ cwd.length := fun long => fits ⟨relative, long⟩
  rw [if_neg short]
  dsimp only
  rw [take_take, Nat.min_comm]

/-- The names that the kernel looks for are the full names. -/
lemma kept_iff {Node Disk : Type} (caller : Caller) (c : Context Node Disk)
    (absolute : c.vfse.cwd.head? = some slash) :
    cut (components (c.abspath caller (path.take 255))) = fullNames c.vfse.cwd path ↔
      Kept caller c.vfse.cwd path := by
  unfold Kept
  split
  next overflow =>
    have head : (path.take 255).head? = path.head? := by cases path <;> rfl
    have nonempty : c.vfse.cwd ≠ [] := by
      intro empty
      rw [empty] at absolute
      cases absolute
    have fails : vfseResolvePath c.vfse.cwd (path.take 255) = none := by
      rw [vfseResolvePath, head, if_neg overflow.1, if_neg nonempty, if_pos overflow.2]
    rw [Context.abspath, fails, getD_none]
  next fits =>
    rw [Context.abspath, resolve_eq absolute fits, getD_some, fullNames_eq]
    exact fields_cut ..

/-! ## What is found has the cut names -/

lemma lookup_named {t : Tree} {node : Nat} (found : Fs.lookup t path = some node) :
    t.Named (cut (components path)) node := by
  unfold Fs.lookup at found
  split at found
  · exact chain_of_find found
  cases found

lemma cut_eq_self (short : ∀ part ∈ parts, part.length ≤ 127) : cut parts = parts :=
  map_congr_left (fun part member => take_of_length_le (short part member)) |>.trans (map_id _)

lemma length_of_cut_eq_self (same : cut parts = parts) : ∀ part ∈ parts, part.length ≤ 127 := by
  intro part member
  rw [← same] at member
  obtain ⟨whole, -, rfl⟩ := mem_map.mp member
  exact length_take_le 127 whole

lemma lookup_exact_iff (t : Tree) (absolute : path.head? = some slash) :
    (∀ node, Fs.lookup t path = some node → t.Named (components path) node) ↔
      (∀ part ∈ components path, part.length ≤ 127) ∨ t.find 0 (cut (components path)) = none := by
  have lookup : Fs.lookup t path = t.find 0 (cut (components path)) := if_pos absolute
  constructor
  · intro exact_
    cases found : t.find 0 (cut (components path)) with
    | none => exact .inr rfl
    | some node =>
      rw [lookup] at exact_
      have named := exact_ node found
      exact .inl (length_of_cut_eq_self (Tree.Named.unique (chain_of_find found) named))
  · rintro (short | missing) node found
    · have named := lookup_named found
      rwa [cut_eq_self short] at named
    · rw [lookup, missing] at found
      cases found

/-- The parts of a path at its last slash. -/
lemma splitPath_some (split : splitPath path = some (dir, name)) :
    path = dir ++ slash :: name ∧ slash ∉ name := by
  unfold splitPath at split
  split at split
  next member =>
    cases split
    have free : slash ∉ (path.reverse.takeWhile (· ≠ slash)).reverse := fun inside => by
      simpa using mem_takeWhile_imp (mem_reverse.mp inside)
    refine ⟨?_, free⟩
    have whole := takeWhile_append_dropWhile (p := fun b => decide (b ≠ slash)) (l := path.reverse)
    cases rest : path.reverse.dropWhile (· ≠ slash) with
    | nil =>
      rw [rest, append_nil] at whole
      rw [whole, reverse_reverse] at free
      exact absurd member free
    | cons b rest' =>
      have stop : b = slash := by
        have head := head?_dropWhile_not (fun b => decide (b ≠ slash)) path.reverse
        rw [rest] at head
        simpa using head
      rw [rest, stop] at whole
      have parts := congrArg reverse whole
      rw [reverse_append, reverse_reverse, reverse_cons, append_assoc, singleton_append] at parts
      have length := congrArg length parts
      rw [length_append, length_cons] at length
      have before : path.length - (path.reverse.takeWhile (· ≠ slash)).reverse.length - 1 =
          rest'.reverse.length := by omega
      have taken : path.take rest'.reverse.length = rest'.reverse :=
        (congrArg (take _) parts.symm).trans take_left
      rw [before, taken]
      exact parts.symm
  · cases split

lemma splitPath_absolute (absolute : path.head? = some slash) :
    ∃ dir name, splitPath path = some (dir, name) := by
  have member : slash ∈ path := mem_of_head? absolute
  exact ⟨_, _, if_pos member⟩

lemma components_parentPath (dir : List UInt8) : components (parentPath dir) = components dir := by
  unfold parentPath
  split
  next empty =>
    rw [empty]
    rfl
  · rfl

lemma components_split (split : splitPath path = some (dir, name)) :
    components path = components dir ++ (if name = [] then [] else [name]) := by
  obtain ⟨rfl, free⟩ := splitPath_some split
  rw [components, fields_append]
  by_cases empty : name = []
  · rw [if_pos empty, empty, fields_nil]
    rfl
  · rw [if_neg empty, fields_of_not_mem empty free]
    rfl

section

variable {fat : FatFs Volume} {drivers : Host Nat (Fs Volume)}

variable {c : Context Nat (Fs Volume)} {caller : Caller} {fs fs' : Fs Volume} {node path : Nat}

lemma memVfsCreate_some {parent : Nat}
    (created : (fs.memVfsCreate parent name).1 = some node) :
    (fs.tree.info parent).type = .directory ∧ name ≠ [] ∧ node = fs.tree.made ∧
      (fs.memVfsCreate parent name).2.tree = fs.tree.insert parent (.blank name .file) := by
  unfold Fs.memVfsCreate vfsCreateNode at created ⊢
  split at created
  · cases created
  rename_i directory
  by_cases empty : name = []
  · simp [empty] at created
  simp only [empty, if_false] at created ⊢
  cases created
  refine ⟨not_not.mp directory, empty, rfl, ?_⟩
  rw [if_neg directory]
  rfl

variable {flags : BitVec 32}

lemma findOrCreate_named (unmounted : Fs.Unmounted fs.tree)
    {path : List UInt8}
    (found : (vfsHost fat drivers).findOrCreate fs path flags = (.ok node, fs')) :
    fs'.tree.Named (cut (components path)) node := by
  have look : ∀ path, (vfsHost fat drivers).respond fs (.pathToNode path) = (Fs.lookup fs.tree path, fs) :=
    Fs.vfsPathToNode_unmounted unmounted
  unfold Host.findOrCreate at found
  rw [look] at found
  dsimp only at found
  split at found
  next here =>
    cases found
    exact lookup_named here
  · split at found
    · cases found
    split at found
    · cases found
    rename_i dir name split
    obtain ⟨rfl, -⟩ := splitPath_some split
    rw [look] at found
    split at found
    · cases found
    rename_i parent there
    split at found
    · cases found
    split at found
    · cases found
    rename_i new made
    cases found
    obtain ⟨directory, nonempty, rfl, tree⟩ := memVfsCreate_some made
    have nonempty : name ≠ [] := fun empty => nonempty (by rw [empty]; rfl)
    have parts : cut (components (dir ++ slash :: name)) =
        cut (components (parentPath dir)) ++ [(Info.blank (name.take 127) .file).name] := by
      rw [components_parentPath, components_split split, if_neg nonempty, cut,
        map_append, Info.blank_name, take_take, Nat.min_self]
      rfl
    have found : fs.tree.find 0 (cut (components (parentPath dir))) = some parent := by
      unfold Fs.lookup at there
      split at there
      · exact there
      cases there
    have created := find_insert (.blank (name.take 127) .file) found directory
      (cut (components (dir ++ slash :: name)))
    rw [parts, if_pos (prefix_refl _), if_pos rfl] at created
    rw [parts]
    refine chain_of_find ?_
    rw [← created]
    exact congrArg (find · 0 _) tree

/-- If `open` succeeds, the new descriptor is for the node with these names. -/
def OpensNamed (host : Host Nat (Fs Volume)) (caller : Caller) (c : Context Nat (Fs Volume)) (path : Nat)
    (flags : BitVec 32) (names : List (List UInt8)) : Prop :=
  ∀ ret : Int, 0 ≤ ret → (c.sysOpen host caller path flags).1.ret = some ret →
    ∃ file, (c.sysOpen host caller path flags).2.files ret.toNat = some file ∧
      (c.sysOpen host caller path flags).2.disk.tree.Named names file.node

lemma opensNamed_iff {host : Host Nat (Fs Volume)}
    {names : List (List UInt8)} :
    OpensNamed host caller c path flags names ↔
      ∀ i node disk, Context.Opens host caller c path flags i node disk → disk.tree.Named names node := by
  constructor
  · intro named i node disk opens
    have result := Context.sysOpen_of_opens opens
    rw [OpensNamed, result] at named
    obtain ⟨file, there, named⟩ := named i (Int.natCast_nonneg i) rfl
    rw [Int.toNat_natCast] at there
    simp only [Context.setFile, Function.update_self] at there
    cases there
    exact named
  · intro named ret positive returned
    rcases Context.sysOpen_cases host caller c path flags with
      ⟨i, node, disk, opens⟩ | ⟨code, indices, disk, negative, result⟩
    · rw [Context.sysOpen_of_opens opens] at returned ⊢
      cases returned
      refine ⟨⟨node, 0, flags, c.opened⟩, ?_, named i node disk opens⟩
      simp [Context.setFile]
    · rw [result] at returned
      cases returned
      omega

lemma opensNamed_full_iff
    {user : List UInt8} (unmounted : Fs.Unmounted c.disk.tree)
    (absolute : c.vfse.cwd.head? = some slash) (string : stringAt caller.memory path user) :
    OpensNamed (vfsHost fat drivers) caller c path flags (fullNames c.vfse.cwd user) ↔
      Kept caller c.vfse.cwd user ∨
        ¬ ∃ i node disk, Context.Opens (vfsHost fat drivers) caller c path flags i node disk := by
  have names : ∀ i node disk, Context.Opens (vfsHost fat drivers) caller c path flags i node disk →
      disk.tree.Named (cut (components (c.abspath caller (user.take 255)))) node := by
    intro i node disk opens
    obtain ⟨kpath, copied, -, target⟩ := opens.target
    have named := findOrCreate_named unmounted target
    rwa [copyPath_take string copied] at named
  rw [opensNamed_iff, ← kept_iff caller c absolute]
  constructor
  · intro named
    by_cases opens : ∃ i node disk, Context.Opens (vfsHost fat drivers) caller c path flags i node disk
    · obtain ⟨i, node, disk, opens⟩ := opens
      exact .inl (Tree.Named.unique (names i node disk opens) (named i node disk opens))
    · exact .inr opens
  · rintro (same | fails) i node disk opens
    · rw [← same]
      exact names i node disk opens
    · exact absurd ⟨i, node, disk, opens⟩ fails

end

/-- In a tree without mountpoints, a path of the kernel finds the node with its components
    as names if and only if no component is cut (or nothing has the cut names), and `open`
    opens the node with the full names of the user's path if and only if nothing but
    slashes is cut off (or it fails). -/
theorem names_exact_iff {Volume : Type} (fat : FatFs Volume) (drivers : Host Nat (Fs Volume))
    (fs : Fs Volume) (unmounted : Fs.Unmounted fs.tree) :
    (∀ path : List UInt8, path.head? = some slash →
      ((∀ node, (fs.vfsPathToNode fat path).1 = some node → fs.tree.Named (components path) node) ↔
        (∀ part ∈ components path, part.length ≤ 127) ∨
          fs.tree.find 0 (cut (components path)) = none)) ∧
    ∀ (caller : Caller) (c : Context Nat (Fs Volume)) (path : Nat) (flags : BitVec 32)
      (user : List UInt8), c.disk = fs → c.vfse.cwd.head? = some slash →
      stringAt caller.memory path user →
      (OpensNamed (vfsHost fat drivers) caller c path flags (fullNames c.vfse.cwd user) ↔
        Kept caller c.vfse.cwd user ∨
          ¬ ∃ i node disk, Context.Opens (vfsHost fat drivers) caller c path flags i node disk) := by
  refine ⟨fun path absolute => ?_, fun caller c path flags user same absolute string => ?_⟩
  · rw [Fs.vfsPathToNode_unmounted unmounted]
    exact lookup_exact_iff fs.tree absolute
  · exact opensNamed_full_iff (same ▸ unmounted) absolute string

/-! ## A name of 127 bytes -/

def noDrivers {Volume : Type} : Host Nat (Fs Volume) where
  respond
    | fs, .pathToNode _ => (none, fs)
    | fs, .fields node => (fs.nodeFields node, fs)
    | fs, .create _ _ => (none, fs)
    | fs, .read _ _ _ _ => ((0, []), fs)
    | fs, .write _ _ _ _ _ => (0, fs)
    | fs, .readdir _ _ _ => ((0, []), fs)
    | fs, .termios => ([], fs)
    | fs, .setTermios _ => ((), fs)
  load _ := none

/-- The only file has a name of 127 bytes. -/
def longFs : Fs Unit where
  tree := root.insert 0 (.blank (List.replicate 127 97) .file)
  mounted := false
  volume := ()

/-- A path with one byte more. -/
def longPath : List UInt8 := slash :: List.replicate 128 97

lemma longFs_unmounted : Fs.Unmounted longFs.tree := by
  change Fs.Unmounted (root.insert 0 _)
  apply Fs.root_unmounted.insert
  rfl

lemma longPath_components : components longPath = [replicate 128 97] := by
  rw [components, longPath, fields_cons_sep, fields_of_not_mem (by simp) (by decide +kernel)]

theorem root_path_exact :
    (longFs.vfsPathToNode noFat [slash]).1 = some 0 ∧ longFs.tree.Named (components [slash]) 0 := by
  have named := ((names_exact_iff noFat noDrivers longFs longFs_unmounted).1 [slash] rfl).mpr
    (.inl (by simp [components]))
  exact ⟨rfl, named 0 rfl⟩

def longCaller : Caller :=
  ⟨fun addr => if addr = 4096 then slash else if 4096 < addr ∧ addr ≤ 4224 then 97 else 0, []⟩

def longContext : Context Nat (Fs Unit) := ⟨fun _ => none, 0, vfseInit, longFs⟩

/-- Both the lookup and `open` take the file for a longer name. -/
theorem longer_name_found :
    ¬ (∀ node, (longFs.vfsPathToNode noFat longPath).1 = some node →
        longFs.tree.Named (components longPath) node) ∧
    ¬ OpensNamed (vfsHost noFat noDrivers) longCaller longContext 4096 0
        (fullNames longContext.vfse.cwd longPath) := by
  have other : ∀ t : Tree, t.find 0 [replicate 127 97] = some 1 →
      ¬ t.Named (components longPath) 1 := by
    intro t found named
    have same := Tree.Named.unique (chain_of_find found) named
    rw [longPath_components] at same
    have lengths := congrArg (map length) same
    simp at lengths
  refine ⟨fun found => ?_, fun opens => ?_⟩
  · exact other longFs.tree (by decide +kernel) (found 1 (by decide +kernel))
  obtain ⟨file, there, named⟩ := opens 3 (by decide) (by decide +kernel)
  have opened : ((longContext.sysOpen (vfsHost noFat noDrivers) longCaller 4096 0).2.files
      (Int.toNat 3)).map VfsFile.node = some 1 := by decide +kernel
  rw [there] at opened
  rw [some.inj opened] at named
  exact other _ (by decide +kernel) named

/-! ## `stat`, `spawn` and `execve` -/

section

variable {Node Disk : Type} (host : Host Node Disk) (caller : Caller) (c : Context Node Disk)

/-- The node with which `sys_open` goes on if `O_CREAT` is not given. -/
def openTarget (path : Nat) : Option Node :=
  if path = 0 ∨ isUserAddr path 1 = false then none else
  match copyPath caller.memory path 255 with
  | none => none
  | some kpath =>
    if kpath = [] then none else (host.respond c.disk (.pathToNode (c.abspath caller kpath))).1

/-- The node of which `sys_stat` copies the fields. -/
def statTarget (path buf : Nat) : Option Node :=
  if path = 0 ∨ isUserAddr path 1 = false then none else
  if buf = 0 ∨ isUserAddr buf 80 = false then none else
  match copyPath caller.memory path 255 with
  | none => none
  | some kpath => (host.respond c.disk (.pathToNode kpath)).1

/-- The node that `sys_spawn` loads if it is a file. -/
def spawnTarget (path : Nat) : Option Node :=
  if path = 0 ∨ isUserAddr path 1 = false then none else
  match copyPath caller.memory path 255 with
  | none => none
  | some kpath => (host.respond c.disk (.pathToNode kpath)).1

/-- The node that `sys_execve` loads if it is a file. -/
def execTarget (path : Nat) : Option Node :=
  match copyPath caller.memory path 255 with
  | none => none
  | some kpath => (host.respond c.disk (.pathToNode (c.abspath caller kpath))).1

variable {host caller c}

/-- `open` goes on with the target, and fails without one. -/
lemma sysOpen_target (path : Nat) (flags : BitVec 32) (existing : flags &&& oCreat = 0) :
    match openTarget host caller c path with
    | some node => ∃ disk, c.sysOpen host caller path flags = { c with disk := disk }.openNode host node flags
    | none => ∃ disk, ∃ code : Int, 0 < code ∧
        c.sysOpen host caller path flags = { c with disk := disk }.returns [] (-code) := by
  unfold openTarget Context.sysOpen Host.findOrCreate
  split_ifs with bad
  · exact ⟨c.disk, efault, by decide, rfl⟩
  cases copyPath caller.memory path 255 with
  | none => exact ⟨c.disk, efault, by decide, rfl⟩
  | some kpath =>
    dsimp only
    split_ifs with empty
    · exact ⟨c.disk, enoent, by decide, rfl⟩
    cases found : (host.respond c.disk (.pathToNode (c.abspath caller kpath))).1 with
    | none => exact ⟨_, enoent, by decide, rfl⟩
    | some node => exact ⟨_, rfl⟩

/-- `stat` stores exactly if it has a target. -/
lemma sysStat_target (m : Moment Node Disk) (path buf : Nat) :
    m.sysStat host caller path buf =
      (statTarget host caller m.context path buf).elim [] fun _ => [⟨buf, statSize⟩] := by
  unfold statTarget Moment.sysStat
  rw [show statSize = 80 from rfl]
  split_ifs
  · rfl
  · rfl
  cases copyPath caller.memory path 255 with
  | none => rfl
  | some kpath =>
    obtain ⟨target, isTarget⟩ : ∃ target : Option Node,
      (host.respond m.context.disk (.pathToNode kpath)).1 = target := ⟨_, rfl⟩
    simp only [isTarget]
    cases target <;> rfl

/-- `execve` fails without a target, and with one that is no file. -/
lemma sysExecve_target [DecidableEq Node] (path : Nat)
    (refused : ∀ node, execTarget host caller c path = some node →
      ∀ disk, (host.fields disk node).type ≠ .file) :
    ∃ disk, c.sysExecve host caller path = { c with disk := disk }.returns [] (-1) := by
  unfold execTarget at refused
  unfold Context.sysExecve
  cases copied : copyPath caller.memory path 255 with
  | none => exact ⟨c.disk, rfl⟩
  | some kpath =>
    rw [copied] at refused
    dsimp only at refused ⊢
    cases found : (host.respond c.disk (.pathToNode (c.abspath caller kpath))).1 with
    | none => exact ⟨_, rfl⟩
    | some node =>
      dsimp only
      rw [if_pos (refused node found _)]
      exact ⟨_, rfl⟩

lemma copyPath_of_stringAt {n : Nat}
    (string : stringAt memory addr path) (inside : addr + path.length < userEnd)
    (short : path.length ≤ n) :
    copyPath memory addr n = some path := by
  induction n generalizing addr path with
  | zero =>
    rw [length_eq_zero_iff.mp (Nat.le_zero.mp short)]
    rfl
  | succ n ih =>
    have user : isUserAddr addr 1 = true := isUserAddr_byte (by omega)
    rw [copyPath, if_pos user]
    cases path with
    | nil =>
      have zero : memory addr = 0 := string
      rw [if_pos zero]
    | cons b rest =>
      obtain ⟨here, nonzero, later⟩ := string
      rw [length_cons] at inside short
      rw [here, if_neg nonzero, ih later (by omega) (by omega)]
      rfl

end

/-- All four calls find the same node (or none) if and only if the path is absolute, or
    there is nothing under it in the working directory. -/
theorem targets_agree_iff {Volume : Type} (fat : FatFs Volume) (drivers : Host Nat (Fs Volume))
    (caller : Caller) (c : Context Nat (Fs Volume)) (path buf : Nat) (user : List UInt8)
    (string : stringAt caller.memory path user) (short : user.length ≤ 255) (nonzero : path ≠ 0)
    (inside : path + user.length < userEnd) (target : buf ≠ 0) (room : isUserAddr buf 80 = true) :
    (statTarget (vfsHost fat drivers) caller c path buf =
        openTarget (vfsHost fat drivers) caller c path ∧
      spawnTarget (vfsHost fat drivers) caller c path = openTarget (vfsHost fat drivers) caller c path ∧
      execTarget (vfsHost fat drivers) caller c path = openTarget (vfsHost fat drivers) caller c path) ↔
    user.head? = some slash ∨ (c.disk.vfsPathToNode fat (c.abspath caller user)).1 = none := by
  have copied := copyPath_of_stringAt string inside short
  have accepted : ¬ (path = 0 ∨ isUserAddr path 1 = false) := by
    simp [nonzero, isUserAddr_byte (Nat.lt_of_le_of_lt (Nat.le_add_right ..) inside)]
  have buffer : ¬ (buf = 0 ∨ isUserAddr buf 80 = false) := by simp [target, room]
  have stat :
      statTarget (vfsHost fat drivers) caller c path buf = (c.disk.vfsPathToNode fat user).1 := by
    rw [statTarget, if_neg accepted, if_neg buffer, copied]
    rfl
  have spawn : spawnTarget (vfsHost fat drivers) caller c path = (c.disk.vfsPathToNode fat user).1 := by
    rw [spawnTarget, if_neg accepted, copied]
    rfl
  have exec : execTarget (vfsHost fat drivers) caller c path =
      (c.disk.vfsPathToNode fat (c.abspath caller user)).1 := by
    rw [execTarget, copied]
    rfl
  have opens : openTarget (vfsHost fat drivers) caller c path =
      if user = [] then none else (c.disk.vfsPathToNode fat (c.abspath caller user)).1 := by
    rw [openTarget, if_neg accepted, copied]
    rfl
  rw [stat, spawn, exec, opens]
  by_cases absolute : user.head? = some slash
  · have same : c.abspath caller user = user := by
      rw [Context.abspath, vfseResolvePath, if_pos absolute, getD_some]
      exact take_of_length_le (by omega)
    have nonempty : user ≠ [] := by
      rintro rfl
      cases absolute
    simp [same, nonempty, absolute]
  have raw : (c.disk.vfsPathToNode fat user).1 = none := by
    rw [Fs.vfsPathToNode_eq, if_neg absolute]
  rw [raw]
  by_cases empty : user = []
  · simp [empty]
  rw [if_neg empty]
  simp only [absolute, false_or, and_true, and_self]
  exact eq_comm

/-! ## A relative path -/

def shortFs : Fs Unit := ⟨root.insert 0 (.blank [97] .file), false, ()⟩

def shortContext : Context Nat (Fs Unit) := ⟨fun _ => none, 0, vfseInit, shortFs⟩

/-- The strings `a` and `/a` are at 4096 and 4100. -/
def shortCaller : Caller :=
  ⟨fun addr => if addr = 4096 ∨ addr = 4101 then 97 else if addr = 4100 then slash else 0, []⟩

theorem absolute_path_agrees :
    statTarget (vfsHost noFat noDrivers) shortCaller shortContext 4100 8192 =
        openTarget (vfsHost noFat noDrivers) shortCaller shortContext 4100 ∧
      spawnTarget (vfsHost noFat noDrivers) shortCaller shortContext 4100 =
        openTarget (vfsHost noFat noDrivers) shortCaller shortContext 4100 ∧
      execTarget (vfsHost noFat noDrivers) shortCaller shortContext 4100 =
        openTarget (vfsHost noFat noDrivers) shortCaller shortContext 4100 :=
  (targets_agree_iff noFat noDrivers shortCaller shortContext 4100 8192 [slash, 97]
    ⟨rfl, by decide, rfl, by decide, rfl⟩ (by decide) (by decide) (by decide) (by decide)
    (by decide)).mpr (.inl rfl)

/-- In the root directory `open` and `execve` find the file `a` and `stat` and `spawn` do
    not. -/
theorem relative_path_differs :
    openTarget (vfsHost noFat noDrivers) shortCaller shortContext 4096 = some 1 ∧
      execTarget (vfsHost noFat noDrivers) shortCaller shortContext 4096 = some 1 ∧
      statTarget (vfsHost noFat noDrivers) shortCaller shortContext 4096 8192 = none ∧
      spawnTarget (vfsHost noFat noDrivers) shortCaller shortContext 4096 = none := by
  decide +kernel

end Znu.Vfs
