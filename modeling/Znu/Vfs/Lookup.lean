import Znu.Vfs.Tree

/-! # Looking up a path

`vfs_path_to_node` walks from the root, a component at a time, each cut to 127 bytes. At a
mountpoint it asks the driver first, which makes a new node for what FatFs finds, and
creates a file for what it does not find. Without mountpoints the walk is a search in the
tree for the cut components.
-/

namespace Znu.Vfs

open Lib List Vfs.Tree Function
open Files (NodeType slash)

/-! ## FatFs -/

/-- The fields of `FILINFO` that are read. -/
structure FilInfo where
  isDir : Bool
  size : Nat

/-- FatFs as far as the driver uses it. -/
structure FatFs (Volume : Type) where
  /-- `f_stat`, if it returns `FR_OK` -/
  stat : Volume → List UInt8 → Option FilInfo
  /-- `f_open` with `FA_READ | FA_WRITE` returns `FR_OK` -/
  opens : Volume → List UInt8 → Bool
  /-- `f_opendir` returns `FR_OK` -/
  opendir : Volume → List UInt8 → Bool
  /-- `f_open` with `FA_CREATE_ALWAYS | FA_READ | FA_WRITE`, if it returns `FR_OK` -/
  create : Volume → List UInt8 → Option Volume
  /-- a file that has been created is there -/
  created : ∀ volume volume' path, create volume path = some volume' → stat volume' path ≠ none

structure Fs (Volume : Type) where
  tree : Tree
  /-- `g_mounted` -/
  mounted : Bool
  volume : Volume

/-- `"0:/"` -/
def drive : List UInt8 := [48, 58, slash]

variable {Volume : Type} (fat : FatFs Volume)

def Info.onDisk (name : List UInt8) (type : NodeType) (size : Nat) : Info :=
  { Info.blank name type with size := size, ops := .fat32 }

namespace Fs

variable (fs : Fs Volume)

/-- The node is not linked yet. -/
def fat32VfsFind (name : List UInt8) : Option Nat × Fs Volume :=
  if fs.mounted = false then (none, fs) else
  let path := drive ++ name
  match fat.stat fs.volume path with
  | some fno =>
    let type : NodeType := if fno.isDir then .directory else .file
    if name = [] then (none, fs) else
    if (if fno.isDir then fat.opendir fs.volume path else fat.opens fs.volume path) then
      (some fs.tree.made, { fs with tree := fs.tree.alloc (.onDisk name type fno.size) })
    else (none, fs)
  | none =>
    match fat.create fs.volume path with
    | none => (none, fs)
    | some volume =>
      if name = [] then (none, { fs with volume := volume }) else
      (some fs.tree.made, { fs with
        tree := fs.tree.alloc (.onDisk name .file 0)
        volume := volume })

/-- `is_mountpoint && ops && ops->find_node` -/
def asks (node : Nat) : Bool :=
  (fs.tree.info node).isMountpoint && (fs.tree.info node).ops == .fat32

/-- One component. -/
def walkStep (curr : Nat) (part : List UInt8) : Option Nat × Fs Volume :=
  if fs.asks curr then
    match fs.fat32VfsFind fat part with
    | (some node, fs) => (some node, { fs with tree := fs.tree.vfsAddChild curr node })
    | (none, fs) => (fs.tree.vfsFindChild curr part, fs)
  else (fs.tree.vfsFindChild curr part, fs)

/-- The loop, from the byte `ptr` points to; it comes round at most once for each byte. -/
def walkLoop : Nat → Fs Volume → Nat → List UInt8 → Option Nat × Fs Volume
  | 0, fs, curr, _ => (some curr, fs)
  | fuel + 1, fs, curr, ptr =>
    match ptr.dropWhile (· = slash) with
    | [] => (some curr, fs)
    | b :: rest =>
      match fs.walkStep fat curr (((b :: rest).takeWhile (· ≠ slash)).take 127) with
      | (none, fs) => (none, fs)
      | (some next, fs) => walkLoop fuel fs next ((b :: rest).dropWhile (· ≠ slash))

def vfsPathToNode (path : List UInt8) : Option Nat × Fs Volume :=
  match path with
  | [] => (none, fs)
  | b :: ptr => if b ≠ slash then (none, fs) else walkLoop fat ptr.length fs 0 ptr

end Fs

/-! ## The loop comes through the components -/

def components (path : List UInt8) : List (List UInt8) := fields slash path

def cut (parts : List (List UInt8)) : List (List UInt8) := parts.map (·.take 127)

namespace Fs

variable {fat} {fs : Fs Volume}

/-- The walk along a list of components. -/
def walk (fat : FatFs Volume) : Fs Volume → Nat → List (List UInt8) → Option Nat × Fs Volume
  | fs, curr, [] => (some curr, fs)
  | fs, curr, part :: parts =>
    match fs.walkStep fat curr part with
    | (none, fs) => (none, fs)
    | (some next, fs) => walk fat fs next parts

/-- What is left behind a component. -/
lemma length_rest_le {ptr rest : List UInt8} {b : UInt8} {fuel : Nat} (enough : ptr.length ≤ fuel + 1)
    (found : ptr.dropWhile (· = slash) = b :: rest) :
    ((b :: rest).dropWhile (· ≠ slash)).length ≤ fuel := by
  have shorter := (length_dropWhile_le (fun b => decide (b = slash)) ptr).trans enough
  have head := head?_dropWhile_not (fun b => decide (b = slash)) ptr
  rw [found] at shorter head
  rw [dropWhile_cons_of_pos (by simpa using head)]
  refine (length_dropWhile_le ..).trans ?_
  simpa using shorter

lemma walkLoop_eq (fuel : Nat) (fs : Fs Volume) (curr : Nat) (ptr : List UInt8)
    (enough : ptr.length ≤ fuel) :
    walkLoop fat fuel fs curr ptr = walk fat fs curr (cut (components ptr)) := by
  induction fuel generalizing fs curr ptr with
  | zero =>
    rw [length_eq_zero_iff.mp (Nat.le_zero.mp enough)]
    rfl
  | succ fuel ih =>
    rw [walkLoop, components, fields_scan]
    cases found : ptr.dropWhile (· = slash) with
    | nil => rfl
    | cons b rest =>
      have rest_short := length_rest_le enough found
      dsimp only
      rw [cut, map_cons, walk]
      split
      · rfl
      · exact ih _ _ _ rest_short

lemma vfsPathToNode_eq (path : List UInt8) :
    fs.vfsPathToNode fat path =
      if path.head? = some slash then walk fat fs 0 (cut (components path)) else (none, fs) := by
  cases path with
  | nil => rfl
  | cons b ptr =>
    by_cases absolute : b = slash
    · subst absolute
      have absolute : (slash :: ptr).head? = some slash := rfl
      rw [vfsPathToNode, if_neg (by simp), walkLoop_eq _ _ _ _ (Nat.le_refl _), if_pos absolute,
        components, components, fields_cons_sep]
    · rw [vfsPathToNode, if_pos absolute, if_neg (by simpa using absolute)]

/-! ## Without mountpoints -/

def Unmounted (t : Tree) : Prop := ∀ a, (t.info a).isMountpoint = false

variable {info : Info} {t : Tree}

lemma Unmounted.setInfo {id : Nat} (unmounted : Unmounted t)
    (plain : info.isMountpoint = false) : Unmounted (t.setInfo id info) := by
  intro a
  by_cases here : a = id
  · have new : (t.setInfo id info).info a = info := by rw [here]; exact update_self ..
    rw [new, plain]
  · have same : (t.setInfo id info).info a = t.info a := update_of_ne here ..
    rw [same, unmounted a]

lemma Unmounted.insert {p : Nat} (unmounted : Unmounted t)
    (plain : info.isMountpoint = false) : Unmounted (t.insert p info) := by
  intro a
  rw [insert_info]
  exact unmounted.setInfo plain a

lemma root_unmounted : Unmounted root := fun _ => rfl

lemma walk_unmounted (unmounted : Unmounted fs.tree) (curr : Nat) (parts : List (List UInt8)) :
    walk fat fs curr parts = (fs.tree.find curr parts, fs) := by
  induction parts generalizing curr with
  | nil => rfl
  | cons part parts ih =>
    have quiet : fs.asks curr = false := by rw [asks, unmounted curr, Bool.false_and]
    rw [walk, walkStep, quiet, find]
    cases fs.tree.vfsFindChild curr part with
    | none => rfl
    | some next => exact ih next

/-- What the kernel finds under a path in a tree without mountpoints. -/
def lookup (t : Tree) (path : List UInt8) : Option Nat :=
  if path.head? = some slash then t.find 0 (cut (components path)) else none

lemma vfsPathToNode_unmounted (unmounted : Unmounted fs.tree) (path : List UInt8) :
    fs.vfsPathToNode fat path = (lookup fs.tree path, fs) := by
  rw [vfsPathToNode_eq, lookup]
  split
  · exact walk_unmounted unmounted 0 _
  · rfl

end Fs

def noFat : FatFs Unit where
  stat _ _ := none
  opens _ _ := false
  opendir _ _ := false
  create _ _ := none
  created _ _ _ created := by cases created

end Znu.Vfs
