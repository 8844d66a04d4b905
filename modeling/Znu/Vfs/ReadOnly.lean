
import Znu.Vfs.Lookup

/-! # Lookups that change nothing

Whenever the driver of a mountpoint answers, the lookup has made a new node and linked it,
and the driver may have created a file. So a lookup only looks if the driver refuses every
component that it is asked for, and then it is a search among the nodes that are there.
-/

namespace Znu.Vfs

open Lib Nat Vfs.Tree List
open Files (slash)

namespace Fs

variable {Volume : Type} (fat : FatFs Volume) (fs : Fs Volume) {curr : Nat}

/-- There is something under the names: a node, or below a mountpoint something on the
    volume under the whole rest of the path. -/
def Names : Nat → List (List UInt8) → Prop
  | _, [] => True
  | curr, part :: parts =>
    if fs.asks curr then fat.stat fs.volume (drive ++ [slash].intercalate (part :: parts)) ≠ none
    else ∃ next, fs.tree.vfsFindChild curr part = some next ∧ Names next parts

/-- The lookup of a path changes nothing, finds the same again, and finds something exactly
    if it is there. -/
structure LooksOnly (path : List UInt8) : Prop where
  unchanged : (fs.vfsPathToNode fat path).2 = fs
  repeated : ((fs.vfsPathToNode fat path).2.vfsPathToNode fat path).1 = (fs.vfsPathToNode fat path).1
  found_iff : (fs.vfsPathToNode fat path).1 ≠ none ↔ fs.Names fat 0 (components path)

/-- The driver has no node for the name: no volume is mounted, FatFs finds the object but does
    not open it, or neither finds nor creates it. -/
def Refused (name : List UInt8) : Prop :=
  fs.mounted = false ∨
    match fat.stat fs.volume (drive ++ name) with
    | some fno =>
      (if fno.isDir then fat.opendir fs.volume (drive ++ name)
        else fat.opens fs.volume (drive ++ name)) = false
    | none => fat.create fs.volume (drive ++ name) = none

/-- So it is at every mountpoint on the way. -/
def Refuses : Nat → List (List UInt8) → Prop
  | _, [] => True
  | curr, part :: parts =>
    (fs.asks curr = true → fs.Refused fat part) ∧
      ∀ next, fs.tree.vfsFindChild curr part = some next → Refuses next parts

/-- Nothing is found under names that have been cut, up to the first mountpoint on the way. -/
def FindsWhole : Nat → List (List UInt8) → Prop
  | _, [] => True
  | curr, part :: parts =>
    fs.asks curr = true ∨ if 127 < part.length then fs.tree.find curr (cut (part :: parts)) = none
      else ∀ next, fs.tree.vfsFindChild curr part = some next → FindsWhole next parts

/-- At the first mountpoint on the way, the nodes linked below it lead to the end of the path exactly if
    that is on the volume. -/
def LinksVolume : Nat → List (List UInt8) → Prop
  | _, [] => True
  | curr, part :: parts =>
    if fs.asks curr then fs.tree.find curr (cut (part :: parts)) ≠ none ↔
      fat.stat fs.volume (drive ++ [slash].intercalate (part :: parts)) ≠ none
    else ∀ next, fs.tree.vfsFindChild curr part = some next → LinksVolume next parts

variable {fat fs} {name : List UInt8} {parts : List (List UInt8)}

lemma names_iff (curr : Nat) (parts : List (List UInt8)) :
    (fs.tree.find curr (cut parts) ≠ none ↔ fs.Names fat curr parts) ↔
      fs.FindsWhole curr parts ∧ fs.LinksVolume fat curr parts := by
  induction parts generalizing curr with
  | nil => simp [cut, find, Names, FindsWhole, LinksVolume]
  | cons part parts ih =>
    rw [Names, FindsWhole, LinksVolume]
    by_cases asked : fs.asks curr = true
    · simp only [asked, if_true, true_or, true_and]
    simp only [asked, Bool.false_eq_true, if_false, false_or]
    by_cases long : 127 < part.length
    · have unnamed : fs.tree.vfsFindChild curr part = none := by
        by_contra there
        obtain ⟨next, found⟩ := Option.ne_none_iff_exists'.mp there
        have short := (fs.tree.info next).short
        rw [(vfsFindChild_some found).2] at short
        omega
      simp [unnamed, long]
    have whole : part.take 127 = part := take_of_length_le (by omega)
    rw [if_neg long, cut, map_cons, whole, find]
    cases found : fs.tree.vfsFindChild curr part with
    | none => simp
    | some next => simpa [cut] using ih next

lemma fat32VfsFind_refused (refused : fs.Refused fat name) (nonempty : name ≠ []) :
    fs.fat32VfsFind fat name = (none, fs) := by
  by_cases unmounted : fs.mounted = false
  · rw [fat32VfsFind, if_pos unmounted]
  have refused := refused.resolve_left unmounted
  rw [fat32VfsFind, if_neg unmounted]
  dsimp only
  cases found : fat.stat fs.volume (drive ++ name) with rw [found] at refused
  | some fno =>
    dsimp only at refused ⊢
    rw [if_neg nonempty, refused]
    rfl
  | none =>
    rw [refused]

lemma fat32VfsFind_answered (answered : ¬ fs.Refused fat name) (nonempty : name ≠ []) :
    ∃ fs', fs.fat32VfsFind fat name = (some fs.tree.made, fs') ∧ fs'.tree.made = fs.tree.made + 1 := by
  unfold Refused at answered
  push Not at answered
  obtain ⟨mounted, answered⟩ := answered
  unfold fat32VfsFind
  rw [if_neg mounted]
  dsimp only
  cases found : fat.stat fs.volume (drive ++ name) with rw [found] at answered
  | some fno =>
    dsimp only at answered ⊢
    rw [if_neg nonempty, if_pos (by simpa using answered)]
    exact ⟨_, rfl, rfl⟩
  | none =>
    obtain ⟨volume, created⟩ := Option.ne_none_iff_exists'.mp answered
    rw [created]
    dsimp only
    rw [if_neg nonempty]
    exact ⟨_, rfl, rfl⟩

lemma vfsAddChild_made (t : Tree) (parent child : Nat) : (t.vfsAddChild parent child).made = t.made := by
  unfold vfsAddChild
  split
  · rfl
  · rfl

lemma walkStep_refused (refused : fs.asks curr = true → fs.Refused fat name)
    (nonempty : name ≠ []) : fs.walkStep fat curr name = (fs.tree.vfsFindChild curr name, fs) := by
  unfold walkStep
  split
  next asked => rw [fat32VfsFind_refused (refused asked) nonempty]
  · rfl

lemma walkStep_answered (asked : fs.asks curr = true) (answered : ¬ fs.Refused fat name)
    (nonempty : name ≠ []) :
    ∃ fs', fs.walkStep fat curr name = (some fs.tree.made, fs') ∧ fs'.tree.made = fs.tree.made + 1 := by
  obtain ⟨fs', found, more⟩ := fat32VfsFind_answered answered nonempty
  refine ⟨{ fs' with tree := fs'.tree.vfsAddChild curr fs.tree.made }, ?_, ?_⟩
  · rw [walkStep, if_pos asked, found]
  · rw [vfsAddChild_made]
    exact more

lemma walk_refused (curr : Nat) (nonempty : ∀ part ∈ parts, part ≠ [])
    (refuses : fs.Refuses fat curr parts) : walk fat fs curr parts = (fs.tree.find curr parts, fs) := by
  induction parts generalizing curr with
  | nil => rfl
  | cons part parts ih =>
    obtain ⟨first, later⟩ := forall_mem_cons.mp nonempty
    rw [walk, walkStep_refused refuses.1 first, find]
    cases found : fs.tree.vfsFindChild curr part with
    | none => rfl
    | some next =>
      exact ih next later (refuses.2 next found)

lemma walk_made (curr : Nat) (nonempty : ∀ part ∈ parts, part ≠ []) (fs : Fs Volume) :
    fs.tree.made ≤ (walk fat fs curr parts).2.tree.made ∧
      (¬ fs.Refuses fat curr parts → fs.tree.made < (walk fat fs curr parts).2.tree.made) := by
  induction parts generalizing curr fs with
  | nil => exact ⟨le_refl _, fun answered => absurd trivial answered⟩
  | cons part parts ih =>
    obtain ⟨first, later⟩ := forall_mem_cons.mp nonempty
    rw [walk]
    by_cases refused : fs.asks curr = true → fs.Refused fat part
    · rw [walkStep_refused refused first]
      cases found : fs.tree.vfsFindChild curr part with
      | none => exact ⟨le_refl _, fun answered => absurd ⟨refused, by simp [found]⟩ answered⟩
      | some next =>
        obtain ⟨least, more⟩ := ih next later fs
        exact ⟨least, fun answered => more fun refuses => answered ⟨refused, by simpa [found] using refuses⟩⟩
    push Not at refused
    obtain ⟨fs', found, more⟩ := walkStep_answered refused.1 refused.2 first
    rw [found]
    have grown := lt_of_succ_le (more.ge.trans (ih fs.tree.made later fs').1)
    exact ⟨grown.le, fun _ => grown⟩

lemma cut_nonempty (path : List UInt8) : ∀ part ∈ cut (components path), part ≠ [] := by
  intro part member
  obtain ⟨whole, there, rfl⟩ := mem_map.mp member
  have nonempty := ne_nil_of_mem_fields there
  simpa using nonempty

end Fs

/-- A lookup only looks if and only if no driver answers on the way, no node is found under a name that
    has been cut, and the nodes below a mountpoint tell what is on the volume. -/
theorem looksOnly_iff {Volume : Type} (fat : FatFs Volume) (fs : Fs Volume) (path : List UInt8)
    (absolute : path.head? = some slash) :
    fs.LooksOnly fat path ↔
      fs.Refuses fat 0 (cut (components path)) ∧ fs.FindsWhole 0 (components path) ∧
        fs.LinksVolume fat 0 (components path) := by
  have lookup : fs.vfsPathToNode fat path = Fs.walk fat fs 0 (cut (components path)) := by
    rw [Fs.vfsPathToNode_eq, if_pos absolute]
  rw [← Fs.names_iff]
  constructor
  · intro looks
    have refuses : fs.Refuses fat 0 (cut (components path)) := by
      by_contra answered
      have more := (Fs.walk_made 0 (Fs.cut_nonempty path) _).2 answered
      rw [← lookup, looks.unchanged] at more
      exact absurd more (Nat.lt_irrefl _)
    have found := looks.found_iff
    rw [lookup, Fs.walk_refused 0 (Fs.cut_nonempty path) refuses] at found
    exact ⟨refuses, found⟩
  · rintro ⟨refuses, found⟩
    have result : fs.vfsPathToNode fat path = (fs.tree.find 0 (cut (components path)), fs) := by
      rw [lookup, Fs.walk_refused 0 (Fs.cut_nonempty path) refuses]
    refine ⟨?_, ?_, ?_⟩
    · rw [result]
    · rw [result, result]
    · rw [result]
      exact found

/-! ## A volume mounted at `/m` -/

/-- A volume is the list of the files on it. -/
def listFat : FatFs (List (List UInt8)) where
  stat volume path := if path ∈ volume then some ⟨false, 0⟩ else none
  opens _ _ := true
  opendir _ _ := false
  create volume path := some (path :: volume)
  created := by
    intro volume volume' path created
    cases created
    simp

/-- The node that `vfs_mount` makes. -/
def Info.mountpoint (name : List UInt8) : Info :=
  { Info.blank name .directory with isMountpoint := true, ops := .fat32 }

/-- An empty volume at `/m`. -/
def mountedFs : Fs (List (List UInt8)) where
  tree := Tree.root.insert 0 (.mountpoint [109])
  mounted := true
  volume := []

/-- The path of the mountpoint itself is not below it. -/
theorem mountpoint_found : mountedFs.LooksOnly listFat [slash, 109] := by
  refine (looksOnly_iff listFat mountedFs [slash, 109] rfl).mpr ⟨⟨?_, ?_⟩, ?_, ?_⟩
  · intro asked
    exact absurd asked (by decide)
  · intro next _
    trivial
  · exact .inr fun _ _ => trivial
  · exact fun _ _ => trivial

/-- The path `/m/x` names nothing, but is found, each time as another node, and created. -/
theorem missing_file_created :
    ¬ mountedFs.LooksOnly listFat [slash, 109, slash, 120] ∧
    ¬ mountedFs.Names listFat 0 (components [slash, 109, slash, 120]) ∧
    (mountedFs.vfsPathToNode listFat [slash, 109, slash, 120]).1 = some 2 ∧
    (mountedFs.vfsPathToNode listFat [slash, 109, slash, 120]).2.volume = [drive ++ [120]] ∧
    ((mountedFs.vfsPathToNode listFat [slash, 109, slash, 120]).2.vfsPathToNode listFat
      [slash, 109, slash, 120]).1 = some 3 := by
  refine ⟨fun looks => ?_, ?_, by decide, by decide, by decide⟩
  · exact absurd looks.repeated (by decide)
  have parts : components [slash, 109, slash, 120] = [[109], [120]] := by decide
  rw [parts]
  rintro ⟨next, found, there⟩
  have first : next = 1 := by
    have found' : mountedFs.tree.vfsFindChild 0 [109] = some 1 := by decide
    exact (Option.some.inj found).symm
  have asked : mountedFs.asks 1 = true := by decide
  rw [first, Fs.Names, if_pos asked] at there
  exact there (by decide)

end Znu.Vfs
