import Znu.Vfs.Cpio

/-! # What the archive leaves in the tree

A record that is entered hides what was found at its path and below. A file of the archive is
therefore found in the end only if no later record has a path above it, a directory only if a
later record below it brings it back, and what was there before only if no record is above it.
A record with something other than a directory on its way is lost.
-/

namespace Znu.Vfs

open Lib List Vfs.Fs Vfs.Tree Record
open Files

/-! ## One record -/

/-- A computable form of `Passable`. -/
def Tree.passable (t : Tree) (names : List (List UInt8)) : Bool :=
  names.inits.all fun other => other = names ||
    match t.find 0 other with
    | some n => (t.info n).type = .directory
    | none => true

variable {e : Entry} {names : List (List UInt8)} {ptr : Nat} {records : List Record}

lemma Tree.passable_iff {t : Tree} : t.passable names = true ↔ t.Passable names := by
  unfold passable Passable
  rw [all_eq_true]
  constructor
  · intro all other n inside apart found
    have here := all other ((mem_inits other names).mpr inside)
    simpa [apart, found] using here
  · intro directories other member
    by_cases same : other = names
    · simp [same]
    cases found : t.find 0 other with
    | none => simp
    | some n =>
      have := directories other n ((mem_inits other names).mp member) same found
      simpa [same] using this

variable {r : Record}

namespace Record

/-- The record finds its place: for a link its directory is there, and for a file or a
    directory no node on the way is anything else. -/
def takes (t : Tree) (r : Record) : Bool :=
  if r.type = some .symlink then
    match t.find 0 r.names.dropLast with
    | some p => (t.info p).type = .directory
    | none => false
  else t.passable r.names

/-- The node for the record at an address. -/
def info (r : Record) (type : NodeType) (ptr : Nat) : Info :=
  { Info.blank (r.names.getLast?.getD []) type with
    data := if type = .file then ptr + r.offset else 0
    size := if type = .file then r.data.length else 0
    mode := r.mode &&& 0xFFF
    uid := r.uid
    gid := r.gid }

lemma path_absolute (r : Record) : r.path.head? = some slash := by
  unfold path
  dsimp only
  split
  next absolute => exact absolute
  · rfl

lemma type_ne_device (r : Record) : r.type ≠ some .device := by
  unfold type
  split_ifs <;> simp

lemma buffer (length : r.path.length ≤ 255) : pathBuf r.name = r.path := by
  rw [path] at length ⊢
  rw [pathBuf]
  split
  next absolute =>
    rw [if_pos absolute] at length
    exact take_of_length_le length
  next relative =>
    rw [if_neg relative, length_cons] at length
    rw [take_of_length_le (Nat.le_of_succ_le_succ length)]

lemma Fits.cut (fits : r.Fits) : Vfs.cut (components r.path) = r.names := cut_eq_self fits.parts

lemma names_ne_nil (leaf : r.slashed = false) : r.names ≠ [] := by
  obtain ⟨b, there⟩ : ∃ b, r.path.getLast? = some b :=
    ⟨_, getLast?_eq_some_getLast (ne_nil_of_mem (mem_of_head? r.path_absolute))⟩
  exact components_ne_nil there fun slashed => of_decide_eq_false leaf (slashed ▸ there)

lemma Fits.last (fits : r.Fits) (nonempty : r.names ≠ []) :
    ∃ last, r.names.getLast? = some last ∧ last.length ≤ 127 := by
  have last := getLast?_eq_some_getLast nonempty
  exact ⟨_, last, fits.parts _ (getLast_mem nonempty)⟩

lemma Fits.split (fits : r.Fits) (leaf : r.slashed = false) :
    ∃ dir name, splitPath r.path = some (dir, name) ∧ name ≠ [] ∧ name.length ≤ 127 ∧
      r.names = components dir ++ [name] := by
  obtain ⟨dir, name, split⟩ := splitPath_absolute r.path_absolute
  obtain ⟨whole, -⟩ := splitPath_some split
  have nonempty : name ≠ [] := by
    rintro rfl
    refine of_decide_eq_false leaf ?_
    rw [whole]
    exact getLast?_concat
  have parts : r.names = components dir ++ [name] := by
    rw [names, components_split split, if_neg nonempty]
  exact ⟨dir, name, split, nonempty, fits.parts name (by simp [parts]), parts⟩

end Record

variable {n : Nat}

variable {Volume α : Type}

namespace Fs

variable {fat : FatFs Volume} {fs fs' : Fs Volume} {t : Tree} {path : List UInt8} {info : Info}
  {type : NodeType} {mode uid gid : Nat}

def withTree (fs : Fs Volume) (t : Tree) : Fs Volume := { fs with tree := t }

/-- A tree without mountpoints in which only directories have children. -/
structure Plain (t : Tree) : Prop where
  unmounted : Unmounted t
  solid : t.Solid

lemma describe_placed (fs : Fs Volume) (plain : Plain fs.tree)
    (absolute : path.head? = some slash) (parts : cut (components path) = names)
    (placed : t.Placed fs.tree names info) :
    t.Placed (describe (fs.vfsPathToNode fat path) type mode uid gid).tree names
      (info.described type mode uid gid) ∧
      (describe (fs.vfsPathToNode fat path) type mode uid gid).tree.Solid := by
  obtain ⟨n, -, -, found, fields, childless⟩ := placed.leaf
  rw [vfsPathToNode_unmounted plain.unmounted, lookup, if_pos absolute, parts, found]
  have changed := placed.setInfo found (info.described type mode uid gid) rfl
  rw [← fields] at changed ⊢
  exact ⟨changed, plain.solid.setInfo (.inr childless)⟩

lemma describe_missing (unmounted : Unmounted fs.tree) (absolute : path.head? = some slash)
    (parts : cut (components path) = names) (missing : fs.tree.find 0 names = none) :
    describe (fs.vfsPathToNode fat path) type mode uid gid = fs := by
  rw [vfsPathToNode_unmounted unmounted, lookup, if_pos absolute, parts, missing]
  rfl

lemma describe_unmounted (fs : Fs Volume) (unmounted : Unmounted fs.tree) :
    Unmounted (describe (fs.vfsPathToNode fat path) type mode uid gid).tree := by
  rw [vfsPathToNode_unmounted unmounted]
  cases lookup fs.tree path with
  | none => exact unmounted
  | some node => exact unmounted.setInfo (unmounted node)

lemma register_unmounted {leaf : List UInt8 → Info} {curr : Nat} {parts : List (List UInt8)}
    (memory : ∀ part, (leaf part).isMountpoint = false) (unmounted : Unmounted t) :
    Unmounted (register leaf t curr parts) := by
  induction parts generalizing t curr with
  | nil => exact unmounted
  | cons part parts ih =>
    cases parts with
    | nil => exact unmounted.insert (memory part)
    | cons next parts =>
      rw [register]
      split
      · exact ih unmounted
      · exact ih (unmounted.insert rfl)

lemma vfseSymlink_eq (unmounted : Unmounted fs.tree) (fits : r.Fits) (leaf : r.slashed = false) :
    fs.vfseSymlink fat [slash] r.path =
      match fs.tree.find 0 r.names.dropLast with
      | none => fs
      | some p =>
        if (fs.tree.info p).type = .directory then
          { fs with tree := fs.tree.insert p (.blank (r.names.getLast?.getD []) .symlink) }
        else fs := by
  obtain ⟨dir, name, split, nonempty, -, parts⟩ := fits.split leaf
  have resolved : vfseResolvePath [slash] r.path = some r.path := by
    rw [vfseResolvePath, if_pos r.path_absolute, take_of_length_le (by have := fits.path; omega)]
  have above : cut (components (parentPath dir)) = r.names.dropLast := by
    rw [components_parentPath, parts, dropLast_concat]
    refine cut_eq_self fun part member => fits.parts part ?_
    rw [parts]
    exact mem_append_left _ member
  have absolute : (parentPath dir).head? = some slash := by
    have head := r.path_absolute
    rw [(splitPath_some split).1] at head
    cases dir with
    | nil => rfl
    | cons b dir => exact head
  have last : r.names.getLast?.getD [] = name := by
    rw [parts, getLast?_concat]
    rfl
  rw [vfseSymlink, resolved]
  dsimp only
  rw [split]
  dsimp only
  rw [vfsPathToNode_unmounted unmounted, lookup, if_pos absolute, above, last]
  cases fs.tree.find 0 r.names.dropLast with
  | none => rfl
  | some p =>
    dsimp only
    rw [vfsCreateNode, if_neg nonempty, ite_not]
    rfl

/-- What `vfs_register_file` makes of the last name of a directory. -/
def directoryLeaf (r : Record) (part : List UInt8) : Info :=
  if r.slashed then .blank part .directory else .registered part 0 0

lemma directoryLeaf_name (part : List UInt8) : (directoryLeaf r part).name = part.take 127 := by
  unfold directoryLeaf
  split <;> rfl

lemma directoryLeaf_plain (part : List UInt8) : (directoryLeaf r part).isMountpoint = false := by
  unfold directoryLeaf
  split <;> rfl

/-- The record has a node made for it. -/
def Makes (t : Tree) (r : Record) : Prop := r.slashed = true → t.find 0 r.names = none

lemma enter_eq (fits : e.record.Fits) (makes : Makes fs.tree e.record) :
    fs.enter fat e =
      match e.record.type with
      | some .file =>
        let t := register (.registered · (e.ptr + e.record.offset) e.record.data.length) fs.tree 0
          e.record.names
        describe ((fs.withTree t).vfsPathToNode fat e.record.path) .file
          e.record.mode e.record.uid e.record.gid
      | some .directory =>
        let t := register (directoryLeaf e.record) fs.tree 0 e.record.names
        describe ((fs.withTree t).vfsPathToNode fat e.record.path) .directory
          e.record.mode e.record.uid e.record.gid
      | some .symlink =>
        let fs := fs.vfseSymlink fat [slash] e.record.path
        describe (fs.vfsPathToNode fat e.record.path) .symlink e.record.mode e.record.uid e.record.gid
      | _ => fs := by
  have registers : ∀ data size, e.record.slashed = false → fs.tree.vfsRegisterFile e.record.path data size =
      register (.registered · data size) fs.tree 0 e.record.names := by
    intro data size leaf
    rw [vfsRegisterFile_eq e.record.path_absolute (of_decide_eq_false leaf), fits.cut]
  have directories : fs.tree.vfsRegisterFile e.record.path 0 0 =
      register (directoryLeaf e.record) fs.tree 0 e.record.names := by
    cases slashed : e.record.slashed with
    | false =>
      have isFile : directoryLeaf e.record = (.registered · 0 0) := by
        funext part
        exact if_neg (by simp [slashed])
      rw [registers 0 0 slashed, isFile]
    | true =>
      have isDirectory : directoryLeaf e.record = (.blank · .directory) := by
        funext part
        exact if_pos slashed
      rw [vfsRegisterFile_slashed e.record.path_absolute (of_decide_eq_true slashed), fits.cut,
        makes slashed, isDirectory]
      rfl
  have leaf := fits.leaf
  rw [enter, cpioEntry, buffer fits.path]
  rw [type] at leaf ⊢
  split
  next file =>
    rw [if_pos file] at leaf
    rw [registers _ _ (leaf (by simp))]
    rfl
  split
  · rfl
  split
  · rw [directories]
    rfl
  · rfl

/-- A directory with a slash at the end that is there already gets its numbers only. -/
lemma enter_known (unmounted : Unmounted fs.tree) (fits : e.record.Fits)
    (typed : e.record.type = some .directory) (slashed : e.record.slashed = true)
    (found : fs.tree.find 0 e.record.names = some n) :
    fs.enter fat e = fs.withTree (fs.tree.setInfo n ((fs.tree.info n).described .directory
      e.record.mode e.record.uid e.record.gid)) := by
  have registers : fs.tree.vfsRegisterFile e.record.path 0 0 = fs.tree := by
    rw [vfsRegisterFile_slashed e.record.path_absolute (of_decide_eq_true slashed), fits.cut, found]
    rfl
  rw [enter, cpioEntry, buffer fits.path, registers]
  unfold type at typed
  split at typed
  · cases typed
  next file =>
  split at typed
  · cases typed
  next link =>
  split at typed
  next directory =>
    rw [if_neg file, if_neg link, if_pos directory]
    change describe (fs.vfsPathToNode fat e.record.path) _ _ _ _ = _
    rw [vfsPathToNode_unmounted unmounted, lookup, if_pos e.record.path_absolute, fits.cut, found]
    rfl
  · cases typed

lemma enter_unmounted (unmounted : Unmounted fs.tree) (fits : e.record.Fits)
    (makes : Makes fs.tree e.record) : Unmounted (fs.enter fat e).tree := by
  rw [enter_eq fits makes]
  split
  · exact describe_unmounted (fs.withTree _) (register_unmounted (fun _ => rfl) unmounted)
  · exact describe_unmounted (fs.withTree _) (register_unmounted directoryLeaf_plain unmounted)
  next typed =>
    rw [vfseSymlink_eq unmounted fits (fits.leaf (by simp [typed]))]
    refine describe_unmounted _ ?_
    split
    · exact unmounted
    split
    · exact unmounted.insert rfl
    · exact unmounted
  · exact unmounted

lemma enter_placed (plain : Plain fs.tree) (fits : e.record.Fits) (makes : Makes fs.tree e.record)
    (typed : e.record.type = some type) (takes : e.record.takes fs.tree = true) :
    fs.tree.Placed (fs.enter fat e).tree e.record.names (e.record.info type e.ptr) ∧
      (fs.enter fat e).tree.Solid := by
  obtain ⟨unmounted, solid⟩ := plain
  have nonempty : e.record.names ≠ [] := by
    cases slashed : e.record.slashed with
    | false => exact names_ne_nil slashed
    | true =>
      intro empty
      have missing := makes slashed
      rw [empty] at missing
      cases missing
  obtain ⟨last, ends, short⟩ := fits.last nonempty
  have names : e.record.names.getLast?.getD [] = last := by rw [ends]; rfl
  have registered : ∀ {leaf : List UInt8 → Info}, (∀ part, (leaf part).name = part.take 127) →
      fs.tree.Passable e.record.names →
      fs.tree.Placed (register leaf fs.tree 0 e.record.names) e.record.names (leaf last) :=
    fun named passable => register_placed named [] rfl fits.parts ends passable
  unfold Record.takes at takes
  rw [enter_eq fits makes, typed]
  rw [typed] at takes
  cases type with
  | file =>
    rw [if_neg (by decide), passable_iff] at takes
    rw [Record.info, names]
    exact describe_placed (fs.withTree _)
      ⟨register_unmounted (fun _ => rfl) unmounted, solid.register fs.tree.root_made⟩
      e.record.path_absolute fits.cut (registered (fun _ => rfl) takes)
  | directory =>
    rw [if_neg (by decide), passable_iff] at takes
    have info : e.record.info .directory e.ptr = (directoryLeaf e.record last).described .directory
        e.record.mode e.record.uid e.record.gid := by
      rw [Record.info, names]
      unfold directoryLeaf
      cases e.record.slashed <;> rfl
    rw [info]
    exact describe_placed (fs.withTree _)
      ⟨register_unmounted directoryLeaf_plain unmounted, solid.register fs.tree.root_made⟩
      e.record.path_absolute fits.cut (registered directoryLeaf_name takes)
  | symlink =>
    rw [vfseSymlink_eq unmounted fits (fits.leaf (by simp [typed])), Record.info, names]
    cases found : fs.tree.find 0 e.record.names.dropLast with rw [found] at takes
    | none =>
      cases takes
    | some p =>
      have directory : (fs.tree.info p).type = .directory := by simpa using takes
      have whole : (Info.blank last .symlink).name = last := take_of_length_le short
      have placed := insert_placed (.blank last .symlink) found directory
      have parts : e.record.names.dropLast ++ [last] = e.record.names :=
        dropLast_append_getLast? last ends
      rw [whole, parts] at placed
      dsimp only
      rw [if_pos directory]
      exact describe_placed (fs.withTree _)
        ⟨unmounted.insert rfl, solid.insert (find_made fs.tree.root_made found) _⟩
        e.record.path_absolute fits.cut placed
  | device => exact absurd typed e.record.type_ne_device

lemma find_through {other : List (List UInt8)} (inside : other <+: names)
    (apart : other ≠ names) (found : t.find 0 other = some n)
    (blocks : (t.info n).type ≠ .directory) : t.find 0 names = none := by
  obtain ⟨rest, rfl⟩ := inside
  cases rest with
  | nil => exact absurd (append_nil other).symm apart
  | cons name rest =>
    have missing : t.vfsFindChild n name = none := if_neg blocks
    rw [find_append, found, Option.bind_some, find, missing]
    rfl

/-- A record that does not find its place changes nothing. -/
lemma enter_lost (plain : Plain fs.tree) (fits : e.record.Fits) (makes : Makes fs.tree e.record)
    (lost : e.record.takes fs.tree = false) :
    fs.tree.Unchanged (fs.enter fat e).tree ∧ (fs.enter fat e).tree.find 0 e.record.names = none ∧
      (fs.enter fat e).tree.Solid := by
  obtain ⟨unmounted, solid⟩ := plain
  have blocked : ∀ leaf : List UInt8 → Info, e.record.type ≠ some .symlink →
      fs.tree.Unchanged (register leaf fs.tree 0 e.record.names) ∧
        fs.tree.find 0 e.record.names = none := by
    intro leaf registered
    have impassable : ¬ fs.tree.Passable e.record.names := by
      rw [takes, if_neg registered] at lost
      rw [← passable_iff, lost]
      decide
    unfold Passable at impassable
    push Not at impassable
    obtain ⟨other, n, inside, apart, found, blocks⟩ := impassable
    exact ⟨register_blocked fs.tree.root_made inside apart found blocks,
      find_through inside apart found blocks⟩
  have stays : ∀ (leaf : List UInt8 → Info) type mode uid gid,
      (∀ part, (leaf part).isMountpoint = false) → e.record.type ≠ some .symlink →
      fs.tree.Unchanged (describe ((fs.withTree
        (register leaf fs.tree 0 e.record.names)).vfsPathToNode fat e.record.path)
        type mode uid gid).tree ∧
      (describe ((fs.withTree
        (register leaf fs.tree 0 e.record.names)).vfsPathToNode fat e.record.path)
        type mode uid gid).tree.find 0 e.record.names = none ∧
      (describe ((fs.withTree
        (register leaf fs.tree 0 e.record.names)).vfsPathToNode fat e.record.path)
        type mode uid gid).tree.Solid := by
    intro leaf type mode uid gid memory registered
    obtain ⟨unchanged, missing⟩ := blocked leaf registered
    have missing' : (fs.withTree (register leaf fs.tree 0 e.record.names)).tree.find 0
        e.record.names = none := (unchanged.finds _).trans missing
    rw [describe_missing (register_unmounted memory unmounted) e.record.path_absolute fits.cut missing']
    exact ⟨unchanged, missing', solid.register fs.tree.root_made⟩
  rw [enter_eq fits makes]
  split
  next typed => exact stays _ _ _ _ _ (fun _ => rfl) (by simp [typed])
  next typed => exact stays _ _ _ _ _ directoryLeaf_plain (by simp [typed])
  next typed =>
    have leaf := fits.leaf (by simp [typed])
    rw [takes, if_pos typed] at lost
    obtain ⟨last, ends, -⟩ := fits.last (names_ne_nil leaf)
    have parts : e.record.names.dropLast ++ [last] = e.record.names :=
      dropLast_append_getLast? last ends
    have same : fs.vfseSymlink fat [slash] e.record.path = fs ∧ fs.tree.find 0 e.record.names = none := by
      rw [vfseSymlink_eq unmounted fits leaf]
      cases found : fs.tree.find 0 e.record.names.dropLast with
      | none =>
        refine ⟨rfl, ?_⟩
        rw [← parts, find_append, found]
        rfl
      | some p =>
        rw [found] at lost
        have blocks : (fs.tree.info p).type ≠ .directory := by simpa using lost
        refine ⟨if_neg blocks, find_through ⟨[last], parts⟩ ?_ found blocks⟩
        intro whole
        rw [whole] at parts
        simp at parts
    rw [same.1, describe_missing unmounted e.record.path_absolute fits.cut same.2]
    exact ⟨.refl _, same.2, solid⟩
  · refine ⟨.refl _, (blocked (directoryLeaf e.record) ?_).2, solid⟩
    assumption

end Fs

/-! ## All records -/

/-- The records that find their places. -/
def taken {Volume : Type} (fat : FatFs Volume) : Fs Volume → List Entry → List Entry
  | _, [] => []
  | fs, e :: es =>
    if e.record.takes fs.tree then e :: taken fat (fs.enter fat e) es
    else taken fat (fs.enter fat e) es

def Ready (es : List Entry) : Prop := ∀ e ∈ es, e.record.Fits ∧ e.record.type ≠ none

section

variable (fat : FatFs Volume) {fs : Fs Volume} {es : List Entry}

lemma Ready.tail (ready : Ready (e :: es)) : Ready es :=
  fun e member => ready e (mem_cons_of_mem _ member)

section

variable (plain : Fs.Plain fs.tree) (ready : Ready (e :: es))

include plain ready

/-- A record gets a new node at its place, or is a directory that is there, or is lost. -/
lemma Fs.enter_cases : Plain (fs.enter fat e).tree ∧
    ((∃ type, e.record.type = some type ∧ e.record.takes fs.tree = true ∧ Makes fs.tree e.record ∧
      fs.tree.Placed (fs.enter fat e).tree e.record.names (e.record.info type e.ptr)) ∨
    ((e.record.takes fs.tree = true → e.record.slashed = true) ∧
      fs.tree.Kept (fs.enter fat e).tree e.record.names ∧
      (e.record.takes fs.tree = true ↔ ∃ n, (fs.enter fat e).tree.find 0 e.record.names = some n))) := by
  obtain ⟨fits, typed⟩ := ready e (by simp)
  obtain ⟨type, typed⟩ := Option.ne_none_iff_exists'.mp typed
  by_cases makes : Makes fs.tree e.record
  · have unmounted : Unmounted (fs.enter fat e).tree := enter_unmounted plain.unmounted fits makes
    cases takes : e.record.takes fs.tree with
    | true =>
      obtain ⟨placed, solid⟩ := enter_placed plain fits makes typed takes
      exact ⟨⟨unmounted, solid⟩, .inl ⟨type, typed, rfl, makes, placed⟩⟩
    | false =>
      obtain ⟨unchanged, missing, solid⟩ := enter_lost plain fits makes takes
      exact ⟨⟨unmounted, solid⟩, .inr ⟨by simp, unchanged.kept missing, by simp [missing]⟩⟩
  simp only [Makes, Classical.not_imp, ← ne_eq, Option.ne_none_iff_exists'] at makes
  obtain ⟨slashed, n, found⟩ := makes
  have directory : e.record.type = some .directory := by
    by_contra other
    exact absurd slashed (by simp [fits.leaf other])
  have kept : fs.tree.Kept (fs.tree.setInfo n ((fs.tree.info n).described .directory e.record.mode
      e.record.uid e.record.gid)) e.record.names := setInfo_kept plain.solid found rfl rfl
  rw [enter_known plain.unmounted fits directory slashed found]
  refine ⟨⟨plain.unmounted.setInfo (plain.unmounted n), plain.solid.setInfo (.inl rfl)⟩,
    .inr ⟨fun _ => slashed, kept, iff_of_true ?_ ⟨n, (kept.finds _).trans found⟩⟩⟩
  rw [takes, directory, if_neg (by decide), passable_iff]
  intro other m inside apart there
  by_contra blocks
  cases found.symm.trans (find_through inside apart there blocks)

lemma Fs.enter_made : fs.tree.made ≤ (fs.enter fat e).tree.made := by
  rcases (enter_cases fat plain ready).2 with ⟨_, -, -, -, placed⟩ | ⟨-, kept, -⟩
  · exact placed.made
  · exact kept.made

/-- What is found stays where it is found as long as no record with a node has a path above it. -/
lemma Fs.enter_stays
    (found : fs.tree.find 0 names = some n)
    (clear : e.record.takes fs.tree = true → e.record.slashed = false → ¬ e.record.names <+: names) :
    (fs.enter fat e).tree.find 0 names = some n := by
  rcases (enter_cases fat plain ready).2 with ⟨_, -, takes, makes, placed⟩ | ⟨-, kept, -⟩
  · refine placed.kept names n (fun above => ?_) found
    cases slashed : e.record.slashed with
    | false => exact clear takes slashed above
    | true =>
      obtain ⟨rest, rfl⟩ := above
      rw [find_append, makes slashed] at found
      cases found
  · rw [kept.finds, found]

/-- So do the fields of the node, unless the record is for it. -/
lemma Fs.enter_info (found : fs.tree.find 0 names = some n) (apart : e.record.names ≠ names) :
    (fs.enter fat e).tree.info n = fs.tree.info n := by
  have old := find_made fs.tree.root_made found
  rcases (enter_cases fat plain ready).2 with ⟨_, -, -, -, placed⟩ | ⟨-, kept, -⟩
  · exact placed.infos n old
  · refine (kept.infos n old).resolve_right fun here => apart ?_
    exact Named.unique (chain_of_find here.1) (chain_of_find found)

/-- An old node never comes back. -/
lemma Fs.enter_gone
    (old : n < fs.tree.made) (gone : fs.tree.find 0 names ≠ some n) :
    (fs.enter fat e).tree.find 0 names ≠ some n := by
  rcases (enter_cases fat plain ready).2 with ⟨_, -, -, -, placed⟩ | ⟨-, kept, -⟩
  · by_cases under : e.record.names <+: names
    · exact placed.hides under old
    rcases placed.elsewhere under with same | ⟨m, new, found, -⟩
    · rwa [same]
    rw [found]
    intro same
    cases same
    omega
  · rwa [kept.finds]

lemma Fs.enter_lostAt
    (lost : fs.tree.Lost names) (apart : e.record.names ≠ names) :
    (fs.enter fat e).tree.Lost names := by
  intro n found
  rcases (enter_cases fat plain ready).2 with ⟨_, -, -, -, placed⟩ | ⟨-, kept, -⟩
  · by_cases under : e.record.names <+: names
    · rw [placed.below names under (Ne.symm apart)] at found
      cases found
    rcases placed.elsewhere under with same | ⟨m, -, found', directory⟩
    · rw [same] at found
      rw [placed.infos n (find_made fs.tree.root_made found)]
      exact lost n found
    rw [found'] at found
    cases found
    exact directory
  · rw [kept.finds] at found
    rw [enter_info fat plain ready found apart]
    exact lost n found

end

/-! ## Runs -/

variable {fat}

lemma Fs.enter_next (plain : Plain fs.tree) (ready : Ready (e :: es)) : Plain (fs.enter fat e).tree :=
  (enter_cases fat plain ready).1

section

variable (plain : Fs.Plain fs.tree) (ready : Ready es)

include plain ready

lemma Fs.run_plain : Plain (es.foldl (enter fat) fs).tree := by
  induction es generalizing fs with
  | nil => exact plain
  | cons e es ih => exact ih (enter_next plain ready) ready.tail

lemma Fs.run_stays
    (found : fs.tree.find 0 names = some n)
    (clear : ∀ k ∈ taken fat fs es, k.record.slashed = false → ¬ k.record.names <+: names) :
    (es.foldl (enter fat) fs).tree.find 0 names = some n ∧
      ((∀ k ∈ es, k.record.names ≠ names) → (es.foldl (enter fat) fs).tree.info n = fs.tree.info n) := by
  induction es generalizing fs with
  | nil => exact ⟨found, fun _ => rfl⟩
  | cons e es ih =>
    rw [taken] at clear
    have here : (fs.enter fat e).tree.find 0 names = some n := by
      refine enter_stays fat plain ready found fun takes => clear e ?_
      rw [if_pos takes]
      exact mem_cons_self
    obtain ⟨later, same⟩ := ih (enter_next plain ready) ready.tail here fun k member => by
      refine clear k ?_
      split
      · exact mem_cons_of_mem _ member
      · exact member
    refine ⟨later, fun apart => ?_⟩
    obtain ⟨first, rest⟩ := forall_mem_cons.mp apart
    exact (same rest).trans (enter_info fat plain ready found first)

lemma Fs.run_gone (old : n < fs.tree.made)
    (gone : fs.tree.find 0 names ≠ some n) :
    (es.foldl (enter fat) fs).tree.find 0 names ≠ some n := by
  induction es generalizing fs with
  | nil => exact gone
  | cons e es ih =>
    exact ih (enter_next plain ready) ready.tail (old.trans_le (enter_made fat plain ready))
      (enter_gone fat plain ready old gone)

lemma Fs.run_lost (lost : fs.tree.Lost names)
    (apart : ∀ e ∈ es, e.record.names ≠ names) : (es.foldl (enter fat) fs).tree.Lost names := by
  induction es generalizing fs with
  | nil => exact lost
  | cons e es ih =>
    obtain ⟨here, later_apart⟩ := forall_mem_cons.mp apart
    exact ih (enter_next plain ready) ready.tail (enter_lostAt fat plain ready lost here) later_apart

variable {k : Entry}

section

variable (member : k ∈ taken fat fs es) (leaf : k.record.slashed = false) (above : k.record.names <+: names)

include member leaf above

lemma Fs.run_hides (old : n < fs.tree.made) : (es.foldl (enter fat) fs).tree.find 0 names ≠ some n := by
  induction es generalizing fs with
  | nil => cases member
  | cons e es ih =>
    have plain' : Plain (fs.enter fat e).tree := enter_next plain ready
    have made := enter_made fat plain ready
    rw [taken] at member
    split at member
    next takes =>
      rcases mem_cons.mp member with rfl | later
      · rcases (enter_cases fat plain ready).2 with ⟨_, -, -, -, placed⟩ | ⟨slashed, -, -⟩
        · rw [foldl_cons]
          exact run_gone plain' ready.tail (old.trans_le made) (placed.hides above old)
        · exact absurd (slashed takes) (by simp [leaf])
      · exact ih plain' ready.tail later (old.trans_le made)
    · exact ih plain' ready.tail member (old.trans_le made)

/-- Then nothing but a directory can come in its place. -/
lemma Fs.run_replaces
    (apart : ∀ e ∈ es, e.record.names ≠ names) : (es.foldl (enter fat) fs).tree.Lost names := by
  induction es generalizing fs with
  | nil => cases member
  | cons e es ih =>
    have plain' : Plain (fs.enter fat e).tree := enter_next plain ready
    obtain ⟨here, later_apart⟩ := forall_mem_cons.mp apart
    rw [taken] at member
    split at member
    next takes =>
      rcases mem_cons.mp member with rfl | later
      · rcases (enter_cases fat plain ready).2 with ⟨_, -, -, -, placed⟩ | ⟨slashed, -, -⟩
        · rw [foldl_cons]
          refine run_lost plain' ready.tail (fun n found => ?_) later_apart
          rw [placed.below names above here.symm] at found
          cases found
        · exact absurd (slashed takes) (by simp [leaf])
      · exact ih plain' ready.tail later later_apart
    · exact ih plain' ready.tail member later_apart

end

/-- What is found in the end was there and has not been hidden, or a record below it has been
    entered and it has not been hidden since. -/
lemma Fs.run_found
    (apart : ∀ e ∈ es, e.record.names ≠ names)
    (found : (es.foldl (enter fat) fs).tree.find 0 names ≠ none) :
    (fs.tree.find 0 names ≠ none ∧
        ∀ k ∈ taken fat fs es, k.record.slashed = false → ¬ k.record.names <+: names) ∨
      ∃ before l after, es = before ++ l :: after ∧
        l.record.takes (before.foldl (enter fat) fs).tree = true ∧ names <+: l.record.names ∧
        ∀ k ∈ taken fat ((before.foldl (enter fat) fs).enter fat l) after,
          k.record.slashed = false → ¬ k.record.names <+: names := by
  induction es generalizing fs with
  | nil => exact .inl ⟨found, fun k member => by cases member⟩
  | cons e es ih =>
    have plain' : Plain (fs.enter fat e).tree := enter_next plain ready
    obtain ⟨here, later_apart⟩ := forall_mem_cons.mp apart
    rcases ih plain' ready.tail later_apart found with
      ⟨there, clear⟩ | ⟨before, l, after, rfl, rest⟩
    · rw [taken]
      rcases (enter_cases fat plain ready).2 with ⟨_, -, takes, -, placed⟩ | ⟨slashed, kept, -⟩
      · by_cases inside : names <+: e.record.names
        · exact .inr ⟨[], e, es, rfl, takes, inside, clear⟩
        left
        have clear' : ¬ e.record.names <+: names :=
          fun under => there (placed.below names under (Ne.symm here))
        refine ⟨fun missing => there (placed.absent names inside missing), ?_⟩
        rw [if_pos takes]
        exact forall_mem_cons.mpr ⟨fun _ => clear', clear⟩
      · rw [kept.finds] at there
        refine .inl ⟨there, ?_⟩
        split
        next takes => exact forall_mem_cons.mpr ⟨fun leaf => absurd (slashed takes) (by simp [leaf]), clear⟩
        · exact clear
    · exact .inr ⟨e :: before, l, after, rfl, rest⟩

end

lemma taken_append (fs : Fs Volume) (first second : List Entry) :
    taken fat fs (first ++ second) = taken fat fs first ++ taken fat (first.foldl (enter fat) fs) second := by
  induction first generalizing fs with
  | nil => rfl
  | cons e first ih =>
    rw [cons_append, taken, taken, ih, foldl_cons]
    split <;> rfl

lemma mem_of_mem_taken (member : k ∈ taken fat fs es) : k ∈ es := by
  induction es generalizing fs with
  | nil => cases member
  | cons e es ih =>
    rw [taken] at member
    split at member
    · rcases mem_cons.mp member with rfl | later
      · exact mem_cons_self
      · exact mem_cons_of_mem _ (ih later)
    · exact mem_cons_of_mem _ (ih member)

/-! ## The archive as a whole -/

/-- The record is entered, and none with a node of its own and a path above the names is entered after
    it. -/
def Stands (fat : FatFs Volume) (fs : Fs Volume) (es : List Entry) (e : Entry)
    (names : List (List UInt8)) : Prop :=
  e ∈ taken fat fs es ∧
    ∀ k ∈ taken fat fs es, [e, k].Sublist es → k.record.slashed = false → ¬ k.record.names <+: names

variable {after before : List Entry}

section

variable (nodup : (before ++ e :: after).Nodup)

include nodup

lemma after_iff : [e, k].Sublist (before ++ e :: after) ↔ k ∈ after := by
  have fresh : e ∉ before ++ after := (nodup_middle.mp nodup).notMem
  constructor
  · intro pair
    obtain ⟨first, second, whole, left, right⟩ := sublist_append_iff.mp pair
    cases first with
    | nil =>
      rw [nil_append] at whole
      rw [← whole] at right
      rcases sublist_cons_iff.mp right with skips | ⟨rest, same, inside⟩
      · exact absurd (mem_append_right _ (skips.subset (by simp))) fresh
      · cases same
        exact singleton_sublist.mp inside
    | cons a first =>
      obtain ⟨rfl, -⟩ := cons.inj whole
      exact absurd (mem_append_left _ (left.subset (by simp))) fresh
  · intro member
    exact ((singleton_sublist.mpr member).cons_cons e).trans (sublist_append_right ..)

lemma stands_iff :
    Stands fat fs (before ++ e :: after) e names ↔
      e.record.takes (before.foldl (enter fat) fs).tree = true ∧
        ∀ k ∈ taken fat ((before.foldl (enter fat) fs).enter fat e) after,
          k.record.slashed = false → ¬ k.record.names <+: names := by
  have fresh : e ∉ before ++ after := (nodup_middle.mp nodup).notMem
  have apart : ∀ k ∈ after, k ∉ before := by
    intro k member there
    have disjoint := (nodup_append'.mp nodup).2.2
    exact disjoint there (mem_cons_of_mem _ member)
  rw [Stands, taken_append, taken]
  constructor
  · rintro ⟨member, clear⟩
    have takes : e.record.takes (before.foldl (enter fat) fs).tree = true := by
      by_contra lost
      rw [if_neg lost] at member
      rcases mem_append.mp member with first | second
      · exact fresh (mem_append_left _ (mem_of_mem_taken first))
      · exact fresh (mem_append_right _ (mem_of_mem_taken second))
    refine ⟨takes, fun k later => ?_⟩
    rw [if_pos takes] at clear
    refine clear k ?_ ((after_iff nodup).mpr (mem_of_mem_taken later))
    exact mem_append_right _ (mem_cons_of_mem _ later)
  · rintro ⟨takes, clear⟩
    rw [if_pos takes]
    refine ⟨mem_append_right _ mem_cons_self, fun k member pair => clear k ?_⟩
    have later := (after_iff nodup).mp pair
    rcases mem_append.mp member with first | second
    · exact absurd (mem_of_mem_taken first) (apart k later)
    rcases mem_cons.mp second with rfl | there
    · exact absurd (mem_append_right _ later) fresh
    · exact there

lemma stands_from_iff :
    (∃ first l rest, e :: after = first ++ l :: rest ∧
        l.record.takes (first.foldl (enter fat) (before.foldl (enter fat) fs)).tree = true ∧
        e.record.names <+: l.record.names ∧
        ∀ k ∈ taken fat ((first.foldl (enter fat) (before.foldl (enter fat) fs)).enter fat l) rest,
          k.record.slashed = false → ¬ k.record.names <+: names) ↔
      ∃ l, (l = e ∨ [e, l].Sublist (before ++ e :: after)) ∧ e.record.names <+: l.record.names ∧
        Stands fat fs (before ++ e :: after) l names := by
  have stands : ∀ first l rest, e :: after = first ++ l :: rest →
      (Stands fat fs (before ++ e :: after) l names ↔
        l.record.takes (first.foldl (enter fat) (before.foldl (enter fat) fs)).tree = true ∧
        ∀ k ∈ taken fat ((first.foldl (enter fat) (before.foldl (enter fat) fs)).enter fat l) rest,
          k.record.slashed = false → ¬ k.record.names <+: names) := by
    intro first l rest whole
    rw [whole, ← append_assoc] at nodup ⊢
    rw [stands_iff nodup, foldl_append]
  constructor
  · rintro ⟨first, l, rest, whole, takes, below, clear⟩
    refine ⟨l, ?_, below, (stands first l rest whole).mpr ⟨takes, clear⟩⟩
    cases first with
    | nil =>
      cases whole
      exact .inl rfl
    | cons a first =>
      cases whole
      exact .inr ((after_iff nodup).mpr (by simp))
  · rintro ⟨l, place, below, stand⟩
    obtain ⟨first, rest, whole⟩ : ∃ first rest, e :: after = first ++ l :: rest := by
      rcases place with rfl | pair
      · exact ⟨[], after, rfl⟩
      · obtain ⟨first, rest, rfl⟩ := append_of_mem ((after_iff nodup).mp pair)
        exact ⟨e :: first, rest, rfl⟩
    obtain ⟨takes, clear⟩ := (stands first l rest whole).mp stand
    exact ⟨first, l, rest, whole, takes, below, clear⟩

end

/-- The node is the file of the record. -/
structure Carries (memory : Lib.Bytes) (info : Info) (r : Record) : Prop where
  type : info.type = .file
  size : info.size = r.data.length
  data : Holds memory info.data r.data
  mode : info.mode = r.mode &&& 0xFFF
  uid : info.uid = r.uid
  gid : info.gid = r.gid

/-- What an archive should leave: its files, its directories, and what it does not name. -/
structure Faithful (fat : FatFs Volume) (memory : Lib.Bytes) (fs fs' : Fs Volume)
    (es : List Entry) : Prop where
  files : ∀ e ∈ es, e.record.type = some .file →
    ∃ n, (fs'.vfsPathToNode fat e.record.path).1 = some n ∧ Carries memory (fs'.tree.info n) e.record
  directories : ∀ e ∈ es, e.record.type = some .directory →
    ∃ n, (fs'.vfsPathToNode fat e.record.path).1 = some n ∧ (fs'.tree.info n).type = .directory
  others : ∀ path n, (fs.vfsPathToNode fat path).1 = some n →
    (∀ e ∈ es, components path ≠ e.record.names) → (fs'.vfsPathToNode fat path).1 = some n

/-- Files are entered and not hidden. For a directory this holds of itself or of a later record
    below it. No record with a node of its own has a path above what was there and is not in the
    archive. -/
structure Undisturbed (fat : FatFs Volume) (fs : Fs Volume) (es : List Entry) : Prop where
  files : ∀ e ∈ es, e.record.type = some .file → Stands fat fs es e e.record.names
  directories : ∀ e ∈ es, e.record.type = some .directory →
    ∃ l, (l = e ∨ [e, l].Sublist es) ∧ e.record.names <+: l.record.names ∧
      Stands fat fs es l e.record.names
  others : ∀ path n, (fs.vfsPathToNode fat path).1 = some n →
    (∀ e ∈ es, components path ≠ e.record.names) →
      ∀ e ∈ taken fat fs es, e.record.slashed = false → ¬ e.record.names <+: cut (components path)

section

variable {memory : Bytes}

lemma ready_append (ready : Ready (before ++ e :: after)) : Ready before ∧ Ready (e :: after) :=
  ⟨fun e member => ready e (mem_append_left _ member), fun e member => ready e (mem_append_right _ member)⟩

lemma distinct_after
    (distinct : ((before ++ e :: after).map (·.record.names)).Nodup) :
    ∀ k ∈ after, k.record.names ≠ e.record.names := by
  rw [map_append, map_cons] at distinct
  have fresh := (nodup_cons.mp (nodup_append'.mp distinct).2.1).1
  intro k member same
  exact fresh (mem_map.mpr ⟨k, member, same⟩)

lemma Record.info_carries (holds : Holds memory (ptr + r.offset) r.data) :
    Carries memory (r.info .file ptr) r :=
  ⟨rfl, rfl, holds, rfl, rfl, rfl⟩

section

variable (plain : Fs.Plain fs.tree)

include plain

lemma file_found_iff (ready : Ready (e :: es))
    (apart : ∀ k ∈ es, k.record.names ≠ e.record.names) (file : e.record.type = some .file)
    (holds : Holds memory (e.ptr + e.record.offset) e.record.data) :
    (∃ n, ((e :: es).foldl (enter fat) fs).tree.find 0 e.record.names = some n ∧
        Carries memory (((e :: es).foldl (enter fat) fs).tree.info n) e.record) ↔
      e.record.takes fs.tree = true ∧ ∀ k ∈ taken fat (fs.enter fat e) es,
        k.record.slashed = false → ¬ k.record.names <+: e.record.names := by
  have fits := (ready e (by simp)).1
  have leaf := fits.leaf (by simp [file])
  have plain' : Fs.Plain (fs.enter fat e).tree := enter_next plain ready
  rw [foldl_cons]
  constructor
  · rintro ⟨n, found, carries⟩
    by_contra fails
    have lost : (es.foldl (enter fat) (fs.enter fat e)).tree.Lost e.record.names := by
      rcases (enter_cases fat plain ready).2 with ⟨_, -, takes, -, -⟩ | ⟨-, kept, -⟩
      · have hidden : ∃ k ∈ taken fat (fs.enter fat e) es, k.record.slashed = false ∧
            k.record.names <+: e.record.names := by
          by_contra none
          push Not at none
          exact fails ⟨takes, none⟩
        obtain ⟨k, member, leaf, above⟩ := hidden
        exact run_replaces plain' ready.tail member leaf above apart
      · exact run_lost plain' ready.tail kept.lost apart
    have directory := lost n found
    rw [carries.type] at directory
    cases directory
  · rintro ⟨takes, clear⟩
    have makes : Makes fs.tree e.record := fun slashed => absurd slashed (by simp [leaf])
    have placed : fs.tree.Placed (fs.enter fat e).tree _ _ := (enter_placed plain fits makes file takes).1
    obtain ⟨n, -, made, found, fields, -⟩ := placed.leaf
    obtain ⟨stays, same⟩ := run_stays plain' ready.tail found clear
    refine ⟨n, stays, ?_⟩
    rw [same apart, fields]
    exact info_carries holds

lemma directory_found_iff (ready : Ready (e :: es))
    (apart : ∀ k ∈ es, k.record.names ≠ e.record.names) (directory : e.record.type = some .directory) :
    (∃ n, ((e :: es).foldl (enter fat) fs).tree.find 0 e.record.names = some n ∧
        (((e :: es).foldl (enter fat) fs).tree.info n).type = .directory) ↔
      ∃ before l after, e :: es = before ++ l :: after ∧
        l.record.takes (before.foldl (enter fat) fs).tree = true ∧
        e.record.names <+: l.record.names ∧
        ∀ k ∈ taken fat ((before.foldl (enter fat) fs).enter fat l) after,
          k.record.slashed = false → ¬ k.record.names <+: e.record.names := by
  have plain' : Fs.Plain (fs.enter fat e).tree := enter_next plain ready
  have lost : ((e :: es).foldl (enter fat) fs).tree.Lost e.record.names := by
    rw [foldl_cons]
    refine run_lost plain' ready.tail (fun n there => ?_) apart
    rcases (enter_cases fat plain ready).2 with ⟨type, typed, -, -, placed⟩ | ⟨-, kept, -⟩
    · obtain ⟨m, -, -, found, fields, -⟩ := placed.leaf
      cases there.symm.trans found
      cases directory.symm.trans typed
      rw [fields]
      rfl
    · exact kept.lost n there
  constructor
  · rintro ⟨n, found, -⟩
    have there : (es.foldl (enter fat) (fs.enter fat e)).tree.find 0 e.record.names ≠ none := by
      rw [foldl_cons] at found
      rw [found]
      simp
    rcases run_found plain' ready.tail apart there with
      ⟨here, clear⟩ | ⟨before, l, after, rfl, rest⟩
    · refine ⟨[], e, es, rfl, ?_, prefix_refl _, clear⟩
      rcases (enter_cases fat plain ready).2 with ⟨_, -, takes, -, -⟩ | ⟨-, -, takes⟩
      · exact takes
      · exact takes.mpr (Option.ne_none_iff_exists'.mp here)
    · exact ⟨e :: before, l, after, rfl, rest⟩
  · rintro ⟨before, l, after, whole, takes, below, clear⟩
    rw [whole] at lost ready ⊢
    obtain ⟨ready', here⟩ := ready_append ready
    have plain : Fs.Plain (before.foldl (enter fat) fs).tree := run_plain plain ready'
    obtain ⟨n, found⟩ : ∃ n, ((before.foldl (enter fat) fs).enter fat l).tree.find 0 e.record.names =
        some n := by
      rcases (enter_cases fat plain here).2 with ⟨_, -, -, -, placed⟩ | ⟨-, -, there⟩
      · exact placed.found below
      · obtain ⟨n, found⟩ := there.mp takes
        obtain ⟨rest, whole⟩ := below
        rw [← whole, find_append] at found
        obtain ⟨m, first, -⟩ := Option.bind_eq_some_iff.mp found
        exact ⟨m, first⟩
    rw [foldl_append, foldl_cons] at lost ⊢
    have found' := (run_stays (enter_next plain here) here.tail found clear).1
    exact ⟨n, found', lost n found'⟩

lemma run_lookup (ready : Ready es) (member : e ∈ es) :
    ((es.foldl (enter fat) fs).vfsPathToNode fat e.record.path).1 =
      (es.foldl (enter fat) fs).tree.find 0 e.record.names := by
  rw [Fs.vfsPathToNode_unmounted (Fs.run_plain plain ready).unmounted, Fs.lookup,
    if_pos e.record.path_absolute, (ready e member).1.cut]

lemma archive_file_iff (ready : Ready es)
    (distinct : (es.map (·.record.names)).Nodup) (member : e ∈ es)
    (holds : Holds memory (e.ptr + e.record.offset) e.record.data) (file : e.record.type = some .file) :
    (∃ n, ((es.foldl (enter fat) fs).vfsPathToNode fat e.record.path).1 = some n ∧
        Carries memory ((es.foldl (enter fat) fs).tree.info n) e.record) ↔
      Stands fat fs es e e.record.names := by
  rw [run_lookup plain ready member]
  obtain ⟨before, after, rfl⟩ := append_of_mem member
  obtain ⟨ready', here⟩ := ready_append ready
  rw [stands_iff (List.Nodup.of_map _ distinct), foldl_append]
  exact file_found_iff (run_plain plain ready') here (distinct_after distinct) file holds

lemma archive_directory_iff (ready : Ready es)
    (distinct : (es.map (·.record.names)).Nodup) (member : e ∈ es)
    (directory : e.record.type = some .directory) :
    (∃ n, ((es.foldl (enter fat) fs).vfsPathToNode fat e.record.path).1 = some n ∧
        ((es.foldl (enter fat) fs).tree.info n).type = .directory) ↔
      ∃ l, (l = e ∨ [e, l].Sublist es) ∧ e.record.names <+: l.record.names ∧
        Stands fat fs es l e.record.names := by
  rw [run_lookup plain ready member]
  obtain ⟨before, after, rfl⟩ := append_of_mem member
  obtain ⟨ready', here⟩ := ready_append ready
  rw [← stands_from_iff (List.Nodup.of_map _ distinct), foldl_append]
  exact directory_found_iff (run_plain plain ready') here (distinct_after distinct) directory

/-- What was there stays unless a record has a path above it. -/
lemma archive_other_iff {path : List UInt8} (ready : Ready es)
    (found : (fs.vfsPathToNode fat path).1 = some n) :
    ((es.foldl (enter fat) fs).vfsPathToNode fat path).1 = some n ↔
      ∀ e ∈ taken fat fs es, e.record.slashed = false → ¬ e.record.names <+: cut (components path) := by
  rw [Fs.vfsPathToNode_unmounted plain.unmounted, Fs.lookup] at found
  rw [Fs.vfsPathToNode_unmounted (Fs.run_plain plain ready).unmounted, Fs.lookup]
  split at found
  next absolute =>
    rw [if_pos absolute]
    have old := find_made fs.tree.root_made found
    constructor
    · intro found' e member leaf above
      exact run_hides plain ready member leaf above old found'
    · exact fun clear => (run_stays plain ready found clear).1
  · cases found

end

end

end

/-! ## Archives in memory -/

lemma mem_entries (member : e ∈ entries ptr records) : e.record ∈ records := by
  induction records generalizing ptr with
  | nil => cases member
  | cons r records ih =>
    rcases mem_cons.mp member with rfl | later
    · exact mem_cons_self
    · exact mem_cons_of_mem _ (ih later)

lemma map_entries (f : Record → α) (ptr : Nat) (records : List Record) :
    (entries ptr records).map (fun e => f e.record) = records.map f := by
  induction records generalizing ptr with
  | nil => rfl
  | cons r records ih => rw [entries, map_cons, ih, map_cons]

lemma entries_hold {memory : Bytes}
    {last : List UInt8} (holds : Holds memory ptr (records.flatMap bytes ++ last))
    (member : e ∈ entries ptr records) : Holds memory (e.ptr + e.record.offset) e.record.data := by
  induction records generalizing ptr with
  | nil => cases member
  | cons r records ih =>
    rw [flatMap_cons, append_assoc, holds_append] at holds
    rcases mem_cons.mp member with rfl | later
    · exact (read holds.1).data
    · exact ih holds.2 later

/-- After the parse the files and directories of the archive are found, with what was there
    before, exactly if none of them has been hidden. -/
theorem archive_faithful_iff {Volume : Type} (fat : FatFs Volume) (memory : Lib.Bytes)
    (fs : Fs Volume) (addr fuel : Nat) (records : List Record) (trailer : Record)
    (plain : Fs.Plain fs.tree) (distinct : (records.map Record.names).Nodup)
    (typed : ∀ r ∈ records, r.type ≠ none) (readable : ∀ r ∈ records, r.Readable)
    (fits : ∀ r ∈ records, r.Fits) (last : trailer.name = trailerName)
    (holds : Holds memory addr (records.flatMap bytes ++ trailer.bytes))
    (enough : records.length < fuel) :
    Faithful fat memory fs (fs.cpioParse fat memory fuel addr) (entries addr records) ↔
      Undisturbed fat fs (entries addr records) := by
  have ready : Ready (entries addr records) :=
    fun e member => ⟨fits _ (mem_entries member), typed _ (mem_entries member)⟩
  have distinct' : ((entries addr records).map (·.record.names)).Nodup := by
    rwa [map_entries names]
  have data : ∀ e ∈ entries addr records, Holds memory (e.ptr + e.record.offset) e.record.data :=
    fun e member => entries_hold holds member
  rw [cpioParse_eq readable last holds enough]
  generalize entries addr records = es at ready distinct' data ⊢
  constructor
  · intro faithful
    constructor
    · intro e member file
      apply (archive_file_iff plain ready distinct' member (data e member) file).mp
      exact faithful.files e member file
    · intro e member directory
      apply (archive_directory_iff plain ready distinct' member directory).mp
      exact faithful.directories e member directory
    · intro path n found apart
      exact (archive_other_iff plain ready found).mp (faithful.others path n found apart)
  · intro undisturbed
    constructor
    · intro e member file
      apply (archive_file_iff plain ready distinct' member (data e member) file).mpr
      exact undisturbed.files e member file
    · intro e member directory
      apply (archive_directory_iff plain ready distinct' member directory).mpr
      exact undisturbed.directories e member directory
    · intro path n found apart
      exact (archive_other_iff plain ready found).mpr (undisturbed.others path n found apart)

def eightDigits (digits : List UInt8) : List UInt8 := replicate (8 - digits.length) 48 ++ digits

def numbersOf (mode filesize namesize : List UInt8) : List (List UInt8) :=
  [[], mode, [], [], [], [], filesize, [], [], [], [], namesize, []].map eightDigits

/-- The file `a/b`, with one byte. -/
def innerFile : Record where
  numbers := numbersOf [56, 49, 65, 52] [49] [52]
  name := [97, slash, 98]
  data := [120]
  gap := [0, 0]
  rest := [0, 0, 0]

/-- The directory `a`. -/
def outerDirectory : Record where
  numbers := numbersOf [52, 49, 69, 68] [] [50]
  name := [97]
  data := []
  gap := []
  rest := []

/-- The directory `a/`. -/
def slashedDirectory : Record where
  numbers := numbersOf [52, 49, 69, 68] [] [51]
  name := [97, slash]
  data := []
  gap := [0, 0, 0]
  rest := []

def lastRecord : Record where
  numbers := numbersOf [] [] [66]
  name := trailerName
  data := []
  gap := [0, 0, 0]
  rest := []

def emptyFs : Fs Unit := ⟨Tree.root, false, ()⟩

/-- A memory that begins with the bytes of an archive. -/
def archiveMemory (records : List Record) : Lib.Bytes :=
  fun addr => (records.flatMap bytes ++ lastRecord.bytes).getD addr 0

lemma holds_getD (before bytes : List UInt8) :
    Holds (fun addr => (before ++ bytes).getD addr 0) before.length bytes := by
  induction bytes generalizing before with
  | nil => trivial
  | cons b bytes ih =>
    refine ⟨by simp, ?_⟩
    have later := ih (before ++ [b])
    rwa [append_assoc, singleton_append, length_append, length_singleton] at later

lemma find_root (found : root.find 0 names = some n) : names = [] := by
  cases names with
  | nil => rfl
  | cons name names => cases found

/-- The directory `a` with a slash at the end comes after the file in it and hides nothing. -/
theorem slashed_directory_faithful :
    Faithful noFat (archiveMemory [innerFile, slashedDirectory]) emptyFs
      (emptyFs.cpioParse noFat (archiveMemory [innerFile, slashedDirectory]) 3 0)
      (entries 0 [innerFile, slashedDirectory]) := by
  obtain ⟨ptr, all⟩ : ∃ ptr, entries 0 [innerFile, slashedDirectory] =
    [⟨0, innerFile⟩, ⟨ptr, slashedDirectory⟩] := ⟨_, rfl⟩
  have first : innerFile.takes emptyFs.tree = true := by decide +kernel
  have second : slashedDirectory.takes (emptyFs.enter noFat ⟨0, innerFile⟩).tree = true := by
    decide +kernel
  have enters : taken noFat emptyFs [⟨0, innerFile⟩, ⟨ptr, slashedDirectory⟩] =
      [⟨0, innerFile⟩, ⟨ptr, slashedDirectory⟩] := by
    rw [taken, if_pos first, taken, if_pos second, taken]
  have slashed : slashedDirectory.slashed = true := by decide +kernel
  refine (archive_faithful_iff noFat _ emptyFs 0 3 [innerFile, slashedDirectory] lastRecord
    ⟨root_unmounted, fun _ _ => rfl⟩ (by decide +kernel) (by decide +kernel) ?_ ?_ rfl (holds_getD [] _)
    (by decide)).mpr ?_
  · simp only [forall_mem_cons, not_mem_nil, false_implies, implies_true, and_true]
    exact ⟨⟨by decide, by decide⟩, ⟨by decide, by decide⟩⟩
  · simp only [forall_mem_cons, not_mem_nil, false_implies, implies_true, and_true]
    exact ⟨⟨by decide +kernel, by decide, fun _ => by decide +kernel⟩,
      ⟨by decide +kernel, by decide, fun other => absurd (by decide +kernel) other⟩⟩
  rw [all]
  have once : ([⟨0, innerFile⟩, ⟨ptr, slashedDirectory⟩] : List Entry).Nodup := by
    have apart : [innerFile.names, slashedDirectory.names].Nodup := by decide +kernel
    exact Nodup.of_map (fun e : Entry => e.record.names) apart
  refine ⟨?_, ?_, fun path n found _ => ?_⟩
  · simp only [forall_mem_cons, not_mem_nil, false_implies, implies_true, and_true, Stands, enters]
    refine ⟨fun _ => ⟨mem_cons_self, fun pair => ?_, fun _ leaf => ?_⟩, fun file => ?_⟩
    · exact absurd (once.sublist pair) (by simp)
    · exact absurd slashed (by simp [leaf])
    · exact absurd file (by decide +kernel)
  · simp only [forall_mem_cons, not_mem_nil, false_implies, implies_true, and_true]
    refine ⟨fun directory => absurd directory (by decide +kernel), fun _ => ⟨_, .inl rfl, prefix_rfl, ?_⟩⟩
    simp only [Stands, enters, forall_mem_cons, not_mem_nil, false_implies, implies_true, and_true]
    refine ⟨by simp, fun _ _ => by decide +kernel, fun _ leaf => absurd slashed (by simp [leaf])⟩
  · rw [Fs.vfsPathToNode_unmounted Fs.root_unmounted, Fs.lookup] at found
    split at found
    · simp only [enters, forall_mem_cons, not_mem_nil, false_implies, implies_true, and_true, find_root found]
      exact ⟨fun _ => by decide +kernel, fun leaf => absurd slashed (by simp [leaf])⟩
    cases found

/-- A directory that comes after a file in it hides the file. -/
theorem late_directory_hides :
    ¬ Faithful noFat (archiveMemory [innerFile, outerDirectory]) emptyFs
      (emptyFs.cpioParse noFat (archiveMemory [innerFile, outerDirectory]) 3 0)
      (entries 0 [innerFile, outerDirectory]) := by
  intro faithful
  obtain ⟨n, found, -⟩ := faithful.files ⟨0, innerFile⟩ mem_cons_self (by decide +kernel)
  cases found

end Znu.Vfs
