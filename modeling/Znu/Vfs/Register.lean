import Znu.Vfs.Lookup

/-! # Registering a file

`vfs_register_file` walks down a path, makes the directories that are missing, and puts a
new leaf in front of what has its name. The leaf hides what was found at its path and below,
and nothing else changes. If a node on the way is no directory, the nodes are made but the
first of them is never linked, and nothing changes that can be found.
-/

namespace Znu.Vfs

open Lib Function List Option Nat Info
open Files (NodeType slash)

def Info.registered (part : List UInt8) (data size : Nat) : Info :=
  { Info.blank part .file with data := data, size := size }

namespace Tree

/-- The loop of `vfs_register_file`, from the byte `ptr` points to. -/
def registerLoop (data size : Nat) : Nat → Tree → Nat → List UInt8 → Tree
  | 0, t, _, _ => t
  | fuel + 1, t, curr, ptr =>
    match ptr.dropWhile (· = slash) with
    | [] => t
    | b :: rest =>
      let part := ((b :: rest).takeWhile (· ≠ slash)).take 127
      match (b :: rest).dropWhile (· ≠ slash) with
      | [] => t.insert curr (.registered part data size)
      | ptr =>
        match t.vfsFindChild curr part with
        | some dir => registerLoop data size fuel t dir ptr
        | none => registerLoop data size fuel (t.insert curr (.blank part .directory)) t.made ptr

def vfsRegisterFile (t : Tree) (path : List UInt8) (data size : Nat) : Tree :=
  match path with
  | [] => t
  | b :: ptr => if b ≠ slash then t else registerLoop data size ptr.length t 0 ptr

/-! ## The loop comes through the components -/

/-- The walk along a list of components, the last of which is the leaf. -/
def register (leaf : List UInt8 → Info) : Tree → Nat → List (List UInt8) → Tree
  | t, _, [] => t
  | t, curr, [part] => t.insert curr (leaf part)
  | t, curr, part :: next :: parts =>
    match t.vfsFindChild curr part with
    | some dir => register leaf t dir (next :: parts)
    | none => register leaf (t.insert curr (.blank part .directory)) t.made (next :: parts)

lemma components_ne_nil {path : List UInt8} {b : UInt8} (last : path.getLast? = some b)
    (apart : b ≠ slash) : components path ≠ [] := by
  intro empty
  have flat : (components path).flatten = path.filter (· ≠ slash) := fields_flatten path
  rw [empty, flatten_nil] at flat
  have member : b ∈ path.filter (· ≠ slash) :=
    mem_filter.mpr ⟨mem_of_getLast? last, by simpa using apart⟩
  rw [← flat] at member
  cases member

variable {t t'' : Tree} {curr data size p : Nat} {info : Info}

lemma getLast?_of_suffix {xs ys : List UInt8} {b : UInt8} (suffix : b :: ys <:+ xs) :
    xs.getLast? = (b :: ys).getLast? := by
  obtain ⟨front, rfl⟩ := suffix
  exact getLast?_append_of_ne_nil _ (cons_ne_nil b ys)

lemma registerLoop_eq (fuel : Nat) (t : Tree) (curr : Nat) (ptr : List UInt8)
    (enough : ptr.length ≤ fuel) (leaf : ptr.getLast? ≠ some slash) :
    registerLoop data size fuel t curr ptr =
      register (.registered · data size) t curr (cut (components ptr)) := by
  induction fuel generalizing t curr ptr with
  | zero =>
    rw [length_eq_zero_iff.mp (le_zero.mp enough)]
    rfl
  | succ fuel ih =>
    have suffix : ptr.dropWhile (· = slash) <:+ ptr := dropWhile_suffix _
    rw [registerLoop, components, fields_scan]
    cases found : ptr.dropWhile (· = slash) with
    | nil => rfl
    | cons b rest =>
      rw [found] at suffix
      have rest_short := Fs.length_rest_le enough found
      have later : (b :: rest).dropWhile (· ≠ slash) <:+ ptr :=
        (dropWhile_suffix _).trans suffix
      dsimp only
      rw [cut, map_cons]
      cases ends : (b :: rest).dropWhile (· ≠ slash) with
      | nil => rfl
      | cons c rest' =>
        rw [ends] at rest_short later
        have leaf' : (c :: rest').getLast? ≠ some slash := by rwa [← getLast?_of_suffix later]
        obtain ⟨last, there⟩ : ∃ last, (c :: rest').getLast? = some last :=
          ⟨_, getLast?_eq_some_getLast (by simp)⟩
        have more := components_ne_nil there fun slashed => leaf' (slashed ▸ there)
        obtain ⟨next, parts, names⟩ := exists_cons_of_ne_nil more
        have next_ih := fun t curr => ih t curr (c :: rest') rest_short leaf'
        rw [components] at names
        rw [components, cut] at next_ih
        rw [names] at next_ih ⊢
        rw [map_cons, register]
        dsimp only
        split <;> exact next_ih _ _

lemma vfsRegisterFile_eq {path : List UInt8} (absolute : path.head? = some slash)
    (leaf : path.getLast? ≠ some slash) :
    t.vfsRegisterFile path data size =
      register (.registered · data size) t 0 (cut (components path)) := by
  cases path with
  | nil => cases absolute
  | cons b ptr =>
    cases absolute
    have nonempty : ptr ≠ [] := by
      rintro rfl
      exact leaf rfl
    have leaf' : ptr.getLast? ≠ some slash := by
      rwa [getLast?_cons_of_ne_nil nonempty] at leaf
    rw [vfsRegisterFile, if_neg (by simp), registerLoop_eq _ _ _ _ (le_refl _) leaf',
      components, components, fields_cons_sep]

lemma insert_childless (made : p < t.made) (info : Info) : (t.insert p info).children t.made = [] := by
  unfold insert vfsAddChild
  split
  · exact (update_of_ne (Nat.ne_of_gt made) ..).trans (t.childless _ le_rfl)
  · exact t.childless _ le_rfl

/-- A path that ends in a slash has no leaf, and only its directories are made. -/
lemma registerLoop_slashed (fuel : Nat) (t : Tree) (curr : Nat) (made : curr < t.made) (ptr : List UInt8)
    (enough : ptr.length ≤ fuel) (slashed : ∀ b, ptr.getLast? = some b → b = slash) :
    registerLoop data size fuel t curr ptr = if (t.find curr (cut (components ptr))).isSome then t
      else register (.blank · .directory) t curr (cut (components ptr)) := by
  induction fuel generalizing t curr ptr with
  | zero =>
    rw [length_eq_zero_iff.mp (le_zero.mp enough)]
    rfl
  | succ fuel ih =>
    have suffix : ptr.dropWhile (· = slash) <:+ ptr := dropWhile_suffix _
    rw [registerLoop, components, fields_scan]
    cases found : ptr.dropWhile (· = slash) with
    | nil => rfl
    | cons b rest =>
      rw [found] at suffix
      have rest_short := Fs.length_rest_le enough found
      have last : (b :: rest).getLast? = some slash := by
        rw [getLast?_of_suffix suffix] at slashed
        have there := getLast?_eq_some_getLast (cons_ne_nil b rest)
        rwa [slashed _ there] at there
      dsimp only
      rw [cut, map_cons]
      cases ends : (b :: rest).dropWhile (· ≠ slash) with
      | nil =>
        have all := dropWhile_eq_nil_iff.mp ends slash (mem_of_getLast? last)
        simp at all
      | cons c rest' =>
        rw [ends] at rest_short
        have same : (c :: rest').getLast? = some slash := by
          rwa [getLast?_of_suffix (ends ▸ dropWhile_suffix _)] at last
        have next := fun t curr made => ih t curr made (c :: rest') rest_short fun b there =>
          (some.inj (same.symm.trans there)).symm
        rw [components, cut] at next
        cases child : t.vfsFindChild curr (((b :: rest).takeWhile (· ≠ slash)).take 127) with
        | some dir =>
          dsimp only
          rw [next t dir (child_made (vfsFindChild_some child).1).2, find, child, bind_some]
          cases map (take 127) (fields slash (c :: rest')) with
          | nil => rfl
          | cons name names => rw [register, child]
        | none =>
          dsimp only
          rw [next _ _ (by rw [insert_made]; exact lt_succ_self _), find, child, bind_none]
          cases map (take 127) (fields slash (c :: rest')) with
          | nil => rfl
          | cons name names =>
            have missing : (t.insert curr (.blank (((b :: rest).takeWhile (· ≠ slash)).take 127)
                .directory)).vfsFindChild t.made name = none := by
              unfold vfsFindChild
              rw [insert_childless made]
              simp
            rw [register, child, find, missing]
            rfl

lemma vfsRegisterFile_slashed {path : List UInt8} (absolute : path.head? = some slash)
    (slashed : path.getLast? = some slash) :
    t.vfsRegisterFile path data size = if (t.find 0 (cut (components path))).isSome then t
      else register (.blank · .directory) t 0 (cut (components path)) := by
  cases path with
  | nil => cases absolute
  | cons b ptr =>
    cases absolute
    have slashed' : ∀ b, ptr.getLast? = some b → b = slash := by
      intro b last
      have nonempty : ptr ≠ [] := by
        rintro rfl
        cases last
      rw [getLast?_cons_of_ne_nil nonempty, last] at slashed
      exact some.inj slashed
    rw [vfsRegisterFile, if_neg (by simp), registerLoop_slashed _ _ _ t.root_made _ le_rfl slashed',
      components, components, fields_cons_sep]

/-! ## Only directories have children -/

def Solid (t : Tree) : Prop := ∀ n, (t.info n).type ≠ .directory → t.children n = []

lemma Solid.insert (solid : t.Solid) (made : p < t.made) (info : Info) : (t.insert p info).Solid := by
  intro n plain
  by_cases new : n = t.made
  · rw [new]
    exact insert_childless made info
  rw [insert_info, update_of_ne new] at plain
  unfold Tree.insert vfsAddChild
  split
  next attaches =>
    refine (update_of_ne ?_ ..).trans (solid n plain)
    rintro rfl
    have same : (t.alloc info).info n = t.info n := update_of_ne new ..
    exact plain (same ▸ attaches.2.2.2.1)
  · exact solid n plain

lemma Solid.setInfo {n : Nat} (solid : t.Solid) (fine : info.type = .directory ∨ t.children n = []) :
    (t.setInfo n info).Solid := by
  intro m plain
  by_cases here : m = n
  · subst here
    have new : (t.setInfo m info).info m = info := update_self ..
    rw [new] at plain
    exact fine.resolve_left plain
  · have old : (t.setInfo n info).info m = t.info m := update_of_ne here ..
    exact solid m (old ▸ plain)

lemma Solid.register {leaf : List UInt8 → Info} {parts : List (List UInt8)} (solid : t.Solid)
    (made : curr < t.made) : (Tree.register leaf t curr parts).Solid := by
  induction parts generalizing t curr with
  | nil => exact solid
  | cons part parts ih =>
    cases parts with
    | nil => exact solid.insert made _
    | cons next parts =>
      rw [Tree.register]
      split
      next dir found => exact ih solid (child_made (vfsFindChild_some found).1).2
      · exact ih (solid.insert made _) (by rw [insert_made]; exact lt_succ_self _)

/-! ## What a new leaf does -/

/-- The second tree is the first with a new leaf at its place and the directories above it. -/
structure Placed (t t' : Tree) (names : List (List UInt8)) (info : Info) : Prop where
  leaf : ∃ n, t.made ≤ n ∧ n < t'.made ∧ t'.find 0 names = some n ∧ t'.info n = info ∧
    t'.children n = []
  below : ∀ other, names <+: other → other ≠ names → t'.find 0 other = none
  above : ∀ other, other <+: names → other ≠ names → t.find 0 other = none →
    ∃ n, t.made ≤ n ∧ n < t'.made ∧ t'.find 0 other = some n ∧ (t'.info n).type = .directory
  kept : ∀ other n, ¬ names <+: other → t.find 0 other = some n → t'.find 0 other = some n
  absent : ∀ other, ¬ other <+: names → t.find 0 other = none → t'.find 0 other = none
  infos : ∀ n < t.made, t'.info n = t.info n
  made : t.made ≤ t'.made

variable {t' : Tree} {names names' other : List (List UInt8)}

variable {n : Nat}

lemma insert_old (t : Tree) (p : Nat) (info : Info) (old : n < t.made) :
    (t.insert p info).info n = t.info n := by
  rw [insert_info, update_of_ne (Nat.ne_of_lt old)]

lemma insert_placed (info : Info) (found : t.find 0 names = some p)
    (directory : (t.info p).type = .directory) :
    Placed t (t.insert p info) (names ++ [info.name]) info := by
  have found' := find_insert info found directory
  obtain ⟨children, -, -⟩ := @insert_eq t p info (find_made t.root_made found) directory
  have distinct : t.made ≠ p := Ne.symm (Nat.ne_of_lt (find_made t.root_made found))
  have whole : ∀ other, other <+: names → t.find 0 other ≠ none := by
    rintro other ⟨rest, rfl⟩ missing
    rw [find_append, missing] at found
    cases found
  constructor
  · refine ⟨t.made, le_refl _, ?_, ?_, ?_, ?_⟩
    · rw [insert_made]
      exact lt_succ_self _
    · rw [found', if_pos (prefix_refl _), if_pos rfl]
    · rw [insert_info, update_self]
    · rw [children, update_of_ne distinct]
      exact t.childless _ (le_refl _)
  · intro other under apart
    rw [found', if_pos under, if_neg apart]
  · intro other inside apart missing
    rcases prefix_concat_iff.mp inside with same | inside
    · exact absurd same apart
    · exact absurd missing (whole other inside)
  · intro other n apart there
    rw [found', if_neg apart, there]
  · intro other apart missing
    have here : other ≠ names ++ [info.name] := fun same => apart (same ▸ prefix_refl _)
    rw [found', if_neg here, missing, ite_self]
  · intro n old
    exact insert_old t p info old
  · rw [insert_made]
    exact le_succ _

/-- A directory that was missing does not show in the end. -/
lemma Placed.through {name : List UInt8} (found : t.find 0 names = some curr)
    (directory : (t.info curr).type = .directory) (short : name.length ≤ 127)
    (missing : t.vfsFindChild curr name = none) (under : names ++ [name] <+: names')
    (placed : Placed (t.insert curr (.blank name .directory)) t' names' info) :
    Placed t t' names' info := by
  have whole : (blank name .directory).name = name := take_of_length_le short
  have found' := find_insert (blank name .directory) found directory
  rw [whole] at found'
  have nothing : ∀ other, names ++ [name] <+: other → t.find 0 other = none := by
    rintro other ⟨rest, rfl⟩
    rw [append_assoc, find_append, found, bind_some, singleton_append, find, missing]
    rfl
  have more : t.made ≤ (t.insert curr (.blank name .directory)).made := by
    rw [insert_made]
    exact le_succ _
  constructor
  · obtain ⟨n, new, rest⟩ := placed.leaf
    exact ⟨n, more.trans new, rest⟩
  · exact placed.below
  · intro other inside apart absent
    by_cases here : other = names ++ [name]
    · subst here
      have there : (t.insert curr (.blank name .directory)).find 0 (names ++ [name]) = some t.made := by
        rw [found', if_pos (prefix_refl _), if_pos rfl]
      have shorter : ¬ names' <+: names ++ [name] := fun under' =>
        apart (inside.eq_of_length_le under'.length_le)
      have new : t.made < (t.insert curr (.blank name .directory)).made := by
        rw [insert_made]
        exact lt_succ_self _
      refine ⟨t.made, le_refl _, new.trans_le placed.made, placed.kept _ _ shorter there, ?_⟩
      rw [placed.infos _ new, insert_info, update_self]
      rfl
    · have absent' : (t.insert curr (.blank name .directory)).find 0 other = none := by
        rw [found', if_neg here, absent, ite_self]
      obtain ⟨n, new, rest⟩ := placed.above other inside apart absent'
      exact ⟨n, more.trans new, rest⟩
  · intro other n apart there
    refine placed.kept other n apart ?_
    rw [found', if_neg, there]
    intro inside
    rw [nothing other inside] at there
    cases there
  · intro other apart absent
    refine placed.absent other apart ?_
    have here : other ≠ names ++ [name] := fun same => apart (same ▸ under)
    rw [found', if_neg here, absent, ite_self]
  · intro n old
    rw [placed.infos n (old.trans_le more), insert_old _ _ _ old]
  · exact more.trans placed.made

/-- No node on the way is anything but a directory. -/
def Passable (t : Tree) (names : List (List UInt8)) : Prop :=
  ∀ other n, other <+: names → other ≠ names → t.find 0 other = some n → (t.info n).type = .directory

variable {parts : List (List UInt8)} {leaf : List UInt8 → Info}

lemma register_placed {last : List UInt8} (named : ∀ part, (leaf part).name = part.take 127)
    (names : List (List UInt8)) (found : t.find 0 names = some curr)
    (short : ∀ part ∈ parts, part.length ≤ 127) (ends : parts.getLast? = some last)
    (passable : t.Passable (names ++ parts)) :
    Placed t (register leaf t curr parts) (names ++ parts) (leaf last) := by
  induction parts generalizing t curr names with
  | nil => cases ends
  | cons part parts ih =>
    have directory : (t.info curr).type = .directory :=
      passable names curr (prefix_append ..) (by simp) found
    cases parts with
    | nil =>
      cases ends
      have whole : (leaf part).name = part := (named part).trans (take_of_length_le (short part (by simp)))
      have placed := insert_placed (leaf part) found directory
      rwa [whole] at placed
    | cons next parts =>
      obtain ⟨-, later⟩ := forall_mem_cons.mp short
      have ends' : (next :: parts).getLast? = some last := by
        rwa [getLast?_cons_cons] at ends
      have split : names ++ part :: next :: parts = (names ++ [part]) ++ next :: parts := by simp
      rw [split] at passable ⊢
      rw [register]
      cases missing : t.vfsFindChild curr part with
      | some dir =>
        have found' : t.find 0 (names ++ [part]) = some dir := by
          rw [find_append, found, bind_some, find, missing]
          rfl
        exact ih _ found' later ends' passable
      | none =>
        have whole : (blank part .directory).name = part :=
          take_of_length_le (short part (by simp))
        have law := find_insert (blank part .directory) found directory
        rw [whole] at law
        refine Placed.through found directory (short part (by simp)) missing
          (prefix_append ..) (ih _ ?_ later ends' ?_)
        · rw [law, if_pos (prefix_refl _), if_pos rfl]
        intro other n inside apart there
        rw [law] at there
        split at there
        · split at there
          · cases there
            rw [insert_info, update_self]
            rfl
          · cases there
        · rw [insert_old _ _ _ (find_made t.root_made there)]
          exact passable other n inside apart there

/-- Of a leaf only the name matters for what is found, of other nodes the type too. -/
lemma find_setInfo (fine : info.type = (t.info n).type ∨ t.children n = [])
    (same : info.name = (t.info n).name) (a : Nat) (names : List (List UInt8)) : (t.setInfo n info).find a names = t.find a names := by
  have name : ∀ child, ((t.setInfo n info).info child).name = (t.info child).name := by
    intro child
    by_cases here : child = n
    · have new : (t.setInfo n info).info child = info := by rw [here]; exact update_self ..
      rw [new, same, here]
    · have old : (t.setInfo n info).info child = t.info child := update_of_ne here ..
      rw [old]
  have step : ∀ b part, (t.setInfo n info).vfsFindChild b part = t.vfsFindChild b part := by
    intro b part
    unfold vfsFindChild
    simp only [name]
    by_cases here : b = n
    · have new : (t.setInfo n info).info b = info := by rw [here]; exact update_self ..
      rw [new, here]
      rcases fine with type | childless
      · rw [type]
        rfl
      · have none : (t.setInfo n info).children n = [] := childless
        rw [none, childless]
        simp
    · have old : (t.setInfo n info).info b = t.info b := update_of_ne here ..
      rw [old]
      rfl
  induction names generalizing a with
  | nil => rfl
  | cons part parts ih =>
    rw [find, find, step]
    exact congrArg _ (funext fun b => ih b)

section

variable (placed : Placed t t' names info)

include placed

lemma Placed.setInfo (there : t'.find 0 names = some n)
    (info' : Info) (same : info'.name = info.name) : Placed t (t'.setInfo n info') names info' := by
  obtain ⟨m, new, made, found, fields, childless⟩ := placed.leaf
  obtain rfl : n = m := some.inj (there.symm.trans found)
  have finds := find_setInfo (.inr childless) (fields ▸ same)
  have others : ∀ m, m ≠ n → (t'.setInfo n info').info m = t'.info m :=
    fun m apart => update_of_ne apart ..
  constructor
  · exact ⟨n, new, made, by rw [finds, found], update_self .., childless⟩
  · intro other under apart
    rw [finds, placed.below other under apart]
  · intro other inside apart missing
    obtain ⟨m, above, low, found', directory⟩ := placed.above other inside apart missing
    refine ⟨m, above, low, by rw [finds, found'], ?_⟩
    rw [others m, directory]
    rintro rfl
    exact apart (Named.unique (chain_of_find found') (chain_of_find found))
  · intro other m apart there'
    rw [finds, placed.kept other m apart there']
  · intro other apart missing
    rw [finds, placed.absent other apart missing]
  · intro m old
    rw [others m (Nat.ne_of_lt (old.trans_le new)), placed.infos m old]
  · exact placed.made

/-- No old node is found at the place of the leaf or below it. -/
lemma Placed.hides (under : names <+: names') (old : n < t.made) : t'.find 0 names' ≠ some n := by
  by_cases same : names' = names
  · obtain ⟨leaf, new, -, found, -, -⟩ := placed.leaf
    rw [same, found]
    intro equal
    cases equal
    omega
  · rw [placed.below names' under same]
    simp

/-- At the other paths there is what was there, or a new directory. -/
lemma Placed.elsewhere (clear : ¬ names <+: names') :
    t'.find 0 names' = t.find 0 names' ∨
      ∃ n, t.made ≤ n ∧ t'.find 0 names' = some n ∧ (t'.info n).type = .directory := by
  cases before : t.find 0 names' with
  | some n => exact .inl (placed.kept names' n clear before)
  | none =>
    by_cases inside : names' <+: names
    · have apart : names' ≠ names := fun same => clear (same ▸ prefix_refl _)
      obtain ⟨n, new, -, found, directory⟩ := placed.above names' inside apart before
      exact .inr ⟨n, new, found, directory⟩
    · exact .inl (placed.absent names' inside before)

lemma Placed.found (inside : names' <+: names) : ∃ n, t'.find 0 names' = some n := by
  by_cases same : names' = names
  · obtain ⟨leaf, -, -, found, -⟩ := placed.leaf
    exact ⟨leaf, same ▸ found⟩
  cases before : t.find 0 names' with
  | some n =>
    have shorter : ¬ names <+: names' := fun under => same (inside.eq_of_length_le under.length_le)
    exact ⟨n, placed.kept names' n shorter before⟩
  | none =>
    obtain ⟨n, -, -, found, -⟩ := placed.above names' inside same before
    exact ⟨n, found⟩

end

/-! ## A way that is blocked -/

/-- Nothing but a directory is found there. -/
def Lost (t : Tree) (names : List (List UInt8)) : Prop :=
  ∀ n, t.find 0 names = some n → (t.info n).type = .directory

/-- What can be found stays, and at most the node with the names has been made a directory. -/
structure Kept (t t' : Tree) (names : List (List UInt8)) : Prop where
  finds : ∀ other, t'.find 0 other = t.find 0 other
  infos : ∀ n < t.made, t'.info n = t.info n ∨ t.find 0 names = some n ∧ (t'.info n).type = .directory
  made : t.made ≤ t'.made
  lost : t'.Lost names

lemma setInfo_kept (solid : t.Solid) (found : t.find 0 names = some n) (directory : info.type = .directory)
    (same : info.name = (t.info n).name) : Kept t (t.setInfo n info) names := by
  have fine : info.type = (t.info n).type ∨ t.children n = [] := by
    by_cases already : (t.info n).type = .directory
    · exact .inl (directory.trans already.symm)
    · exact .inr (solid n already)
  have new : (t.setInfo n info).info n = info := update_self ..
  refine ⟨find_setInfo fine same 0, fun m _ => ?_, le_rfl, fun m found' => ?_⟩
  · by_cases here : m = n
    · subst here
      exact .inr ⟨found, by rw [new, directory]⟩
    · exact .inl (update_of_ne here ..)
  · rw [find_setInfo fine same 0, found] at found'
    cases found'
    rw [new, directory]

/-- Nothing changes that can be found. -/
structure Unchanged (t t' : Tree) : Prop where
  finds : ∀ names, t'.find 0 names = t.find 0 names
  infos : ∀ n < t.made, t'.info n = t.info n
  made : t.made ≤ t'.made

lemma Unchanged.kept (unchanged : Unchanged t t') (missing : t'.find 0 names = none) : Kept t t' names where
  finds := unchanged.finds
  infos n old := .inl (unchanged.infos n old)
  made := unchanged.made
  lost n found := by
    rw [missing] at found
    cases found

lemma Unchanged.refl (t : Tree) : Unchanged t t := ⟨fun _ => rfl, fun _ _ => rfl, le_refl _⟩

lemma Unchanged.trans (first : Unchanged t t') (second : Unchanged t' t'') : Unchanged t t'' where
  finds := fun names => (second.finds names).trans (first.finds names)
  infos := fun n old => (second.infos n (old.trans_le first.made)).trans (first.infos n old)
  made := first.made.trans second.made

/-- A node that is no directory takes no child, and one that is not found shows none. -/
lemma insert_unchanged (info : Info) (made : p < t.made)
    (blocked : (t.info p).type ≠ .directory ∨ ∀ names, t.find 0 names ≠ some p) :
    Unchanged t (t.insert p info) := by
  have more : t.made ≤ (t.insert p info).made := by
    rw [insert_made]
    exact le_succ _
  refine ⟨fun names => ?_, fun n old => insert_old t p info old, more⟩
  by_cases directory : (t.info p).type = .directory
  · refine find_insert_other made directory t.root_made fun names' suffix _ => ?_
    exact blocked.resolve_left (fun other => other directory) names'
  have plain : t.insert p info = t.alloc info := by
    refine dif_neg fun attaches => directory ?_
    have old : (t.alloc info).info p = t.info p := update_of_ne (Nat.ne_of_lt made) ..
    rw [← old]
    exact attaches.2.2.2.1
  have steps : ∀ a, a < t.made → ∀ name, (t.insert p info).vfsFindChild a name = t.vfsFindChild a name := by
    intro a old name
    unfold vfsFindChild
    rw [insert_old t p info old, insert_info, plain]
    have same : (t.children a).find? (fun child =>
        (update t.info t.made info child).name = name) =
        (t.children a).find? fun child => (t.info child).name = name := by
      refine find?_congr fun child member => ?_
      rw [update_of_ne (Nat.ne_of_lt (child_made member).2)]
    split
    · exact same
    · rfl
  have finds : ∀ a, a < t.made → (t.insert p info).find a names = t.find a names := by
    induction names with
    | nil =>
      intro a _
      rfl
    | cons name names ih =>
      intro a old
      rw [find, find, steps a old]
      cases found : t.vfsFindChild a name with
      | none => rfl
      | some b => exact ih b (child_made (vfsFindChild_some found).1).2
  exact finds 0 t.root_made

lemma unreached_child {child : Nat} (unreached : ∀ names, t.find 0 names ≠ some p)
    (member : child ∈ t.children p) (names : List (List UInt8)) : t.find 0 names ≠ some child := by
  intro found
  rcases (chain_of_find found).last with ⟨-, rfl⟩ | ⟨before, b, same, member', -⟩
  · have := t.child_parent p 0 member
    rw [t.root_parent] at this
    cases this
  have parents := (t.child_parent p child member).symm.trans (t.child_parent b child member')
  rw [same, find_append] at found
  obtain ⟨a, first, last⟩ := bind_eq_some_iff.mp found
  obtain ⟨c, step, rest⟩ := bind_eq_some_iff.mp last
  cases rest
  have parents := (t.child_parent p _ member).symm.trans (t.child_parent a _ (vfsFindChild_some step).1)
  cases parents
  exact unreached before first

lemma register_unreached (made : curr < t.made) (unreached : ∀ names, t.find 0 names ≠ some curr) :
    Unchanged t (register leaf t curr parts) := by
  induction parts generalizing t curr with
  | nil => exact .refl t
  | cons part parts ih =>
    cases parts with
    | nil => exact insert_unchanged _ made (.inr unreached)
    | cons next parts =>
      rw [register]
      cases found : t.vfsFindChild curr part with
      | some dir =>
        have member := (vfsFindChild_some found).1
        exact ih (child_made member).2 (unreached_child unreached member)
      | none =>
        have first := insert_unchanged (.blank part .directory) made (.inr unreached)
        refine first.trans (ih ?_ fun names there => ?_)
        · rw [insert_made]
          exact lt_succ_self _
        · rw [first.finds] at there
          exact lt_irrefl _ (find_made t.root_made there)

lemma register_blocked (made : curr < t.made)
    (inside : other <+: parts) (apart : other ≠ parts) (found : t.find curr other = some n)
    (blocks : (t.info n).type ≠ .directory) : Unchanged t (register leaf t curr parts) := by
  induction parts generalizing curr other with
  | nil => exact absurd (prefix_nil.mp inside) apart
  | cons part parts ih =>
    cases other with
    | nil =>
      obtain rfl : curr = n := some.inj found
      cases parts with
      | nil => exact insert_unchanged _ made (.inl blocks)
      | cons next parts =>
        have missing : t.vfsFindChild curr part = none := if_neg blocks
        have first := insert_unchanged (.blank part .directory) made (.inl blocks)
        rw [register, missing]
        refine first.trans (register_unreached ?_ fun names there => ?_)
        · rw [insert_made]
          exact lt_succ_self _
        · rw [first.finds] at there
          exact lt_irrefl _ (find_made t.root_made there)
    | cons name other =>
      obtain ⟨rfl, inside'⟩ := cons_prefix_cons.mp inside
      have apart' : other ≠ parts := fun same => apart (same ▸ rfl)
      obtain ⟨dir, step, rest⟩ := bind_eq_some_iff.mp found
      cases parts with
      | nil => exact absurd (prefix_nil.mp inside') apart'
      | cons next parts =>
        rw [register, step]
        exact ih (child_made (vfsFindChild_some step).1).2 inside' apart' rest

end Tree

end Znu.Vfs
