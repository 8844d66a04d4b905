
import Znu.Files.Driver
import Znu.Lib.Fields

/-! # The tree of nodes

Nodes are known by their places in the order of creation; the root is the first. A child
is put in front of the children that are there, and a search stops at the first name that
fits, so that a new node hides an older one of its name and all that is below it.
-/

namespace Znu.Vfs

open Function List Nat Option
open Files (NodeType slash)

/-- The functions of a node: `mem_ops`, `fat32_ops`, or those of a device, which have neither
    `create` nor `find_node`. -/
inductive Ops where
  | mem | fat32 | device
  deriving DecidableEq

/-- The fields of a node apart from its links. -/
structure Info where
  name : List UInt8
  /-- the field has 128 bytes -/
  short : name.length ≤ 127
  type : NodeType
  mode : Nat
  uid : Nat
  gid : Nat
  data : Nat
  size : Nat
  ops : Ops
  isMountpoint : Bool
  /-- `internal_data` is not null and the first word there, taken for `tty`, is not 0 -/
  tty : Bool

def Info.blank (name : List UInt8) (type : NodeType) : Info :=
  ⟨name.take 127, List.length_take_le .., type, 0, 0, 0, 0, 0, .mem, false, false⟩

@[simp] lemma Info.blank_name (name : List UInt8) (type : NodeType) :
    (Info.blank name type).name = name.take 127 := rfl

structure Tree where
  info : Nat → Info
  parent : Nat → Option Nat
  /-- the newest first -/
  children : Nat → List Nat
  /-- how many nodes have been created -/
  made : Nat
  child_parent : ∀ a, ∀ b ∈ children a, parent b = some a
  root_parent : parent 0 = none
  root_made : 0 < made
  loose : ∀ a, made ≤ a → parent a = none
  childless : ∀ a, made ≤ a → children a = []

namespace Tree

variable (t : Tree)

def setInfo (id : Nat) (info : Info) : Tree := { t with info := update t.info id info }

/-- One more node, which is not linked yet. -/
def alloc (info : Info) : Tree :=
  { t.setInfo t.made info with
    made := t.made + 1
    root_made := succ_pos _
    loose := fun a above => t.loose a (by omega)
    childless := fun a above => t.childless a (by omega) }

def vfsCreateNode (name : List UInt8) (type : NodeType) : Option (Nat × Tree) :=
  if name = [] then none else some (t.made, t.alloc (.blank name type))

/-- Both are nodes, and the root is never given as a child. -/
def vfsAddChild (parent child : Nat) : Tree :=
  if attaches : parent < t.made ∧ child < t.made ∧ child ≠ 0 ∧ (t.info parent).type = .directory ∧
      t.parent child = none then
    { t with
      parent := update t.parent child (some parent)
      children := update t.children parent (child :: t.children parent)
      child_parent := by
        intro a b member
        by_cases new : b = child
        · subst new
          by_cases here : a = parent
          · simp [here]
          rw [update_of_ne here] at member
          have := t.child_parent a b member
          rw [attaches.2.2.2.2] at this
          cases this
        · rw [update_of_ne new]
          refine t.child_parent a b ?_
          by_cases here : a = parent
          · subst here
            simpa [new] using member
          · rwa [update_of_ne here] at member
      root_parent := by
        rw [update_of_ne (Ne.symm attaches.2.2.1)]
        exact t.root_parent
      loose := fun a above => by
        rw [update_of_ne (by omega)]
        exact t.loose a above
      childless := fun a above => by
        rw [update_of_ne (by omega)]
        exact t.childless a above }
  else t

def vfsFindChild (parent : Nat) (name : List UInt8) : Option Nat :=
  if (t.info parent).type = .directory then
    (t.children parent).find? fun child => (t.info child).name = name
  else none

/-- The node that is found step by step. -/
def find : Nat → List (List UInt8) → Option Nat
  | a, [] => some a
  | a, name :: names => (t.vfsFindChild a name).bind fun b => find b names

/-- The names on the way down from one node to another. -/
inductive Chain : Nat → List (List UInt8) → Nat → Prop where
  | nil : Chain a [] a
  | cons : b ∈ t.children a → Chain b names c → Chain a ((t.info b).name :: names) c

/-- The node with these names on its chain from the root. -/
def Named (names : List (List UInt8)) (node : Nat) : Prop := t.Chain 0 names node

variable {t} {a b c : Nat} {name : List UInt8} {names names' : List (List UInt8)}

/-- The tree `init_vfs` begins with. -/
def root : Tree where
  info := fun _ => .blank [slash] .directory
  parent := fun _ => none
  children := fun _ => []
  made := 1
  child_parent := fun _ _ member => by cases member
  root_parent := rfl
  root_made := one_pos
  loose := fun _ _ => rfl
  childless := fun _ _ => rfl

/-! ## Chains -/

lemma vfsFindChild_some (found : t.vfsFindChild a name = some b) :
    b ∈ t.children a ∧ (t.info b).name = name := by
  unfold vfsFindChild at found
  split at found
  · have fits := find?_some found
    exact ⟨mem_of_find?_eq_some found, by simpa using fits⟩
  cases found

lemma chain_of_find (found : t.find a names = some b) : t.Chain a names b := by
  induction names generalizing a with
  | nil =>
    cases found
    exact .nil
  | cons name names ih =>
    obtain ⟨next, here, rest⟩ := bind_eq_some_iff.mp found
    obtain ⟨member, rfl⟩ := vfsFindChild_some here
    exact .cons member (ih rest)

/-- The last step of a chain. -/
lemma Chain.last (chain : t.Chain a names c) :
    names = [] ∧ c = a ∨ ∃ names' b, names = names' ++ [(t.info c).name] ∧ c ∈ t.children b ∧
      t.Chain a names' b := by
  induction chain with
  | nil => exact .inl ⟨rfl, rfl⟩
  | @cons a b names c first rest ih =>
    rcases ih with ⟨rfl, rfl⟩ | ⟨names', d, rfl, member, before⟩
    · exact .inr ⟨[], a, rfl, first, .nil⟩
    · exact .inr ⟨_, d, rfl, member, .cons first before⟩

/-- A node has one chain from the root only. -/
lemma Named.unique (first : t.Named names a) (second : t.Named names' a) : names = names' := by
  induction names using reverseRecOn generalizing names' a with
  | nil =>
    cases first
    rcases second.last with ⟨rfl, -⟩ | ⟨_, b, -, member, -⟩
    · rfl
    have := t.child_parent b 0 member
    rw [t.root_parent] at this
    cases this
  | append_singleton names name ih =>
    rcases first.last with ⟨empty, -⟩ | ⟨rest, b, same, member, before⟩
    · simp at empty
    rcases second.last with ⟨-, rfl⟩ | ⟨rest', b', rfl, member', before'⟩
    · have := t.child_parent b 0 member
      rw [t.root_parent] at this
      cases this
    have parents := (t.child_parent b a member).symm.trans (t.child_parent b' a member')
    cases parents
    obtain ⟨rfl, rfl⟩ := append_singleton_inj.mp same
    rw [ih before before']

lemma find_append (a : Nat) (names names' : List (List UInt8)) :
    t.find a (names ++ names') = (t.find a names).bind fun b => t.find b names' := by
  induction names generalizing a with
  | nil => rfl
  | cons name names ih =>
    rw [cons_append, find, find, bind_assoc]
    exact congrArg _ (funext fun b => ih b)

lemma child_made (member : b ∈ t.children a) : a < t.made ∧ b < t.made := by
  constructor
  · by_contra above
    rw [t.childless a (by omega)] at member
    cases member
  · by_contra above
    have := t.child_parent a b member
    rw [t.loose b (by omega)] at this
    cases this

lemma find_made (made : a < t.made) (found : t.find a names = some b) : b < t.made := by
  rcases (chain_of_find found).last with ⟨-, rfl⟩ | ⟨_, _, -, member, -⟩
  · exact made
  · exact (child_made member).2

/-! ## A new node -/

/-- A new node with its place in the tree. -/
def insert (t : Tree) (parent : Nat) (info : Info) : Tree := (t.alloc info).vfsAddChild parent t.made

variable {p : Nat} {info : Info}

lemma insert_info (t : Tree) (p : Nat) (info : Info) :
    (t.insert p info).info = update t.info t.made info := by
  unfold insert vfsAddChild
  split
  · rfl
  · rfl

lemma insert_made (t : Tree) (p : Nat) (info : Info) : (t.insert p info).made = t.made + 1 := by
  unfold insert vfsAddChild
  split
  · rfl
  · rfl

section

variable (made : p < t.made) (directory : (t.info p).type = .directory)

include made directory

/-- The parent takes the node if it is a directory. -/
lemma insert_eq :
    (t.insert p info).children = update t.children p (t.made :: t.children p) ∧
      (t.insert p info).info = update t.info t.made info ∧
      (t.insert p info).made = t.made + 1 := by
  have attaches : p < (t.alloc info).made ∧ t.made < (t.alloc info).made ∧ t.made ≠ 0 ∧
      ((t.alloc info).info p).type = .directory ∧ (t.alloc info).parent t.made = none := by
    refine ⟨lt_succ_of_lt made, lt_succ_self _, pos_iff_ne_zero.mp t.root_made, ?_, ?_⟩
    · have same : (t.alloc info).info p = t.info p := update_of_ne (Nat.ne_of_lt made) ..
      rwa [same]
    · exact t.loose _ (le_refl _)
  rw [insert, vfsAddChild, dif_pos attaches]
  exact ⟨rfl, rfl, rfl⟩

lemma vfsFindChild_insert (old : a ≠ t.made) (name : List UInt8) :
    (t.insert p info).vfsFindChild a name =
      if a = p ∧ info.name = name then some t.made else t.vfsFindChild a name := by
  obtain ⟨children, infos, -⟩ := @insert_eq t p info made directory
  have same : ∀ parent, (t.children parent).find? (fun child =>
      (update t.info t.made info child).name = name) =
      (t.children parent).find? fun child => (t.info child).name = name := by
    intro parent
    refine find?_congr fun child member => ?_
    rw [update_of_ne (Nat.ne_of_lt (child_made member).2)]
  unfold vfsFindChild
  rw [children, infos, update_of_ne old]
  by_cases here : a = p
  · subst here
    rw [if_pos directory, if_pos directory, update_self, find?_cons, same]
    by_cases fits : info.name = name
    · simp [fits]
    · simp [fits]
  · have apart : ¬ (a = p ∧ info.name = name) := fun both => here both.1
    rw [update_of_ne here, if_neg apart, same]

lemma vfsFindChild_new (name : List UInt8) : (t.insert p info).vfsFindChild t.made name = none := by
  obtain ⟨children, -, -⟩ := @insert_eq t p info made directory
  unfold vfsFindChild
  rw [children, update_of_ne (Ne.symm (Nat.ne_of_lt made)), t.childless _ (Nat.le_refl _)]
  split
  · rfl
  · rfl

lemma find_new : (t.insert p info).find t.made names = if names = [] then some t.made else none := by
  cases names with
  | nil => rfl
  | cons name names => rw [find, vfsFindChild_new made directory, if_neg (by simp), bind_none]

/-- A search that does not come to the new node finds what it found. -/
lemma find_insert_other (old : a < t.made)
    (apart : ∀ names' suffix, names = names' ++ info.name :: suffix → t.find a names' ≠ some p) :
    (t.insert p info).find a names = t.find a names := by
  induction names generalizing a with
  | nil => rfl
  | cons name names ih =>
    have here : ¬ (a = p ∧ info.name = name) := by
      rintro ⟨rfl, rfl⟩
      exact apart [] names rfl rfl
    rw [find, find, vfsFindChild_insert made directory (Nat.ne_of_lt old), if_neg here]
    cases found : t.vfsFindChild a name with
    | none => rfl
    | some b =>
      refine ih (child_made (vfsFindChild_some found).1).2 fun names' suffix same => ?_
      have later := apart (name :: names') suffix (by rw [same]; rfl)
      rwa [find, found] at later

end

/-- A new node hides what was found by its names and below them, and nothing else. -/
lemma find_insert (info : Info) (found : t.find 0 names' = some p)
    (directory : (t.info p).type = .directory) (names : List (List UInt8)) :
    (t.insert p info).find 0 names =
      if names' ++ [info.name] <+: names then
        if names = names' ++ [info.name] then some t.made else none
      else t.find 0 names := by
  have made := find_made t.root_made found
  have place : ∀ {other}, t.find 0 other = some p → other = names' := fun {other} there =>
    Named.unique (chain_of_find there) (chain_of_find found)
  have way : (t.insert p info).find 0 names' = some p := by
    rw [← found]
    refine find_insert_other made directory t.root_made fun before suffix same there => ?_
    have := place there
    rw [this] at same
    simp at same
  split
  next under =>
    obtain ⟨suffix, rfl⟩ := under
    have first : (t.insert p info).vfsFindChild p info.name = some t.made := by
      rw [vfsFindChild_insert made directory (Nat.ne_of_lt made), if_pos ⟨rfl, rfl⟩]
    rw [append_assoc, find_append, way, bind_some, singleton_append, find, first,
      bind_some, find_new made directory]
    cases suffix with
    | nil | cons => simp
  rename_i apart
  refine find_insert_other made directory t.root_made fun before suffix same there => apart ?_
  rw [place there] at same
  exact ⟨suffix, by rw [same, append_assoc]; rfl⟩

end Tree

end Znu.Vfs
