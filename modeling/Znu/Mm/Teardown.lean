import Znu.Mm.Clone

/-! # Freeing an address space

`vmm_free_user_pages` walks the user half of an address space and gives every page and
every table below the root back to the frame allocator, clearing the entries behind it.
A log records which entries it reads and which addresses it frees, in order.

The processor takes bits 12 to 51 of an entry for the frame. The kernel masks only the
low twelve bits, so the two agree on entries below `2 ^ 52` and on no others.
-/

namespace Znu.Mm

open Lib Lib.Radix Option List Phys Bytes

inductive Access
  | load (a : Nat)
  | pfree (a : Nat)

/-- Physical memory with the accesses so far, the last one first. -/
structure Sweep where
  phys : Phys
  log : List Access

def Phys.pfree (s : Phys) (a : Nat) : Phys :=
  if a = 0 then s else { s with free := a / 4096 :: s.free }

namespace Sweep

def load (s : Sweep) (a : Nat) : Sweep × Nat :=
  (⟨s.phys, .load a :: s.log⟩, s.phys.read64 a)

def pfree (s : Sweep) (a : Nat) : Sweep := ⟨s.phys.pfree a, .pfree a :: s.log⟩

def write64 (s : Sweep) (a v : Nat) : Sweep := { s with phys := s.phys.write64 a v }

/-- The arguments of the calls of `pfree`, the last one first. -/
def freed (s : Sweep) : List Nat :=
  s.log.filterMap fun
    | .pfree a => some a
    | .load _ => none

end Sweep

/-- One of the loops: free what is below the present entries that are not skipped, then
    what they point to, and clear them. -/
def freeLoop (skip : Nat → Bool) (visit : Sweep → Nat → Sweep) (table : Nat) :
    List (Fin 512) → Sweep → Sweep
  | [], s => s
  | i :: is, s =>
    let (s, e) := s.load (table + 8 * i)
    if !present e || skip e then freeLoop skip visit table is s else
    let s := (visit s (pageDown e)).pfree (pageDown e)
    freeLoop skip visit table is (s.write64 (table + 8 * i) 0)

def freePt (s : Sweep) (pt : Nat) : Sweep :=
  freeLoop (fun _ => false) (fun s _ => s) pt allEntries s

def freePd (s : Sweep) (pd : Nat) : Sweep := freeLoop huge freePt pd allEntries s

def freePdpt (s : Sweep) (pdpt : Nat) : Sweep := freeLoop huge freePd pdpt allEntries s

/-- The root is `none` for the null pointer. -/
def vmmFreeUserPages (s : Sweep) : Option Nat → Sweep
  | none => s
  | some pml4 => freeLoop (fun _ => false) freePdpt pml4 userEntries s

/-! ## What the processor reaches -/

/-- Bits 12 to 51 of an entry. -/
def frameOf (e : Nat) : Nat := e / 4096 % 2 ^ 40

/-- The frame that slot `i` of the table in frame `t` leads to, if its entry is one to follow. -/
def pointer (follow : Nat → Bool) (m : Bytes) (t : Nat) (i : Fin 512) : Option Nat :=
  let e := m.word (t * 4096 + 8 * i) 8
  if follow e then some (frameOf e) else none

def Phys.reach (s : Phys) (root : Nat) (p : List (Fin 512)) : Option Nat :=
  node (pointer present s.mem) root p

/-- The entry at a path through tables. -/
def Phys.reachEntry (s : Phys) (root : Nat) : List (Fin 512) → Option Nat
  | [] => none
  | i :: p => (node (pointer isTable s.mem) root p).map (s.entry · i)

def kernelHalf (i : Fin 512) : Prop := 256 ≤ i.val

/-- A user half made of tables and 4 KiB pages, in which no frame can be reached twice. -/
structure Prunable (s : Phys) (root : Nat) : Prop where
  tree : IsTree (pointer present s.mem) root userPath
  small : ∀ p t (i : Fin 512), userPath (i :: p) → 0 < p.length → p.length < 3 →
    s.reach root p = some t → present (s.entry t i) = true → huge (s.entry t i) = false

/-- One whose tables the kernel half does not use. -/
structure Disposable (s : Phys) (root : Nat) : Prop extends Prunable s root where
  apart : ∀ p q t, TablePath kernelHalf p → p ≠ [] → TablePath userHalf q →
    node (pointer isTable s.mem) root p = some t → s.reach root q ≠ some t

/-- The present entry at the path has no bit above 51. -/
def CleanAt (s : Phys) (root : Nat) : List (Fin 512) → Prop
  | [] => True
  | i :: p => ∀ t, s.reach root p = some t → present (s.entry t i) = true → s.entry t i < 2 ^ 52

def Reached (s : Phys) (root : Nat) (q : List (Fin 512)) : Prop :=
  userPath q ∧ ∃ f, s.reach root q = some f

/-- No table is read after it was freed. -/
def Access.Allowed (later earlier : Access) : Prop :=
  match later, earlier with
  | .load a, .pfree b => a / 4096 ≠ b / 4096
  | _, _ => True

/-- The address of the frame at a path. -/
def Phys.place (s : Phys) (root : Nat) (q : List (Fin 512)) : Nat := (s.reach root q).getD 0 * 4096

/-- The state after the paths of `V` were freed, the last one first. -/
structure Swept (s₀ : Phys) (root : Nat) (V : List (List (Fin 512))) (s : Sweep) : Prop where
  nodup : V.Nodup
  visited : ∀ q ∈ V, q ≠ [] ∧ Reached s₀ root q ∧ CleanAt s₀ root q
  mem : ∀ x, (∀ i p t, i :: p ∈ V → s₀.reach root p = some t →
    ¬ (t * 4096 + 8 * i ≤ x ∧ x < t * 4096 + 8 * i + 8)) → s.phys.mem x = s₀.mem x
  cleared : ∀ i p t, i :: p ∈ V → s₀.reach root p = some t → s.phys.entry t i = 0
  freed : s.freed = V.map (s₀.place root)
  allowed : s.log.Pairwise Access.Allowed
  free : s.phys.free = (s.freed.filter (· ≠ 0)).map (· / 4096) ++ s₀.free

/-- Either the entries below the root are clean, or the addresses freed so far look so. -/
def Sane (s₀ : Phys) (root : Nat) (s : Sweep) : Prop :=
  (∀ q, userPath q → CleanAt s₀ root q) ∨ ∀ a ∈ s.freed, a < 2 ^ 52

/-- Visiting the path `q` frees what is below it. -/
def Sweeps (s₀ : Phys) (root : Nat) (visit : Sweep → Nat → Sweep) (q : List (Fin 512)) : Prop :=
  ∀ V s f, s₀.reach root q = some f → Swept s₀ root V s → (∀ r ∈ V, ¬ q <:+ r) →
    Sane s₀ root (visit s (f * 4096)) → ∃ L, Swept s₀ root (L ++ V) (visit s (f * 4096)) ∧
      ∀ r, r ∈ L ↔ Below q r ∧ Reached s₀ root r

namespace Sweep

@[simp] lemma freed_pfree (s : Sweep) (a : Nat) : (s.pfree a).freed = a :: s.freed := by
  simp [freed, pfree]

@[simp] lemma freed_load (s : Sweep) (a : Nat) : (s.load a).1.freed = s.freed := by
  simp [freed, load]

@[simp] lemma freed_write64 (s : Sweep) (a v : Nat) : (s.write64 a v).freed = s.freed := rfl

lemma mem_freed {s : Sweep} {a : Nat} : a ∈ s.freed ↔ .pfree a ∈ s.log := by
  simp only [freed, mem_filterMap]
  constructor
  · rintro ⟨x, listed, value⟩
    cases x with
    | load b => cases value
    | pfree b => cases value; exact listed
  · exact fun listed => ⟨_, listed, rfl⟩

end Sweep

lemma freeLoop_grows {skip : Nat → Bool} {visit : Sweep → Nat → Sweep}
    (grows : ∀ s a, s.freed <:+ (visit s a).freed) (table : Nat) (is : List (Fin 512)) (s : Sweep) :
    s.freed <:+ (freeLoop skip visit table is s).freed := by
  induction is generalizing s with
  | nil => exact suffix_rfl
  | cons i is ih =>
    simp only [freeLoop]
    split
    · exact s.freed_load _ ▸ ih _
    refine List.IsSuffix.trans ?_ (ih _)
    rw [Sweep.freed_write64, Sweep.freed_pfree, ← s.freed_load (table + 8 * i)]
    exact (grows _ _).trans (suffix_cons _ _)

section

variable {s₀ : Phys} {root : Nat} {V : List (List (Fin 512))} {s : Sweep} {i : Fin 512}
  {p is : List (Fin 512)} {t f : Nat}

lemma Sane.mono {s' : Sweep} (sane : Sane s₀ root s') (grown : s.freed <:+ s'.freed) : Sane s₀ root s :=
  sane.imp_right fun low a listed => low a (grown.subset listed)

lemma reach_cons (found : s₀.reach root p = some t) (i : Fin 512) : s₀.reach root (i :: p) =
    if present (s₀.entry t i) then some (frameOf (s₀.entry t i)) else none :=
  node_cons found i

variable {q : List (Fin 512)}

lemma Prunable.reach_unique (tree : Prunable s₀ root) (at_p : userPath p) (at_q : userPath q)
    (left : s₀.reach root p = some t) (right : s₀.reach root q = some t) : p = q :=
  tree.tree.injective p q t at_p at_q left right

lemma reached_suffix (reached : Reached s₀ root q) (above : p <:+ q) : Reached s₀ root p := by
  induction q with
  | nil => rwa [suffix_nil.mp above]
  | cons j q ih =>
    rcases suffix_cons_iff.mp above with same | deeper
    · rwa [same]
    obtain ⟨at_q, f, found⟩ := reached
    refine ih ⟨userPath_tail j q at_q, ?_⟩ deeper
    obtain ⟨t, parent, -⟩ := bind_eq_some_iff.mp found
    exact ⟨t, parent⟩

namespace Swept

lemma entry (swept : Swept s₀ root V s) (tree : Prunable s₀ root) (at_q : userPath (i :: p))
    (found : s₀.reach root p = some t) (outside : i :: p ∉ V) : s.phys.entry t i = s₀.entry t i := by
  refine word_congr fun x lower upper => swept.mem x fun j q u listed there inside => ?_
  have frame : u = t := by omega
  have slot : j = i := Fin.ext (by omega)
  subst frame slot
  have at_j := (swept.visited _ listed).2.1.1
  have path := tree.reach_unique (userPath_tail _ _ at_j) (userPath_tail _ _ at_q) there found
  exact outside (path ▸ listed)

/-- The table at a path that was not freed may be read. -/
lemma load (swept : Swept s₀ root V s) (tree : Prunable s₀ root) (at_p : userPath p)
    (found : s₀.reach root p = some t) (outside : p ∉ V) (i : Fin 512) :
    Swept s₀ root V (s.load (t * 4096 + 8 * i)).1 where
  nodup := swept.nodup
  visited := swept.visited
  mem := swept.mem
  cleared := swept.cleared
  freed := by rw [Sweep.freed_load, swept.freed]
  allowed := by
    refine pairwise_cons.mpr ⟨fun x listed => ?_, swept.allowed⟩
    cases x with
    | load b => trivial
    | pfree b =>
      rw [← Sweep.mem_freed, swept.freed, List.mem_map] at listed
      obtain ⟨q, visited, rfl⟩ := listed
      obtain ⟨-, ⟨at_q, f, reached⟩, -⟩ := swept.visited q visited
      intro same
      have frame : f = t := by
        rw [place, reached, getD_some] at same
        omega
      exact outside (tree.reach_unique at_p at_q found (frame ▸ reached) ▸ visited)
  free := by rw [Sweep.freed_load]; exact swept.free

lemma close (swept : Swept s₀ root V s) (at_q : userPath (i :: p))
    (found : s₀.reach root p = some t) (there : s₀.reach root (i :: p) = some f)
    (clean : CleanAt s₀ root (i :: p)) (outside : i :: p ∉ V) :
    Swept s₀ root ((i :: p) :: V) ((s.pfree (f * 4096)).write64 (t * 4096 + 8 * i) 0) where
  nodup := nodup_cons.mpr ⟨outside, swept.nodup⟩
  visited := by
    intro q listed
    rcases mem_cons.mp listed with rfl | earlier
    · exact ⟨by simp, ⟨at_q, f, there⟩, clean⟩
    · exact swept.visited q earlier
  mem := by
    intro x away
    have kept := swept.mem x fun j q u listed => away j q u (mem_cons_of_mem _ listed)
    have here := away i p t mem_cons_self found
    rw [← kept, Sweep.write64, write64_mem, store_outside here, Sweep.pfree, pfree]
    split <;> rfl
  cleared := by
    intro j q u listed above
    by_cases same : u = t ∧ j = i
    · obtain ⟨rfl, rfl⟩ := same
      exact entry_write_same _ u j (by decide)
    rw [Sweep.write64, entry_write_other _ _ same]
    have earlier : j :: q ∈ V := by
      refine (mem_cons.mp listed).resolve_left fun path => same ?_
      obtain ⟨rfl, rfl⟩ := cons.inj path
      exact ⟨some.inj (above.symm.trans found), rfl⟩
    have zero := swept.cleared j q u earlier above
    rw [Sweep.pfree, pfree]
    split <;> exact zero
  freed := by
    rw [Sweep.freed_write64, Sweep.freed_pfree, swept.freed, map_cons, place, there, getD_some]
  allowed := pairwise_cons.mpr ⟨fun _ _ => trivial, swept.allowed⟩
  free := by
    rw [Sweep.freed_write64, Sweep.freed_pfree, Sweep.write64, write64_free, Sweep.pfree, pfree]
    by_cases null : f * 4096 = 0 <;> simp [null, swept.free]

end Swept

variable {e : Nat} {j : Fin 512} {skip : Nat → Bool} {visit : Sweep → Nat → Sweep}

/-- The frame the kernel takes the entry to mean is the one the processor does. -/
lemma frame_of_clean (clean : e < 2 ^ 52) : e / 4096 = frameOf e := by
  rw [frameOf]
  omega

lemma clean_of_low (low : pageDown e < 2 ^ 52) : e < 2 ^ 52 := by
  rw [pageDown] at low
  omega

/-- What a loop over the table at `p` frees. -/
lemma freeLoop_sweeps (tree : Prunable s₀ root)
    (grows : ∀ s a, s.freed <:+ (visit s a).freed) (at_p : userPath p)
    (found : s₀.reach root p = some t) (inside : ∀ i ∈ is, userPath (i :: p))
    (once : is.Nodup) (sweeps : ∀ i ∈ is, Sweeps s₀ root visit (i :: p))
    (visits : ∀ i ∈ is, present (s₀.entry t i) = true → skip (s₀.entry t i) = false)
    (swept : Swept s₀ root V s) (outside : p ∉ V) (later : ∀ i ∈ is, ∀ r ∈ V, ¬ (i :: p) <:+ r)
    (sane : Sane s₀ root (freeLoop skip visit (t * 4096) is s)) :
    ∃ L, Swept s₀ root (L ++ V) (freeLoop skip visit (t * 4096) is s) ∧
      ∀ r, r ∈ L ↔ (∃ i ∈ is, (i :: p) <:+ r) ∧ Reached s₀ root r := by
  induction is generalizing V s with
  | nil => exact ⟨[], swept, by simp⟩
  | cons i is ih =>
    obtain ⟨fresh, once⟩ := nodup_cons.mp once
    obtain ⟨at_i, inside⟩ := forall_mem_cons.mp inside
    obtain ⟨sweep, sweeps⟩ := forall_mem_cons.mp sweeps
    obtain ⟨visited, visits⟩ := forall_mem_cons.mp visits
    obtain ⟨after, later⟩ := forall_mem_cons.mp later
    have notYet : i :: p ∉ V := fun listed => after _ listed suffix_rfl
    have loaded := swept.load tree at_p found outside i
    have same : (s.load (t * 4096 + 8 * i)).2 = s₀.entry t i := swept.entry tree at_i found notYet
    have child := reach_cons found i
    simp only [freeLoop] at sane ⊢
    rw [same] at sane ⊢
    by_cases there : present (s₀.entry t i) = true
    · have taken := visited there
      rw [if_pos there] at child
      simp only [there, taken, Bool.not_true, Bool.or_self, Bool.false_eq_true, if_false] at sane ⊢
      have clean : s₀.entry t i < 2 ^ 52 := by
        rcases sane with entries | low
        · exact entries _ at_i t found there
        · refine clean_of_low (low _ ((freeLoop_grows grows _ _ _).subset ?_))
          exact mem_cons_self
      have frame : pageDown (s₀.entry t i) = frameOf (s₀.entry t i) * 4096 := by
        rw [pageDown, frame_of_clean clean]
      rw [frame] at sane ⊢
      have visiting : Sane s₀ root (visit (s.load (t * 4096 + 8 * i)).1 (frameOf (s₀.entry t i) * 4096)) := by
        refine sane.mono (List.IsSuffix.trans ?_ (freeLoop_grows grows _ _ _))
        exact suffix_cons _ _
      obtain ⟨L, below, members⟩ := sweep V _ _ child loaded after visiting
      have notBelow : i :: p ∉ L ++ V := fun listed =>
        (mem_append.mp listed).elim (fun early => ((members _).mp early).1.2 rfl) notYet
      have closed := below.close at_i found child
        (fun u above _ => some.inj (found.symm.trans above) ▸ clean) notBelow
      have outside' : p ∉ (i :: p) :: (L ++ V) := by
        intro listed
        rcases mem_cons.mp listed with same | listed
        · exact cons_ne_self i p same.symm
        rcases mem_append.mp listed with early | early
        · have short := ((members p).mp early).1.1.length_le
          simp at short
        · exact outside early
      have later' : ∀ j ∈ is, ∀ r ∈ (i :: p) :: (L ++ V), ¬ (j :: p) <:+ r := by
        intro j listed r visited under
        have above : (i :: p) <:+ r → False := fun high =>
          fresh (index_unique high under ▸ listed)
        rcases mem_cons.mp visited with rfl | visited
        · exact above suffix_rfl
        rcases mem_append.mp visited with early | early
        · exact above ((members r).mp early).1.1
        · exact later j listed r early under
      obtain ⟨L', rest, members'⟩ := ih inside once sweeps visits closed outside' later' sane
      refine ⟨L' ++ (i :: p) :: L, by simpa using rest, fun r => ?_⟩
      rw [mem_append, mem_cons, members', members]
      constructor
      · rintro (⟨⟨j, listed, under⟩, reached⟩ | rfl | ⟨⟨under, -⟩, reached⟩)
        · exact ⟨⟨j, mem_cons_of_mem _ listed, under⟩, reached⟩
        · exact ⟨⟨i, mem_cons_self, suffix_rfl⟩, at_i, _, child⟩
        · exact ⟨⟨i, mem_cons_self, under⟩, reached⟩
      · rintro ⟨⟨j, listed, under⟩, reached⟩
        rcases mem_cons.mp listed with rfl | listed
        · by_cases here : r = j :: p
          · exact .inr (.inl here)
          · exact .inr (.inr ⟨⟨under, here⟩, reached⟩)
        · exact .inl ⟨⟨j, listed, under⟩, reached⟩
    · have absent : (!present (s₀.entry t i) || skip (s₀.entry t i)) = true := by simp [there]
      rw [if_pos absent] at sane ⊢
      rw [if_neg there] at child
      obtain ⟨L, rest, members⟩ := ih inside once sweeps visits loaded outside later sane
      refine ⟨L, rest, fun r => ?_⟩
      rw [members, exists_mem_cons_iff]
      refine and_congr_left fun reached => (or_iff_right fun under => ?_).symm
      obtain ⟨-, f, there⟩ := reached_suffix reached under
      cases child.symm.trans there

/-! ## The levels -/

lemma sweeps_page (full : q.length = 4) : Sweeps s₀ root (fun s _ => s) q := by
  intro V s f found swept later sane
  refine ⟨[], swept, fun r => ⟨fun listed => by simp at listed, ?_⟩⟩
  rintro ⟨⟨below, other⟩, ⟨short, -⟩, -⟩
  exact absurd (below.eq_of_length (le_antisymm below.length_le (short.trans full.ge))).symm other

/-- A table below the root is freed by a loop over all its entries. -/
lemma sweeps_table (tree : Prunable s₀ root)
    (grows : ∀ s a, s.freed <:+ (visit s a).freed)
    (at_p : TablePath userHalf (j :: p)) (sweeps : ∀ i, Sweeps s₀ root visit (i :: j :: p))
    (visits : ∀ t i, s₀.reach root (j :: p) = some t → present (s₀.entry t i) = true →
      skip (s₀.entry t i) = false) :
    Sweeps s₀ root (fun s a => freeLoop skip visit a allEntries s) (j :: p) := by
  intro V s f found swept later sane
  obtain ⟨L, done, members⟩ := freeLoop_sweeps tree grows (userPath_of_table at_p) found
    (fun i _ => userPath_of_entry (entryPath_cons at_p)) nodup_allEntries (fun i _ => sweeps i)
    (fun i _ => visits f i found) swept (fun listed => later _ listed suffix_rfl)
    (fun i _ r listed below => later r listed ((suffix_cons i _).trans below)) sane
  exact ⟨L, done, fun r => (members r).trans (and_congr_left' (below_iff _ r))⟩

lemma freePt_grows (s : Sweep) (a : Nat) : s.freed <:+ (freePt s a).freed :=
  freeLoop_grows (fun _ _ => suffix_rfl) a _ s

lemma freePd_grows (s : Sweep) (a : Nat) : s.freed <:+ (freePd s a).freed :=
  freeLoop_grows freePt_grows a _ s

lemma freePdpt_grows (s : Sweep) (a : Nat) : s.freed <:+ (freePdpt s a).freed :=
  freeLoop_grows freePd_grows a _ s

lemma sweeps_pdpt (tree : Prunable s₀ root) (chosen : userHalf i) : Sweeps s₀ root freePdpt [i] := by
  have last : ∀ j ∈ [i].getLast?, userHalf j := by
    rintro j ⟨⟩
    exact chosen
  have small : ∀ j p, TablePath userHalf (j :: p) → (j :: p).length < 3 → ∀ t k,
      s₀.reach root (j :: p) = some t → present (s₀.entry t k) = true →
      huge (s₀.entry t k) = false := fun j p at_p short t k found there =>
    tree.small (j :: p) t k (userPath_of_entry (entryPath_cons at_p)) (by simp) short found there
  refine sweeps_table tree freePd_grows ⟨by simp, last⟩ (fun j => ?_) (small i [] ⟨by simp, last⟩ (by simp))
  have at_j : TablePath userHalf [j, i] := ⟨by simp, by simpa using last⟩
  refine sweeps_table tree freePt_grows at_j (fun k => ?_) (small j [i] at_j (by simp))
  exact sweeps_table tree (fun _ _ => suffix_rfl) ⟨by simp, by simpa using last⟩
    (fun l => sweeps_page rfl) fun _ _ _ _ => rfl

lemma vmmFreeUserPages_swept {s : Phys} (tree : Prunable s root)
    (sane : Sane s root (vmmFreeUserPages ⟨s, []⟩ (some (root * 4096)))) :
    ∃ L, Swept s root L (vmmFreeUserPages ⟨s, []⟩ (some (root * 4096))) ∧
      ∀ q, q ∈ L ↔ q ≠ [] ∧ Reached s root q := by
  have start : Swept s root [] ⟨s, []⟩ :=
    ⟨nodup_nil, by simp, fun _ _ => rfl, by simp, rfl, .nil, rfl⟩
  have top : ∀ i ∈ userEntries, userPath [i] := fun i listed =>
    ⟨by simp, by rintro j ⟨⟩; exact mem_userEntries.mp listed⟩
  obtain ⟨L, done, members⟩ := freeLoop_sweeps tree freePdpt_grows userPath_nil rfl top
    nodup_userEntries (fun i listed => sweeps_pdpt tree (mem_userEntries.mp listed))
    (fun _ _ _ => rfl) start (by simp) (by simp) sane
  rw [append_nil] at done
  refine ⟨L, done, fun q => (members q).trans (and_congr_left fun reached => ?_)⟩
  constructor
  · rintro ⟨i, -, above⟩ rfl
    simp at above
  · intro nonempty
    refine ⟨q.getLast nonempty, mem_userEntries.mpr ?_, ?_⟩
    · exact reached.1.2 _ (getLast?_eq_some_getLast nonempty)
    · exact ⟨q.dropLast, dropLast_append_getLast nonempty⟩

/-! ## Trees of 4 KiB pages -/

namespace UserTree

variable {own : Nat → Prop} {s s' : Phys}

section

variable (inv : UserTree own root s) (low : ∀ f, own f → f < 2 ^ 40)

include inv low

/-- On frames below `2 ^ 40` the processor and the kernel agree. -/
lemma pointer_eq (at_q : userPath (i :: p)) (found : s.walk root p = some t) :
    pointer present s.mem t i = child s.mem t i := by
  by_cases there : present (s.mem.word (t * 4096 + 8 * i) 8) = true
  · have below : s.walk root (i :: p) = some (s.mem.word (t * 4096 + 8 * i) 8 / 4096) := by
      rw [walk, node_cons found i, child, if_pos there]
    have bound := low _ (inv.owned _ _ at_q below).1
    simp only [pointer, child, if_pos there, frameOf, Nat.mod_eq_of_lt bound]
  · simp only [pointer, child, if_neg there]

lemma reach_eq (at_p : userPath p) : s.reach root p = s.walk root p :=
  IsTree.node_congr userPath_tail (fun _ _ _ at_q found => inv.pointer_eq low at_q found) at_p

lemma prunable : Prunable s root where
  tree := inv.tree.congr fun _ _ _ at_q found => inv.pointer_eq low at_q found
  small p t i at_q _ short found _ :=
    inv.small p t i at_q short (inv.reach_eq low (userPath_tail i p at_q) ▸ found)

lemma clean (at_p : userPath p) : CleanAt s root p := by
  cases p with
  | nil => trivial
  | cons i p =>
    intro t found there
    rw [inv.reach_eq low (userPath_tail i p at_p)] at found
    have below : s.walk root (i :: p) = some (s.entry t i / 4096) := by
      rw [walk, node_cons found i]
      exact if_pos there
    have bound := low _ (inv.owned _ _ at_p below).1
    omega

/-- Every frame below the root is given back, and only tables are written. -/
lemma freed (ran : (vmmFreeUserPages ⟨s, []⟩ (some (root * 4096))).phys = s') :
    s'.free.Nodup ∧
    (∀ f, f ∈ s'.free ↔ f ∈ s.free ∨ ∃ q, q ≠ [] ∧ userPath q ∧ s.walk root q = some f) ∧
    ∀ x, ¬ s.IsTable root (x / 4096) → s'.mem x = s.mem x := by
  obtain ⟨L, swept, members⟩ := vmmFreeUserPages_swept (inv.prunable low)
    (.inl fun q at_q => inv.clean low at_q)
  have place : ∀ q ∈ L, ∃ f, s.walk root q = some f ∧ s.place root q = f * 4096 ∧ 0 < f ∧ f ∉ s.free := by
    intro q listed
    obtain ⟨at_q, f, found⟩ := ((members q).mp listed).2
    rw [inv.reach_eq low at_q] at found
    obtain ⟨mine, used⟩ := inv.owned q f at_q found
    refine ⟨f, found, ?_, (inv.valid f mine).1, used⟩
    rw [place, inv.reach_eq low at_q, found, getD_some]
  have free : s'.free = L.map (fun q => s.place root q / 4096) ++ s.free := by
    rw [← ran, swept.free, swept.freed, List.filter_eq_self.mpr, List.map_map]
    · rfl
    · intro a listed
      obtain ⟨q, member, rfl⟩ := mem_map.mp listed
      obtain ⟨f, -, isPlace, positive, -⟩ := place q member
      simp only [decide_eq_true_eq]
      omega
  have given : ∀ f, f ∈ L.map (fun q => s.place root q / 4096) ↔
      ∃ q, q ≠ [] ∧ userPath q ∧ s.walk root q = some f := by
    intro f
    rw [List.mem_map]
    constructor
    · rintro ⟨q, listed, rfl⟩
      obtain ⟨g, found, isPlace, -⟩ := place q listed
      obtain ⟨nonempty, at_q, -⟩ := (members q).mp listed
      exact ⟨q, nonempty, at_q, by rw [found, isPlace, Nat.mul_div_cancel _ (by decide)]⟩
    · rintro ⟨q, nonempty, at_q, found⟩
      have listed : q ∈ L := (members q).mpr ⟨nonempty, at_q, f, by rw [inv.reach_eq low at_q, found]⟩
      obtain ⟨g, found', isPlace, -⟩ := place q listed
      cases found.symm.trans found'
      exact ⟨q, listed, by rw [isPlace, Nat.mul_div_cancel _ (by decide)]⟩
  refine ⟨?_, fun f => by rw [free, mem_append, given, or_comm], fun x outside => ?_⟩
  · rw [free]
    refine nodup_append.mpr ⟨swept.nodup.map_on ?_, inv.nodup, ?_⟩
    · intro q listed r listed' same
      obtain ⟨f, found, isPlace, -⟩ := place q listed
      obtain ⟨g, found', isPlace', -⟩ := place r listed'
      obtain rfl : f = g := by omega
      exact inv.walk_unique ((members q).mp listed).2.1 ((members r).mp listed').2.1 found found'
    · rintro f given' g listed rfl
      obtain ⟨q, -, at_q, found⟩ := (given f).mp given'
      exact (inv.owned q f at_q found).2 listed
  · rw [← ran]
    refine swept.mem x fun i p t listed found inside => outside ?_
    have at_q := ((members _).mp listed).2.1
    have at_p := userPath_tail i p at_q
    rw [inv.reach_eq low at_p] at found
    have frame : x / 4096 = t := by omega
    exact ⟨p, at_p, by have := at_q.1; simp only [length_cons] at this; omega, frame ▸ found⟩

end

end UserTree

/-! ## The whole user half -/

/-- The frames of the user half are freed once each and nothing else is, no table is read
    after it was freed, no user address is mapped any more, and the kernel half and all
    memory outside the user half's tables is as it was. -/
structure FreesUserHalf (s : Phys) (root : Nat) (s' : Sweep) : Prop where
  once : s'.freed.Nodup
  frames : ∀ a, a ∈ s'.freed ↔ ∃ q f, q ≠ [] ∧ userPath q ∧ s.reach root q = some f ∧ a = f * 4096
  allowed : s'.log.Pairwise Access.Allowed
  cleared : ∀ i, userHalf i → s'.phys.entry root i = 0
  unmapped : ∀ virt < userEnd, vmmVirtToPhys s'.phys.mem (root * 4096) virt = 0
  kernel : ∀ q, EntryPath kernelHalf q → s'.phys.reachEntry root q = s.reachEntry root q
  others : ∀ x, (∀ p, TablePath userHalf p → s.reach root p ≠ some (x / 4096)) → s'.phys.mem x = s.mem x

/-- No present entry of the user half has a bit above 51, and the root's other entries are
    zero. -/
structure Tidy (s : Phys) (root : Nat) : Prop where
  clean : ∀ q, userPath q → CleanAt s root q
  blank : ∀ i, userHalf i → present (s.entry root i) = false → s.entry root i = 0

lemma tablePath_of_user (at_q : userPath (j :: q)) : TablePath userHalf q :=
  tablePath_of_cons j q ⟨by simp, at_q⟩

lemma not_reached (absent : present (s₀.entry root i) = false) : ¬ Reached s₀ root [i] := by
  rintro ⟨-, f, found⟩
  rw [reach_cons rfl, absent] at found
  cases found

section

variable {L : List (List (Fin 512))}

section

variable (swept : Swept s₀ root L s)

include swept

/-- The entries of the kernel half are never written. -/
lemma Swept.kernel_entry (tree : Disposable s₀ root) (at_q : EntryPath kernelHalf (i :: p))
    (found : node (pointer isTable s₀.mem) root p = some t) : s.phys.entry t i = s₀.entry t i := by
  refine word_congr fun x lower upper => swept.mem x fun j q u listed there inside => ?_
  have frame : u = t := by omega
  have slot : j = i := Fin.ext (by omega)
  subst frame slot
  have at_j := (swept.visited _ listed).2.1.1
  cases p with
  | cons k p =>
    exact tree.apart _ q u (tablePath_of_cons _ _ at_q) (by simp) (tablePath_of_user at_j) found there
  | nil =>
    have isRoot : u = root := (some.inj found).symm
    have top := tree.toPrunable.reach_unique (userPath_tail _ _ at_j) userPath_nil (isRoot ▸ there) rfl
    subst top
    have low : j.val < 256 := at_j.2 j rfl
    have high : 256 ≤ j.val := at_q.2.2 j rfl
    omega

lemma Swept.kernel (tree : Disposable s₀ root)
    (at_q : EntryPath kernelHalf q) : s.phys.reachEntry root q = s₀.reachEntry root q := by
  cases q with
  | nil => rfl
  | cons i p =>
    have tables : node (pointer isTable s.phys.mem) root p = node (pointer isTable s₀.mem) root p := by
      refine IsTree.node_congr tablePath_tail (fun j r u at_r found => ?_) (tablePath_of_cons i p at_q)
      have entry := swept.kernel_entry tree (entryPath_of_table at_r) found
      rw [Phys.entry, Phys.entry, Phys.read64, Phys.read64] at entry
      simp only [pointer, entry]
    rw [reachEntry, reachEntry, tables]
    cases found : node (pointer isTable s₀.mem) root p with
    | none => rw [map_none, map_none]
    | some t => rw [map_some, map_some, swept.kernel_entry tree at_q found]

lemma Swept.frees (members : ∀ q, q ∈ L ↔ q ≠ [] ∧ Reached s₀ root q) (tree : Disposable s₀ root)
    (blank : ∀ i, userHalf i → present (s₀.entry root i) = false → s₀.entry root i = 0) :
    FreesUserHalf s₀ root s := by
  have cleared : ∀ i, userHalf i → s.phys.entry root i = 0 := by
    intro i chosen
    have at_i : userPath [i] := ⟨by simp, by rintro j ⟨⟩; exact chosen⟩
    by_cases there : present (s₀.entry root i) = true
    · refine swept.cleared i [] root ((members _).mpr ⟨by simp, at_i, frameOf (s₀.entry root i), ?_⟩) rfl
      rw [reach_cons rfl, if_pos there]
    have absent : present (s₀.entry root i) = false := by simpa using there
    rw [swept.entry tree.toPrunable at_i rfl fun listed => not_reached absent ((members _).mp listed).2]
    exact blank i chosen absent
  have address : ∀ {q f}, s₀.reach root q = some f → s₀.place root q = f * 4096 := fun found => by
    rw [place, found, getD_some]
  refine ⟨?_, fun a => ?_, swept.allowed, cleared, fun virt user => ?_,
    fun q at_q => swept.kernel tree at_q, fun x away => ?_⟩
  · rw [swept.freed]
    refine swept.nodup.map_on fun q listed r listed' same => ?_
    obtain ⟨-, ⟨at_q, f, found⟩, -⟩ := swept.visited q listed
    obtain ⟨-, ⟨at_r, g, found'⟩, -⟩ := swept.visited r listed'
    rw [address found, address found'] at same
    have frame : f = g := by omega
    exact tree.toPrunable.reach_unique at_q at_r found (frame ▸ found')
  · rw [swept.freed, List.mem_map]
    constructor
    · rintro ⟨q, listed, rfl⟩
      obtain ⟨nonempty, at_q, f, found⟩ := (members q).mp listed
      exact ⟨q, f, nonempty, at_q, found, address found⟩
    · rintro ⟨q, f, nonempty, at_q, found, rfl⟩
      exact ⟨q, (members q).mpr ⟨nonempty, at_q, f, found⟩, address found⟩
  · have top := (userPath_path user).2 ⟨pml4Idx virt, Nat.mod_lt _ (by decide)⟩ rfl
    have zero := cleared _ top
    rw [Phys.entry, Phys.read64] at zero
    simp only [vmmVirtToPhys, zero, present, Nat.zero_testBit, Bool.not_false, if_true]
  · refine swept.mem x fun j q t listed there inside => ?_
    have frame : x / 4096 = t := by omega
    exact away q (tablePath_of_user ((members _).mp listed).2.1) (frame ▸ there)

end

lemma tidy_of_frees {s : Phys} (tree : Disposable s root)
    (frees : FreesUserHalf s root (vmmFreeUserPages ⟨s, []⟩ (some (root * 4096)))) : Tidy s root := by
  have sane : Sane s root (vmmFreeUserPages ⟨s, []⟩ (some (root * 4096))) := by
    refine .inr fun a listed => ?_
    obtain ⟨q, f, nonempty, -, found, rfl⟩ := (frees.frames a).mp listed
    cases q with
    | nil => exact absurd rfl nonempty
    | cons i p =>
      obtain ⟨t, parent, -⟩ := bind_eq_some_iff.mp found
      rw [reach_cons parent] at found
      split at found
      · have bound : frameOf (s.entry t i) < 2 ^ 40 := Nat.mod_lt _ (by decide)
        rw [some.inj found] at bound
        omega
      · cases found
  obtain ⟨L, swept, members⟩ := vmmFreeUserPages_swept tree.toPrunable sane
  constructor
  · intro q at_q
    cases q with
    | nil => trivial
    | cons i p =>
      intro t found there
      have listed := (members (i :: p)).mpr ⟨by simp, at_q, frameOf (s.entry t i), by
        rw [reach_cons found, if_pos there]⟩
      exact (swept.visited _ listed).2.2 t found there
  · intro i chosen absent
    have at_i : userPath [i] := ⟨by simp, by rintro j ⟨⟩; exact chosen⟩
    rw [← swept.entry tree.toPrunable at_i rfl fun listed => not_reached absent ((members _).mp listed).2]
    exact frees.cleared i chosen

end

/-- Freeing the user half does what it should exactly on tidy tables. -/
theorem frees_user_half_iff {s : Phys} (tree : Disposable s root) :
    FreesUserHalf s root (vmmFreeUserPages ⟨s, []⟩ (some (root * 4096))) ↔ Tidy s root := by
  refine ⟨tidy_of_frees tree, fun tidy => ?_⟩
  obtain ⟨L, swept, members⟩ := vmmFreeUserPages_swept tree.toPrunable (.inl tidy.clean)
  exact swept.frees members tree tidy.blank

end

/-! ## One page -/

/-- Tables in frames 7, 1, 2 and 3 that lead to one leaf. -/
def chain (leaf : Nat) : Phys :=
  ((((⟨fun _ => 0, [], []⟩ : Phys).write64 (7 * 4096 + 8 * (0 : Fin 512)) 0x1007).write64
    (1 * 4096 + 8 * (0 : Fin 512)) 0x2007).write64 (2 * 4096 + 8 * (0 : Fin 512)) 0x3007).write64
    (3 * 4096 + 8 * (0 : Fin 512)) leaf

lemma entry_write (s : Phys) (t u : Nat) (i j : Fin 512) {e : Nat} (fits : e < 2 ^ 64) :
    (s.write64 (t * 4096 + 8 * i) e).entry u j = if u = t ∧ j = i then e else s.entry u j := by
  split
  next same =>
    obtain ⟨rfl, rfl⟩ := same
    exact entry_write_same s u j fits
  next other => exact entry_write_other s e other

def chainPath : Nat → List (Fin 512)
  | 1 => [0]
  | 2 => [0, 0]
  | 3 => [0, 0, 0]
  | 4 => [0, 0, 0, 0]
  | _ => []

section

variable {leaf : Nat}

section

variable (fits : leaf < 2 ^ 64)

include fits

lemma chain_entry (t : Nat) (i : Fin 512) : (chain leaf).entry t i =
    if t = 3 ∧ i = 0 then leaf else if t = 2 ∧ i = 0 then 0x3007 else
    if t = 1 ∧ i = 0 then 0x2007 else if t = 7 ∧ i = 0 then 0x1007 else 0 := by
  have zero : (⟨fun _ => 0, [], []⟩ : Phys).entry t i = 0 := word_zero fun _ _ _ => rfl
  rw [chain, entry_write _ _ _ _ _ fits, entry_write _ _ _ _ _ (by decide),
    entry_write _ _ _ _ _ (by decide), entry_write _ _ _ _ _ (by decide), zero]

lemma chain_reach (frame : frameOf leaf = 4) {p : List (Fin 512)} {f : Nat}
    (found : (chain leaf).reach 7 p = some f) : p = chainPath f ∧ (p = [] → f = 7) := by
  induction p generalizing f with
  | nil =>
    cases found
    exact ⟨rfl, fun _ => rfl⟩
  | cons i p ih =>
    obtain ⟨t, parent, -⟩ := bind_eq_some_iff.mp found
    obtain ⟨path, top⟩ := ih parent
    rw [reach_cons parent] at found
    refine ⟨?_, by simp⟩
    split at found
    next there =>
      rw [chain_entry fits] at there found
      cases found
      split_ifs with at3 at2 at1 at7
      · rw [frame, path, at3.1, at3.2]; rfl
      · rw [path, at2.1, at2.2]; rfl
      · rw [path, at1.1, at1.2]; rfl
      · rw [path, at7.1, at7.2]; rfl
      · simp only [at3, at2, at1, at7, if_false] at there
        cases there
    · cases found

lemma chain_disposable (frame : frameOf leaf = 4) : Disposable (chain leaf) 7 where
  tree := ⟨userPath_tail, fun p q f _ _ left right =>
    (chain_reach fits frame left).1.trans (chain_reach fits frame right).1.symm⟩
  small := by
    intro p t i at_q long short found there
    have path := (chain_reach fits frame found).1
    rw [chain_entry fits] at there ⊢
    split_ifs with at3 at2 at1 at7
    · rw [path, at3.1] at short
      simp [chainPath] at short
    all_goals rfl
  apart := by
    intro p q t at_p nonempty at_q found
    have first : node (pointer isTable (chain leaf).mem) 7 [p.getLast nonempty] = none := by
      have high : 256 ≤ (p.getLast nonempty).val := at_p.2 _ (getLast?_eq_some_getLast nonempty)
      have other : p.getLast nonempty ≠ 0 := by
        rintro zero
        rw [zero] at high
        simp at high
      have entry := chain_entry fits 7 (p.getLast nonempty)
      simp only [other, and_false, if_false] at entry
      rw [Phys.entry, Phys.read64] at entry
      rw [node_cons rfl, pointer, entry]
      rfl
    have below := node_below_none first ⟨p.dropLast, dropLast_append_getLast nonempty⟩
    cases below.symm.trans found

end

end

theorem one_page_is_freed : FreesUserHalf (chain 0x4007) 7
    (vmmFreeUserPages ⟨chain 0x4007, []⟩ (some (7 * 4096))) := by
  have fits : 0x4007 < 2 ^ 64 := by decide
  refine (frees_user_half_iff (chain_disposable fits rfl)).mpr ⟨fun q _ => ?_, fun i _ absent => ?_⟩
  · cases q with
    | nil => trivial
    | cons i p =>
      intro t found there
      rw [chain_entry fits]
      split_ifs <;> decide
  · rw [chain_entry fits] at absent ⊢
    split_ifs at absent ⊢
    all_goals first | rfl | cases absent

end Znu.Mm
