import Znu.Mm.UserMemory

/-! # The system calls that grow an address space

`sys_brk` and `sys_mmap`, called any number of times with any arguments. Neither tests
whether its range lies in the user half or is already mapped, so what they should
guarantee holds for runs in which each range is a free part of the user half.
-/

namespace Znu.Syscall

open Lib Mm Option Tables Phys

/-- The value of `-1` in a register. -/
def minusOne : Nat := 2 ^ 64 - 1

/-! ## `sys_brk` -/

/-- The state `sys_brk` works on. -/
structure Brk where
  phys : Phys
  brkStart : Nat
  brk : Nat

/-- With the result in the second component. -/
def sysBrk (nx : Bool) (root : Nat) (s : Brk) (addr : Nat) : Option (Brk × Nat) :=
  if addr = 0 then some (s, s.brk) else
  if addr < s.brkStart then some (s, minusOne) else
  if s.brk < addr then
    match mapFreshRange nx s.phys (root * 4096) (pageAlignUp s.brk) (pageAlignUp addr) with
    | none => none
    | some phys => some ({ s with phys, brk := addr }, addr)
  else some ({ s with brk := addr }, addr)

/-- The break is read, refused, or set; then the pages up to it are mapped. -/
lemma sysBrk_cases {nx : Bool} {root addr ret : Nat} {s s' : Brk}
    (returned : sysBrk nx root s addr = some (s', ret)) :
    (addr = 0 ∧ s' = s ∧ ret = s.brk) ∨ (addr ≠ 0 ∧ addr < s.brkStart ∧ s' = s ∧ ret = minusOne) ∨
      addr ≠ 0 ∧ s.brkStart ≤ addr ∧ ret = addr ∧ ∃ phys, s' = { s with phys := phys, brk := addr } ∧
        (addr ≤ s.brk ∧ phys = s.phys ∨ s.brk < addr ∧ mapFreshRange nx s.phys (root * 4096)
          (pageAlignUp s.brk) (pageAlignUp addr) = some phys) := by
  unfold sysBrk at returned
  split at returned
  · cases returned
    exact .inl ⟨‹_›, rfl, rfl⟩
  split at returned
  · cases returned
    exact .inr (.inl ⟨‹_›, ‹_›, rfl, rfl⟩)
  split at returned
  · split at returned
    · cases returned
    cases returned
    exact .inr (.inr ⟨‹_›, by omega, rfl, _, rfl, .inr ⟨‹_›, ‹_›⟩⟩)
  · cases returned
    exact .inr (.inr ⟨‹_›, by omega, rfl, _, rfl, .inl ⟨by omega, rfl⟩⟩)

namespace Brk

/-- The call does not grow the heap, or grows it over unmapped pages of the user half. -/
def Fits (root : Nat) (s : Brk) (addr : Nat) : Prop :=
  addr = 0 ∨ addr < s.brkStart ∨ addr ≤ s.brk ∨
    addr < userEnd ∧ ∀ v, pageAlignUp s.brk ≤ v → v < pageAlignUp addr → s.phys.Unmapped root v

def Step (nx : Bool) (root : Nat) (s : Brk) (addr : Nat) (s' : Brk) : Prop :=
  s.Fits root addr ∧ ∃ result, sysBrk nx root s addr = some (s', result)

structure Sane (root : Nat) (s : Brk) : Prop where
  tables : Tables everywhere root s.phys
  opened : s.phys.OpenTables root
  aligned : s.brkStart % 4096 = 0
  low : s.brkStart ≤ s.brk
  high : s.brk < userEnd
  pages : ∀ v, s.brkStart ≤ v → v < s.brk → s.phys.UserWritable root v

variable {nx : Bool} {root : Nat} {s s' : Brk}

/-- The rest of the last page of the heap is mapped too. -/
lemma Sane.rounded (sane : s.Sane root) {v : Nat} (lower : s.brkStart ≤ v)
    (upper : v < pageAlignUp s.brk) : s.phys.UserWritable root v := by
  obtain ⟨-, -, aligned, low, high, pages⟩ := sane
  by_cases inside : v < s.brk
  · exact pages v lower inside
  have bound : s.brk < 0x800000000000 := by simpa only [userEnd] using high
  have bounds : pageDown s.brk < s.brk ∧ v / 4096 = pageDown s.brk / 4096 ∧
      s.brkStart ≤ pageDown s.brk ∧ v < 0x800000000000 := by
    simp only [pageAlignUp, pageDown] at upper ⊢
    omega
  obtain ⟨below, samePage, above, userV⟩ := bounds
  have userV : v < userEnd := by simpa only [userEnd] using userV
  have same : path v = path (pageDown s.brk) :=
    (path_eq_iff userV (below.trans high)).mpr samePage
  have page := pages _ above below
  exact ⟨same ▸ page.page, same ▸ page.tables⟩

lemma step_spec {addr : Nat} (sane : s.Sane root) (step : s.Step nx root addr s') :
    s'.Sane root ∧ Extends root s.phys s'.phys := by
  obtain ⟨fits, result, returned⟩ := step
  obtain ⟨-, rfl, -⟩ | ⟨-, -, rfl, -⟩ | ⟨notQuery, above, -, phys, rfl, shrinks | ⟨grows, mapped⟩⟩ :=
    sysBrk_cases returned
  · exact ⟨sane, .refl sane.tables⟩
  · exact ⟨sane, .refl sane.tables⟩
  · obtain ⟨shrinks, rfl⟩ := shrinks
    exact ⟨⟨sane.tables, sane.opened, sane.aligned, above, lt_of_le_of_lt shrinks sane.high,
      fun v lower upper => sane.pages v lower (lt_of_lt_of_le upper shrinks)⟩, .refl sane.tables⟩
  · obtain ⟨user, absent⟩ : addr < userEnd ∧ ∀ v, pageAlignUp s.brk ≤ v → v < pageAlignUp addr →
        s.phys.Unmapped root v := by
      rcases fits with query | below | inside | growth
      · exact absurd query notQuery
      · omega
      · omega
      · exact growth
    have room : pageAlignUp addr ≤ userEnd ∧ addr ≤ pageAlignUp addr := by
      simp only [userEnd, pageAlignUp, pageDown] at user ⊢
      omega
    obtain ⟨extends_, pages⟩ := mapFreshLoop_spec sane.tables sane.opened room.1
      (by simp [pageAlignUp, pageDown]) absent mapped
    refine ⟨⟨extends_.inv, extends_.openTables sane.opened, sane.aligned,
      sane.low.trans grows.le, user, fun v lower upper => ?_⟩, extends_⟩
    by_cases old : v < pageAlignUp s.brk
    · exact extends_.userWritable (sane.rounded lower old)
    · exact pages v (by omega) (lt_of_lt_of_le upper room.2)

/-- In every run whose calls grow the heap only over unmapped pages of the user half, the
    break stays in the user half, the heap is mapped for the user, and no call changes the
    translation or the contents of a page that was mapped before. -/
theorem brk_of_fits {addrs : List Nat} (start : s.Sane root) (run : Run (Step nx root) s addrs s') :
    s'.brkStart ≤ s'.brk ∧ s'.brk < userEnd ∧
      (∀ v, s'.brkStart ≤ v → v < s'.brk → s'.phys.UserWritable root v) ∧
      ∀ addr s'', s'.Step nx root addr s'' →
        (∀ v, ¬ s'.phys.Unmapped root v → vmmVirtToPhys s''.phys.mem (root * 4096) v =
          vmmVirtToPhys s'.phys.mem (root * 4096) v) ∧
        ∀ g, g ∉ s'.phys.free → ¬ Tables.Holds userHalf root s'.phys g →
          ∀ x, x / 4096 = g → s''.phys.mem x = s'.phys.mem x := by
  have sane : s'.Sane root :=
    run.invariant (fun _ _ _ sane step => (step_spec sane step).1) start
  refine ⟨sane.low, sane.high, sane.pages, fun addr s'' step => ?_⟩
  have extends_ := (step_spec sane step).2
  exact ⟨fun v mapped => extends_.virtToPhys sane.tables mapped,
    fun g used notTable => (extends_.others g used notTable).2⟩

/-- A process with an empty address space and an empty heap. -/
def fresh : Brk := ⟨blank, 0x400000, 0x400000⟩

lemma fresh_sane : fresh.Sane 7 where
  tables := blank_tables.1
  opened := .of_empty blank_vacant
  aligned := by decide
  low := by decide
  high := by simp [fresh, userEnd]
  pages v lower upper := absurd (lower.trans_lt upper) (by decide)

theorem grown_heap_is_mapped : ∃ s', Run (Step true 7) fresh [0x400800, 0] s' ∧ s'.brk = 0x400800 ∧
    s'.phys.UserWritable 7 0x400234 := by
  obtain ⟨⟨s', result⟩, returned, isStart, isBrk⟩ : ∃ x, sysBrk true 7 fresh 0x400800 = some x ∧
      x.1.brkStart = 0x400000 ∧ x.1.brk = 0x400800 := by
    refine ⟨_, (some_get ?_).symm, ?_, ?_⟩ <;> decide +kernel
  have fits : fresh.Fits 7 0x400800 :=
    .inr (.inr (.inr ⟨by simp [userEnd], fun v _ _ => .of_empty blank_vacant v⟩))
  have run : Run (Step true 7) fresh [0x400800, 0] s' :=
    .cons ⟨fits, result, returned⟩ (.cons ⟨.inl rfl, s'.brk, rfl⟩ (.nil s'))
  exact ⟨s', run, isBrk, (brk_of_fits fresh_sane run).2.2.1 _ (isStart ▸ by decide) (isBrk ▸ by decide)⟩

/-- After the heap has shrunk, growing it again replaces a page that is still mapped; and a
    break at the end of the address space is accepted without mapping anything. -/
theorem regrown_heap_loses_page : (∃ s₁ s₂ s₃ r₁ r₂ r₃,
      sysBrk true 7 fresh 0x401000 = some (s₁, r₁) ∧ sysBrk true 7 s₁ 0x400000 = some (s₂, r₂) ∧
      sysBrk true 7 s₂ 0x401000 = some (s₃, r₃) ∧
      vmmVirtToPhys s₂.phys.mem (7 * 4096) 0x400000 = 0x1000 ∧
      vmmVirtToPhys s₃.phys.mem (7 * 4096) 0x400000 = 0x5000) ∧
    ∃ s' r, sysBrk true 7 fresh (2 ^ 64 - 1) = some (s', r) ∧ ¬ s'.brk < userEnd := by
  constructor
  · refine ⟨_, _, _, _, _, _, (some_get ?_).symm, (some_get ?_).symm,
      (some_get ?_).symm, ?_, ?_⟩ <;> decide +kernel
  · refine ⟨_, _, (some_get ?_).symm, ?_⟩ <;> decide +kernel

end Brk

/-! ## `sys_mmap` -/

/-- The state `sys_mmap` works on: all memory, and the static `mmap_bump` that all
    processes share. -/
structure Mmap where
  phys : Phys
  mmapBump : Nat

def mapAnonymous : Nat := 0x20

/-- With the result in the second component. -/
def sysMmap (nx : Bool) (root : Nat) (s : Mmap) (addr len flags : Nat) : Option (Mmap × Nat) :=
  if flags &&& mapAnonymous = 0 then some (s, minusOne) else
  let start := if addr = 0 then s.mmapBump else addr
  let bump := if addr = 0 then (s.mmapBump + pageAlignUp len) % 2 ^ 64 else s.mmapBump
  match mapFreshRange nx s.phys (root * 4096) (pageDown start) ((start + len) % 2 ^ 64) with
  | none => none
  | some phys => some (⟨phys, bump⟩, start)

/-- A call with `MAP_ANONYMOUS`. -/
structure Mmap.Call (P : Type) where
  process : P
  addr : Nat
  len : Nat
  flags : Nat
  anonymous : flags &&& mapAnonymous ≠ 0

namespace Mmap

variable {P : Type} {nx : Bool} {roots : P → Nat} {s s' : Mmap}

/-- Where the range of the call begins. -/
def first (s : Mmap) (call : Call P) : Nat := if call.addr = 0 then s.mmapBump else call.addr

/-- The call maps nothing, or an unmapped part of the user half. -/
def Fits (roots : P → Nat) (s : Mmap) (call : Call P) : Prop :=
  call.len = 0 ∧ s.first call % 4096 = 0 ∨
    s.first call + call.len ≤ userEnd ∧ ∀ v, pageDown (s.first call) ≤ v →
      v < s.first call + call.len → s.phys.Unmapped (roots call.process) v

structure Sane (roots : P → Nat) (s : Mmap) : Prop where
  tables : ∀ p, Tables everywhere (roots p) s.phys
  opened : ∀ p, s.phys.OpenTables (roots p)
  apart : ∀ p q g, p ≠ q → Tables.Holds userHalf (roots p) s.phys g →
    ¬ Tables.Holds everywhere (roots q) s.phys g
  aligned : s.mmapBump % 4096 = 0
  user : s.mmapBump ≤ userEnd

variable {call : Call P} {p : P}

section

variable (sane : s.Sane roots)

include sane

lemma range_spec {phys : Phys} (fits : s.Fits roots call)
    (mapped : mapFreshRange nx s.phys (roots call.process * 4096) (pageDown (s.first call))
      ((s.first call + call.len) % 2 ^ 64) = some phys) :
    Extends (roots call.process) s.phys phys ∧ ∀ v, s.first call ≤ v → v < s.first call + call.len →
      phys.UserWritable (roots call.process) v := by
  rcases fits with ⟨empty, aligned⟩ | ⟨user, absent⟩
  · have done : ¬ pageDown (s.first call) < (s.first call + call.len) % 2 ^ 64 := by
      rw [pageDown, empty]
      omega
    rw [mapFreshRange, mapFreshLoop, if_neg done] at mapped
    cases mapped
    exact ⟨.refl (sane.tables _), fun v lower upper => by omega⟩
  · have small : (s.first call + call.len) % 2 ^ 64 = s.first call + call.len := Nat.mod_eq_of_lt (by
      simp only [userEnd] at user
      omega)
    rw [small] at mapped
    obtain ⟨extends_, pages⟩ := mapFreshLoop_spec (sane.tables _) (sane.opened _) user
      (by simp [pageDown]) absent mapped
    exact ⟨extends_, fun v lower upper => pages v ((Nat.div_mul_le_self _ _).trans lower) upper⟩

/-- The bump pointer stays aligned in the user half and passes every range it gives. -/
lemma bump_spec (fits : s.Fits roots call)
    (chosen : call.addr = 0) {bump : Nat} (isBump : bump = (s.mmapBump + pageAlignUp call.len) % 2 ^ 64) :
    bump % 4096 = 0 ∧ bump ≤ userEnd ∧ s.mmapBump + call.len ≤ bump := by
  have aligned := sane.aligned
  have user := sane.user
  have range : call.len = 0 ∨ s.mmapBump + call.len ≤ userEnd := by
    rcases fits with ⟨empty, -⟩ | ⟨inside, -⟩
    · exact .inl empty
    · rw [first, if_pos chosen] at inside
      exact .inr inside
  simp only [userEnd, pageAlignUp, pageDown] at user range isBump ⊢
  omega

/-- Another process keeps its tables. -/
lemma other_spec {q : P} (extends_ : Extends (roots p) s.phys s'.phys)
    (different : q ≠ p) : Tables everywhere (roots q) s'.phys ∧
      (∀ r, TablePath everywhere r → s'.phys.table (roots q) r = s.phys.table (roots q) r) ∧
      ∀ r, EntryPath everywhere r → s'.phys.live (roots q) r = s.phys.live (roots q) r := by
  refine (sane.tables q).congr (fun g isTable => ?_) extends_.taken
  obtain ⟨r, at_r, found⟩ := isTable
  have used := (sane.tables q).used r g at_r found
  exact (extends_.others g used fun mine => sane.apart p q g different.symm mine ⟨r, at_r, found⟩).2

lemma Sane.step (extends_ : Extends (roots p) s.phys s'.phys)
    (aligned : s'.mmapBump % 4096 = 0) (user : s'.mmapBump ≤ userEnd) : s'.Sane roots := by
  have holds : ∀ q, q ≠ p → ∀ g, Holds everywhere (roots q) s'.phys g →
      Holds everywhere (roots q) s.phys g := by
    rintro q different g ⟨r, at_r, found⟩
    exact ⟨r, at_r, ((other_spec sane extends_ different).2.1 r at_r).symm.trans found⟩
  have holdsUser : ∀ q, q ≠ p → ∀ g, Holds userHalf (roots q) s'.phys g →
      Holds userHalf (roots q) s.phys g := by
    rintro q different g ⟨r, at_r, found⟩
    exact ⟨r, at_r, ((other_spec sane extends_ different).2.1 r (tablePath_everywhere at_r)).symm.trans found⟩
  have usedBy : ∀ q g, Holds everywhere (roots q) s.phys g → g ∉ s.phys.free := by
    rintro q g ⟨r, at_r, found⟩
    exact (sane.tables q).used r g at_r found
  refine ⟨fun q => ?_, fun q => ?_, fun q₁ q₂ g different mine theirs => ?_, aligned, user⟩
  · by_cases same : q = p
    · exact same ▸ extends_.inv
    · exact (other_spec sane extends_ same).1
  · by_cases same : q = p
    · exact same ▸ extends_.openTables (sane.opened p)
    · intro r e at_r short there
      rw [(other_spec sane extends_ same).2.2 r (entryPath_everywhere at_r)] at there
      exact sane.opened q r e at_r short there
  · by_cases first : q₁ = p
    · subst first
      have before := holds q₂ different.symm g theirs
      exact (extends_.others g (usedBy q₂ g before) fun old =>
        sane.apart q₁ q₂ g different old before).1 mine
    have before := holdsUser q₁ first g mine
    by_cases second : q₂ = p
    · subst second
      rcases extends_.born g theirs with old | new
      · exact sane.apart q₁ q₂ g different before old
      · obtain ⟨r, at_r, found⟩ := before
        exact usedBy q₁ g ⟨r, tablePath_everywhere at_r, found⟩ new
    · exact sane.apart q₁ q₂ g different before (holds q₂ second g theirs)

lemma call_spec {result : Nat} (fits : s.Fits roots call)
    (returned : sysMmap nx (roots call.process) s call.addr call.len call.flags = some (s', result)) :
    s'.Sane roots ∧ Extends (roots call.process) s.phys s'.phys ∧
      (∀ v, result ≤ v → v < result + call.len → s'.phys.UserWritable (roots call.process) v) ∧
      s.mmapBump ≤ s'.mmapBump ∧
      (call.addr = 0 → result = s.mmapBump ∧ s.mmapBump + call.len ≤ s'.mmapBump) := by
  simp only [sysMmap, if_neg call.anonymous] at returned
  split at returned
  · cases returned
  rename_i phys mapped
  cases returned
  obtain ⟨extends_, pages⟩ := range_spec sane fits mapped
  by_cases chosen : call.addr = 0
  · obtain ⟨aligned, user, passed⟩ := bump_spec sane fits chosen rfl
    simp only [if_pos chosen]
    refine ⟨sane.step extends_ aligned user, extends_, ?_, by omega, fun _ => ⟨trivial, passed⟩⟩
    simpa only [first, if_pos chosen] using pages
  simp only [if_neg chosen]
  refine ⟨sane.step extends_ sane.aligned sane.user, extends_, ?_, le_rfl, fun isNull => absurd isNull chosen⟩
  simpa only [first, if_neg chosen] using pages

end

/-- A call that meets its condition, with the list of the ranges given for `addr = NULL`. -/
def Step (nx : Bool) (roots : P → Nat) (s : Mmap × List (Nat × Nat)) (call : Call P)
    (s' : Mmap × List (Nat × Nat)) : Prop :=
  s.1.Fits roots call ∧ ∃ result,
    sysMmap nx (roots call.process) s.1 call.addr call.len call.flags = some (s'.1, result) ∧
    s'.2 = if call.addr = 0 then (result, call.len) :: s.2 else s.2

/-- Two ranges, given by start and length, do not overlap. -/
def Disjoint (a b : Nat × Nat) : Prop := a.1 + a.2 ≤ b.1 ∨ b.1 + b.2 ≤ a.1

structure Given (roots : P → Nat) (s : Mmap × List (Nat × Nat)) : Prop where
  sane : s.1.Sane roots
  below : ∀ r ∈ s.2, r.1 + r.2 ≤ s.1.mmapBump
  disjoint : s.2.Pairwise Disjoint

lemma Given.step {s s' : Mmap × List (Nat × Nat)} (given : Given roots s)
    (step : Step nx roots s call s') : Given roots s' := by
  obtain ⟨fits, result, returned, list⟩ := step
  obtain ⟨sane, -, -, grows, null⟩ := call_spec given.sane fits returned
  have still : ∀ r ∈ s.2, r.1 + r.2 ≤ s'.1.mmapBump := fun r listed => (given.below r listed).trans grows
  by_cases chosen : call.addr = 0
  · obtain ⟨rfl, passed⟩ := null chosen
    rw [if_pos chosen] at list
    refine ⟨sane, ?_, ?_⟩
    · rw [list]
      exact List.forall_mem_cons.mpr ⟨passed, still⟩
    · rw [list]
      exact List.pairwise_cons.mpr ⟨fun r listed => .inr (given.below r listed), given.disjoint⟩
  · rw [if_neg chosen] at list
    exact ⟨sane, list ▸ still, list ▸ given.disjoint⟩

/-- In every run whose calls map nothing or an unmapped part of the user half, the ranges
    given for `addr = NULL` are disjoint, and no call changes a translation in the kernel
    half or of a mapped page, in any process; the range it returns is mapped for the
    user. -/
theorem mmap_of_fits {s s' : Mmap × List (Nat × Nat)} {calls : List (Call P)} (start : s.1.Sane roots)
    (none_given : s.2 = []) (run : Run (Step nx roots) s calls s') :
    s'.2.Pairwise Disjoint ∧ ∀ call s'' result, s'.1.Fits roots call →
      sysMmap nx (roots call.process) s'.1 call.addr call.len call.flags = some (s'', result) →
      (∀ p v, 256 ≤ pml4Idx v ∨ ¬ s'.1.phys.Unmapped (roots p) v →
        vmmVirtToPhys s''.phys.mem (roots p * 4096) v =
          vmmVirtToPhys s'.1.phys.mem (roots p * 4096) v) ∧
      ∀ v, result ≤ v → v < result + call.len → s''.phys.UserWritable (roots call.process) v := by
  have given : Given roots s' := run.invariant (fun _ _ _ => Given.step)
    ⟨start, by simp [none_given], by simp [none_given]⟩
  refine ⟨given.disjoint, fun call s'' result fits returned => ?_⟩
  obtain ⟨sane, extends_, pages, -, -⟩ := call_spec given.sane fits returned
  refine ⟨fun p v case => ?_, pages⟩
  by_cases same : p = call.process
  · subst same
    rcases case with kernel | mapped
    · exact extends_.virtToPhys_kernel (given.sane.tables _) kernel
    · exact extends_.virtToPhys (given.sane.tables _) mapped
  have lives := (other_spec given.sane extends_ same).2.2
  have leaf : ∀ r, EntryPath everywhere r → s''.phys.leaf (roots p) r = s'.1.phys.leaf (roots p) r :=
    fun r at_r => by rw [Phys.leaf, Phys.leaf, lives r at_r]
  rw [(sane.tables p).virtToPhys (entryPath_path v),
    (given.sane.tables p).virtToPhys (entryPath_path v), Phys.translation, Phys.translation,
    leaf _ (entryPath_path v), leaf _ (Tables.entryPath_directory (entryPath_path v)),
    leaf _ (Tables.entryPath_pointers (entryPath_path v))]

/-- One process, with an empty address space. -/
def fresh : Mmap := ⟨blank, 0x600000000000⟩

lemma fresh_sane : fresh.Sane fun _ : Unit => 7 where
  tables _ := blank_tables.1
  opened _ := .of_empty blank_vacant
  apart p q g different := absurd (Subsingleton.elim p q) different
  aligned := by decide
  user := by simp [fresh, userEnd]

def anonymousCall (addr len : Nat) : Call Unit := ⟨(), addr, len, mapAnonymous, by decide⟩

theorem given_range_is_mapped :
    ∃ s', Run (Step true fun _ => 7) (fresh, []) [anonymousCall 0 0x800] s' ∧
      s'.2.Pairwise Disjoint ∧ s'.1.phys.UserWritable 7 0x600000000234 := by
  obtain ⟨⟨s', result⟩, returned, isResult⟩ : ∃ x, sysMmap true 7 fresh 0 0x800 mapAnonymous = some x ∧
      x.2 = 0x600000000000 := by
    refine ⟨_, (some_get ?_).symm, ?_⟩ <;> decide +kernel
  obtain rfl : result = 0x600000000000 := isResult
  have fits : fresh.Fits (fun _ => 7) (anonymousCall 0 0x800) :=
    .inr ⟨by simp [userEnd, first, fresh, anonymousCall], fun v _ _ => .of_empty blank_vacant v⟩
  have step : Step true (fun _ => 7) (fresh, []) (anonymousCall 0 0x800)
      (s', [(0x600000000000, 0x800)]) := ⟨fits, _, returned, rfl⟩
  have run := Run.cons step (.nil _)
  have pages := ((mmap_of_fits fresh_sane rfl (.nil (fresh, []))).2 _ s' _ fits returned).2
  exact ⟨_, run, (mmap_of_fits fresh_sane rfl run).1, pages _ (by decide) (by decide)⟩

/-- A call may map a kernel address, replace a page of the process, and return a range that
    is neither mapped nor its own. -/
theorem unchecked_ranges :
    (∃ s' r, sysMmap true 7 fresh 0xFFFF800000000000 4096 mapAnonymous = some (s', r) ∧
      vmmVirtToPhys fresh.phys.mem (7 * 4096) 0xFFFF800000000000 = 0 ∧
      vmmVirtToPhys s'.phys.mem (7 * 4096) 0xFFFF800000000000 = 0x1000) ∧
    (∃ s₁ s₂ r₁ r₂, sysMmap true 7 fresh 0x400000 4096 mapAnonymous = some (s₁, r₁) ∧
      sysMmap true 7 s₁ 0x400000 4096 mapAnonymous = some (s₂, r₂) ∧
      vmmVirtToPhys s₁.phys.mem (7 * 4096) 0x400000 = 0x1000 ∧
      vmmVirtToPhys s₂.phys.mem (7 * 4096) 0x400000 = 0x5000) ∧
    ∃ x y, sysMmap true 7 fresh 0 (2 ^ 64 - 1) mapAnonymous = some x ∧
      sysMmap true 7 x.1 0 (2 ^ 64 - 1) mapAnonymous = some y ∧ x.2 = 0x600000000000 ∧ y.2 = x.2 ∧
      vmmVirtToPhys y.1.phys.mem (7 * 4096) x.2 = 0 := by
  refine ⟨?_, ?_, ?_⟩
  · refine ⟨_, _, (some_get ?_).symm, ?_, ?_⟩ <;> decide +kernel
  · refine ⟨_, _, _, _, (some_get ?_).symm, (some_get ?_).symm, ?_, ?_⟩ <;> decide +kernel
  · refine ⟨_, _, (some_get ?_).symm, (some_get ?_).symm, ?_, ?_, ?_⟩ <;> decide +kernel

end Mmap

end Znu.Syscall
