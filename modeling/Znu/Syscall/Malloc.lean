import Znu.Lib.Along
import Znu.Syscall.Memory

/-! # `malloc` of the user library

`malloc` asks for the break and moves it. The rounded size, the new break and the product in `calloc` can
all wrap, and `sys_brk` takes an address below the break too. A result is good exactly if nothing wraps.
-/

namespace Znu.Syscall

open Lib Mm Option List

/-- `(size + 15) & ~15` -/
def roundSize (size : Nat) : Nat := (size + 15) % 2 ^ 64 / 16 * 16

/-- With the result in the second component; 0 is `NULL`. -/
def malloc (nx : Bool) (root : Nat) (s : Brk) (size : Nat) : Option (Brk × Nat) :=
  if size = 0 then some (s, 0) else do
    let (s, currentBrk) ← sysBrk nx root s 0
    let (s, ret) ← sysBrk nx root s ((currentBrk + roundSize size) % 2 ^ 64)
    return (s, if ret = minusOne then 0 else currentBrk)

inductive Request where
  | malloc (size : Nat)
  | calloc (nmemb size : Nat)

open Request

/-- The number of bytes the caller asks for. -/
def Request.wanted : Request → Nat
  | .malloc size => size
  | .calloc nmemb size => nmemb * size

/-- The number of bytes `malloc` is asked for. -/
def Request.size (r : Request) : Nat := r.wanted % 2 ^ 64

/-- A process, and the blocks it has got with the sizes it asked for. -/
structure Heap where
  brk : Brk
  blocks : List (Nat × Nat)

namespace Heap

variable (nx : Bool) (root : Nat)

/-- The break that a request leads to. -/
def next (h : Heap) (r : Request) : Nat := (h.brk.brk + roundSize r.size) % 2 ^ 64

/-- `calloc` also clears the block, which has no part in this. -/
def step (h : Heap) (r : Request) : Heap :=
  match malloc nx root h.brk r.size with
  | none => h
  | some (s, p) => ⟨s, if p = 0 then h.blocks else (p, r.wanted) :: h.blocks⟩

/-- The blocks are aligned, do not overlap, and are inside the mapped heap. -/
structure Good (h : Heap) : Prop where
  aligned : ∀ b ∈ h.blocks, b.1 % 16 = 0
  disjoint : h.blocks.Pairwise fun a b => a.1 + a.2 ≤ b.1 ∨ b.1 + b.2 ≤ a.1
  inside : ∀ b ∈ h.blocks, h.brk.brkStart ≤ b.1 ∧ b.1 + b.2 ≤ h.brk.brk
  mapped : ∀ v, h.brk.brkStart ≤ v → v < h.brk.brk → h.brk.phys.UserWritable root v

/-- There is memory for the call, and the heap grows over unmapped pages of the user half if it grows. -/
def Served (h : Heap) (r : Request) : Prop :=
  h.brk.Fits root (h.next r) ∧ (sysBrk nx root h.brk (h.next r)).isSome

/-- The result is `NULL`, or nothing wraps. -/
def Careful (h : Heap) (r : Request) : Prop :=
  r.size = 0 ∨ h.next r ≠ 0 ∧ h.next r < h.brk.brkStart ∨
    r.wanted + 15 < 2 ^ 64 ∧ h.next r = h.brk.brk + roundSize r.wanted

structure Inv (h : Heap) : Prop extends Good root h where
  sane : h.brk.Sane root
  even : h.brk.brk % 16 = 0
  positive : 0 < h.brk.brkStart

variable {nx root} {h : Heap} {r : Request}

lemma step_of_zero (none : r.size = 0) : h.step nx root r = h := by
  simp [step, malloc, none]

lemma step_of_brk {s : Brk} {ret : Nat} (some_size : r.size ≠ 0)
    (returned : sysBrk nx root h.brk (h.next r) = some (s, ret)) :
    h.step nx root r = ⟨s, if ret = minusOne ∨ h.brk.brk = 0 then h.blocks
      else (h.brk.brk, r.wanted) :: h.blocks⟩ := by
  have query : sysBrk nx root h.brk 0 = some (h.brk, h.brk.brk) := rfl
  rw [next] at returned
  simp only [step, malloc, if_neg some_size, query, Option.bind_eq_bind, Option.bind_some, returned,
    Option.pure_def]
  split <;> split <;> simp_all

section

variable (inv : Inv root h) (served : h.Served nx root r)

include inv served

/-- What a request does that is served and asks for something. -/
lemma step_cases (some_size : r.size ≠ 0) :
    (h.step nx root r).brk.Sane root ∧ (h.step nx root r).brk.brkStart = h.brk.brkStart ∧
      ((h.next r ≠ 0 ∧ h.next r < h.brk.brkStart ∧ h.step nx root r = h) ∨
        (¬ (h.next r ≠ 0 ∧ h.next r < h.brk.brkStart) ∧
          (h.step nx root r).blocks = (h.brk.brk, r.wanted) :: h.blocks ∧
          (h.step nx root r).brk.brk = if h.next r = 0 then h.brk.brk else h.next r)) := by
  obtain ⟨fits, there⟩ := served
  obtain ⟨⟨s, ret⟩, returned⟩ := isSome_iff_exists.mp there
  have sane := (Brk.step_spec inv.sane ⟨fits, ret, returned⟩).1
  have low := inv.sane.low
  have high := inv.sane.high
  have limit : userEnd < minusOne := by simp [userEnd, minusOne]
  have positive := inv.positive
  rw [step_of_brk some_size returned]
  obtain ⟨zero, rfl, rfl⟩ | ⟨nonzero, below, rfl, rfl⟩ | ⟨nonzero, above, rfl, _, rfl, -⟩ :=
    sysBrk_cases returned
  · refine ⟨sane, rfl, .inr ⟨fun refused => refused.1 zero, ?_, ?_⟩⟩
    · rw [if_neg (by omega)]
    · rw [if_pos zero]
  · refine ⟨sane, rfl, .inl ⟨nonzero, below, ?_⟩⟩
    rw [if_pos (.inl rfl)]
  · have small : h.next r < userEnd := sane.high
    refine ⟨sane, rfl, .inr ⟨fun refused => absurd refused.2 (by omega), ?_, ?_⟩⟩
    · rw [if_neg (by omega)]
    · rw [if_neg nonzero]

lemma step_careful (careful : h.Careful r) : Inv root (h.step nx root r) := by
  obtain none | some_size := eq_or_ne r.size 0
  · rw [step_of_zero none]
    exact inv
  obtain ⟨sane, start, ⟨-, -, same⟩ | ⟨granted, blocks, brk⟩⟩ := step_cases inv served some_size
  · rw [same]
    exact inv
  obtain ⟨plain, next⟩ : r.wanted + 15 < 2 ^ 64 ∧ h.next r = h.brk.brk + roundSize r.wanted := by
    obtain none | refused | plain := careful
    · exact absurd none some_size
    · exact absurd refused granted
    · exact plain
  have even := inv.even
  have low := inv.sane.low
  have wanted : 0 < r.wanted := Nat.pos_of_ne_zero fun none => some_size (by rw [size, none]; rfl)
  have grown : (h.step nx root r).brk.brk = h.brk.brk + (r.wanted + 15) / 16 * 16 := by
    rw [roundSize, Nat.mod_eq_of_lt plain] at next
    rw [brk, if_neg (by omega), next]
  refine ⟨⟨?_, ?_, ?_, sane.pages⟩, sane, by omega, start ▸ inv.positive⟩
  · rw [blocks]
    exact forall_mem_cons.mpr ⟨even, inv.aligned⟩
  · rw [blocks]
    exact pairwise_cons.mpr ⟨fun b listed => .inr (inv.inside b listed).2, inv.disjoint⟩
  · rw [blocks, start, grown]
    refine forall_mem_cons.mpr ⟨⟨low, by dsimp only; omega⟩, fun b listed => ?_⟩
    have := inv.inside b listed
    omega

lemma good_step_iff : Good root (h.step nx root r) ↔ h.Careful r := by
  refine ⟨fun good => ?_, fun careful => (step_careful inv served careful).toGood⟩
  obtain none | some_size := eq_or_ne r.size 0
  · exact .inl none
  obtain ⟨sane, -, ⟨nonzero, below, -⟩ | ⟨-, blocks, -⟩⟩ := step_cases inv served some_size
  · exact .inr (.inl ⟨nonzero, below⟩)
  have within := (good.inside (h.brk.brk, r.wanted) (by rw [blocks]; exact mem_cons_self)).2
  have high := sane.high
  have small := inv.sane.high
  simp only [userEnd] at high small
  have plain : r.wanted + 15 < 2 ^ 64 := by omega
  refine .inr (.inr ⟨plain, ?_⟩)
  rw [next, size, Nat.mod_eq_of_lt (by omega : r.wanted < 2 ^ 64), roundSize,
    Nat.mod_eq_of_lt plain, Nat.mod_eq_of_lt (by omega)]

end

/-- In a history in which the heap grows over free pages if it grows, all results are good exactly if nothing
    wraps in a call that returns a block. -/
theorem blocks_good_iff (rs : List Request) (start : Inv root h)
    (served : Along (step nx root) (Served nx root) h rs) :
    Along (step nx root) (fun h r => Good root (h.step nx root r)) h rs ↔
      Along (step nx root) Careful h rs :=
  Along.congr (I := Inv root) (fun _ _ inv served => good_step_iff inv served)
    (fun _ _ inv served careful => step_careful inv served careful) start served

def fresh : Heap := ⟨Brk.fresh, []⟩

lemma fresh_inv : Inv 7 fresh :=
  ⟨⟨nofun, .nil, nofun, Brk.fresh_sane.pages⟩, Brk.fresh_sane, by decide, by decide⟩

theorem first_block_good : Good 7 (fresh.step true 7 (.calloc 100 20)) := by
  have served : Served true 7 fresh (.calloc 100 20) :=
    ⟨.inr (.inr (.inr ⟨by simp [userEnd, fresh, next, Brk.fresh, roundSize, Request.size, Request.wanted],
      fun v _ _ => .of_empty blank_vacant v⟩)), by decide +kernel⟩
  exact ((blocks_good_iff [.calloc 100 20] fresh_inv ⟨served, trivial⟩).mpr
    ⟨.inr (.inr ⟨by decide, by decide⟩), trivial⟩).1

/-- Two blocks of almost all of memory, at the same address. -/
theorem blocks_overlap : ((fresh.step true 7 (.malloc (2 ^ 64 - 1))).step true 7
      (.calloc 3 6148914691236517216)).blocks = [(0x400000, 2 ^ 64 + 32), (0x400000, 2 ^ 64 - 1)] := by
  decide +kernel

end Heap

end Znu.Syscall
