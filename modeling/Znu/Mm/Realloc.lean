import Znu.Mm.Slab

/-! # Resizing blocks

`krealloc` does not know how large a block is: it asks the header of the page the block
is on, and takes any block without a slab header for a page. The second half says how
far a call of the heap moves its top.
-/

namespace Znu.Mm

open Lib Nat

def getAllocationSize (h : Heap) (ptr : Nat) : Nat :=
  if ptr = 0 then 0 else
  let slab := ptr / 4096 * 4096
  if 0 < h.slotSize slab ∧ h.slotSize slab ≤ 2048 then h.slotSize slab else 4096

/-- `memcpy` between two blocks -/
def Heap.copy (h : Heap) (dst src n : Nat) : Heap :=
  { h with mem := h.mem.store dst n fun i => h.mem (src + i) }

def krealloc (h : Heap) (ptr newSize : Nat) : Option (Heap × Nat) :=
  if ptr = 0 then kmalloc h newSize else
  if newSize = 0 then some (kfree h ptr, 0) else
  match kmalloc h newSize with
  | none => none
  | some (h, newPtr) =>
    if newPtr = 0 then some (h, 0) else
    let oldSize := getAllocationSize h ptr
    let copySize := if oldSize < newSize then oldSize else newSize
    some (kfree (h.copy newPtr ptr copySize) ptr, newPtr)

/-! ## Growth -/

/-- `h'` has `n` pages more than `h`, made of frames that `h` could still get. -/
structure Heap.Grown (n : Nat) (h h' : Heap) : Prop where
  frames : h'.frames + n = h.frames
  top : h'.top = (h.top + 4096 * n) % 2 ^ 64

namespace Heap

variable {h h' h'' : Heap} {n size ptr p : Nat}

lemma Grown.same (frames : h'.frames = h.frames) (top : h'.top = h.top) (small : h.top < 2 ^ 64) :
    Grown 0 h h' :=
  ⟨frames, by rw [top, mul_zero, add_zero, mod_eq_of_lt small]⟩

lemma Grown.then_same (grown : Grown n h h') (frames : h''.frames = h'.frames)
    (top : h''.top = h'.top) : Grown n h h'' :=
  ⟨frames ▸ grown.frames, top ▸ grown.top⟩

lemma extend_grown (extended : h.extend n = some h') (small : h.top < 2 ^ 64) : Grown n h h' := by
  induction n generalizing h with
  | zero =>
    cases extended
    exact .same rfl rfl small
  | succ n ih =>
    rw [extend] at extended
    split at extended
    · cases extended
    obtain ⟨used, top⟩ := ih extended (mod_lt _ (by decide))
    simp only at used top
    exact ⟨by omega, by omega⟩

lemma linkSlots_frame (slab n i : Nat) (h : Heap) :
    (linkSlots slab n i h).frames = h.frames ∧ (linkSlots slab n i h).top = h.top := by
  induction n generalizing i h with
  | zero => exact ⟨rfl, rfl⟩
  | succ n ih => exact ih (i + 1) _

lemma newSlab_frame (h : Heap) (slab : Nat) (idx : Fin 8) :
    (newSlab h slab idx).frames = h.frames ∧ (newSlab h slab idx).top = h.top := by
  simp only [newSlab, setNext, write, linkSlots_frame]
  exact ⟨rfl, rfl⟩

lemma takeSlot_frame (h : Heap) (slab : Nat) :
    (takeSlot h slab).1.frames = h.frames ∧ (takeSlot h slab).1.top = h.top := ⟨rfl, rfl⟩

lemma kmalloc_growth (positive : 0 < size) (given : kmalloc h size = some (h', p))
    (small : h.top < 2 ^ 64) :
    ∃ n, Grown n h h' ∧ (size ≤ 2 ^ 64 - 4096 → (∀ idx, h.buckets idx = 0) → 0 < n) := by
  rcases kmalloc_cases positive given with
    ⟨-, extended, -⟩ | ⟨idx, -, ⟨-, h₁, extended, taken⟩ | ⟨real, -, taken⟩⟩
  · exact ⟨_, extend_grown extended small, fun bound _ => by omega⟩
  · obtain ⟨frames, top⟩ := newSlab_frame h₁ h.top idx
    obtain ⟨frames', top'⟩ := takeSlot_frame (newSlab h₁ h.top idx) h.top
    rw [taken] at frames' top'
    exact ⟨1, (extend_grown extended small).then_same (frames'.trans frames) (top'.trans top),
      fun _ _ => by decide⟩
  · obtain ⟨frames, top⟩ := takeSlot_frame h (h.buckets idx)
    rw [taken] at frames top
    exact ⟨0, .same frames top small, fun _ empty => absurd (empty idx) real⟩

lemma kmalloc_grown (given : kmalloc h size = some (h', p)) (small : h.top < 2 ^ 64) : ∃ n, Grown n h h' := by
  by_cases positive : 0 < size
  · obtain ⟨n, grown, -⟩ := kmalloc_growth positive given small
    exact ⟨n, grown⟩
  obtain rfl : size = 0 := by omega
  cases given
  exact ⟨0, .same rfl rfl small⟩

lemma kfree_grown (h : Heap) (ptr : Nat) (small : h.top < 2 ^ 64) : Grown 0 h (kfree h ptr) := by
  obtain ⟨top, frames, -, -⟩ := kfree_frame rfl
  exact .same frames top small

lemma krealloc_grown (given : krealloc h ptr size = some (h', p)) (small : h.top < 2 ^ 64) :
    ∃ n, Grown n h h' := by
  unfold krealloc at given
  split at given
  · exact kmalloc_grown given small
  split at given
  · cases given
    exact ⟨0, kfree_grown h ptr small⟩
  split at given
  · cases given
  rename_i h₁ newPtr fresh
  obtain ⟨n, grown⟩ := kmalloc_grown fresh small
  split at given
  · cases given
    exact ⟨n, grown⟩
  obtain ⟨rfl, -⟩ := Prod.mk.inj (Option.some.inj given)
  obtain ⟨top, frames, -, -⟩ := kfree_frame (h := h₁.copy newPtr ptr _) rfl
  exact ⟨n, grown.then_same frames top⟩

end Heap

end Znu.Mm
