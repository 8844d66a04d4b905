
import Znu.Elf.Fresh
import Znu.Elf.Stack

/-! # The layout of the initial stack

What the pushes of `elf_build_stack` do to the address space. Words are written
where they belong.
-/

namespace Znu.Elf

open Lib Mm List Space CString

/-- A 64-bit word at an address. -/
def HoldsWord (A : Space) (a v : Nat) : Prop := ∀ i < 8, A (a + i) = some (Bytes.digit v i)

lemma sub64_eq {a n : Nat} (small : n ≤ a) : sub64 a n = a - n := if_pos small

variable {own : Nat → Prop} {root : Nat} {s : Phys} {A : Space}

/-- Pushing words writes exactly the words below the stack pointer, the last one lowest. -/
lemma pushWords_spec (refines : Refines own root s A) (ws : List Nat) (sp : Nat)
    (aligned : sp % 8 = 0) (room : 8 * ws.length ≤ sp) (user : sp ≤ userEnd)
    (mapped : ∀ w, sp - 8 * ws.length ≤ w → w < sp → A w ≠ none) :
    (pushWords (root * 4096) ws s sp).2 = sp - 8 * ws.length ∧
    ∃ B, Wrote own root s (pushWords (root * 4096) ws s sp).1 B (fun w => sp - 8 * ws.length ≤ w ∧ w < sp) ∧
      (∀ w, w < sp - 8 * ws.length ∨ sp ≤ w → B w = A w) ∧
      ∀ m v, ws.reverse[m]? = some v → HoldsWord B (sp - 8 * ws.length + 8 * m) v := by
  induction ws generalizing s A sp with
  | nil =>
    refine ⟨rfl, A, ⟨refines, fun _ _ => rfl, fun _ _ => .refl _ s⟩, fun _ _ => rfl, ?_⟩
    intro m v listed
    cases listed
  | cons v ws ih =>
    simp only [length_cons] at room mapped ⊢
    have next : sub64 sp 8 = sp - 8 := sub64_eq (by omega)
    simp only [pushWords, next]
    have here := refines.hhdmWrite64_spec (sp - 8) v (by omega) (by omega)
    obtain ⟨newSp, B, wrote, outside, words⟩ := ih here.refines (sp - 8) (by omega) (by omega)
      (by omega) (fun w lower upper => fill_ne_none (mapped w (by omega) (by omega)))
    have bottom : sp - 8 - 8 * ws.length = sp - 8 * (ws.length + 1) := by omega
    rw [bottom] at newSp words
    refine ⟨newSp, B, ?_, ?_, ?_⟩
    · refine (here.trans wrote fun w range => by omega).widen fun w range => ?_
      omega
    · intro w away
      rw [outside w (by omega), fill_outside (by omega)]
    intro m u listed
    rw [reverse_cons, getElem?_append] at listed
    split at listed
    · exact words m u listed
    rename_i past
    obtain ⟨last, rfl⟩ := List.getElem?_eq_some_iff.mp listed
    simp only [length_reverse, length_singleton] at past last
    obtain rfl : m = ws.length := by omega
    intro i small
    have there := mapped (sp - 8 + i) (by omega) (by omega)
    obtain ⟨b, byte⟩ := Option.ne_none_iff_exists'.mp there
    have place : sp - 8 * (ws.length + 1) + 8 * ws.length + i = sp - 8 + i := by omega
    rw [place, outside _ (by omega), fill_inside (by omega) (by omega), byte, Nat.add_sub_cancel_left]
    simp

lemma pushString_sp (pml4 : Nat) (str : CString) (s : Phys) (sp : Nat) (aligned : sp % 8 = 0)
    (room : str.size ≤ sp) : (pushString pml4 str s sp).2 = sp - str.size := by
  unfold size at *
  simp only [pushString]
  rw [sub64_eq (by omega)]
  omega

end Znu.Elf
