import Znu.Elf.Segments

/-! # A fresh address space

`vmm_create_user_pml4` allocates the root table. All frames it and the loader use
afterwards come from the allocator, so the frames that were free at that time are
the ones the new address space may own.
-/

namespace Znu.Elf

open Lib Lib.Radix Mm Phys Bytes

section

variable {s s' : Phys} {kernelPml4 pml4 : Nat} (sound : s.Sound)
   (created : vmmCreateUserPml4 s kernelPml4 = some (s', pml4))

include sound created

lemma vmmCreateUserPml4_tree :
    ∃ root, pml4 = root * 4096 ∧ s.free = root :: s'.free ∧ UserTree (· ∈ s.free) root s' ∧
      (∀ p, userPath p → p ≠ [] → s'.walk root p = none) ∧
      s.Touches (fun x => x / 4096 ∈ s.free) s' := by
  simp only [vmmCreateUserPml4, Option.bind_eq_bind, Option.bind_eq_some_iff] at created
  obtain ⟨⟨s₁, a⟩, allocated, same⟩ := created
  cases same
  obtain ⟨f, rfl, free, used, mem, touches⟩ := pallocZero_spec allocated sound.nodup
  have mine : f ∈ s.free := by simp [free]
  have zero : ∀ x, x / 4096 = f → s₁.mem x = 0 := by
    intro x inside
    rw [mem, store_inside (by omega) (by omega)]
  obtain ⟨new, isNew⟩ : ∃ new, new = s₁.store (f * 4096 + 2048) 2048
    (fun i => s₁.mem (kernelPml4 + 2048 + i)) := ⟨_, rfl⟩
  have lowHalf : ∀ i : Fin 512, i.val < 256 → new.read64 (f * 4096 + 8 * i) = 0 := by
    intro i lower
    refine word_zero fun x above below => ?_
    have inFrame : x / 4096 = f := by omega
    have untouched : ¬ (f * 4096 + 2048 ≤ x ∧ x < f * 4096 + 2048 + 2048) := by omega
    rw [isNew, store_mem, store_outside untouched, zero x inFrame]
  have remaining : new.free = s₁.free := by rw [isNew]; rfl
  rw [← isNew]
  obtain ⟨tree, missing⟩ := UserTree.of_zero sound.valid mine (remaining ▸ used) lowHalf
    (fun g listed => by rw [remaining] at listed; simp [free, listed])
    (by rw [remaining]; exact sound.nodup.sublist touches.taken.sublist)
  refine ⟨f, rfl, by rw [remaining, free], tree, missing, ?_⟩
  rw [isNew]
  refine (touches.trans (s₁.store_touches_frame _ used (by omega))).mono ?_
  rintro x rfl
  exact mine

lemma vmmCreateUserPml4_spec :
    ∃ root, pml4 = root * 4096 ∧ root ∈ s.free ∧ Refines (· ∈ s.free) root s' .empty ∧
      s.Touches (fun x => x / 4096 ∈ s.free) s' := by
  obtain ⟨root, address, free, tree, missing, touches⟩ := vmmCreateUserPml4_tree sound created
  refine ⟨root, address, free ▸ List.mem_cons_self, ⟨tree, fun w user => ?_⟩, touches⟩
  rw [peek, page, missing _ (userPath_path user) (by simp [path])]
  rfl

end

end Znu.Elf
