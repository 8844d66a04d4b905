
import Znu.Lib.Bytes

/-! # Physical memory and the frame allocator

The kernel reaches all physical memory through the higher-half direct map, so an
access at `phys + hhdm_offset` is an access to physical address `phys` here. The
allocator is the list of frames it will hand out, in an arbitrary order; when the
list is empty `palloc` stops the machine. Every write is recorded.
-/

namespace Znu.Mm

open Lib List Bytes

structure Phys where
  mem : Bytes
  /-- numbers of the frames `palloc` returns next -/
  free : List Nat
  /-- address and length of every write so far, the last one first -/
  writes : List (Nat × Nat)

namespace Phys

def store (s : Phys) (a n : Nat) (src : Nat → UInt8) : Phys :=
  { s with mem := s.mem.store a n src, writes := (a, n) :: s.writes }

def read64 (s : Phys) (a : Nat) : Nat := s.mem.word a 8

def write64 (s : Phys) (a v : Nat) : Phys := s.store a 8 (Bytes.digit v)

/-- `none` is `hcf`. The result is the physical address of the frame. -/
def pallocZero (s : Phys) : Option (Phys × Nat) :=
  match s.free with
  | [] => none
  | f :: rest => some (({ s with free := rest } : Phys).store (f * 4096) 4096 (fun _ => 0), f * 4096)

/-- The allocator's frames are real, and it never returns one twice. -/
structure Sound (s : Phys) : Prop where
  valid : ∀ f ∈ s.free, 0 < f ∧ f < 2 ^ 52
  nodup : s.free.Nodup

variable (s : Phys)

@[simp] lemma store_mem (a n : Nat) (src : Nat → UInt8) : (s.store a n src).mem = s.mem.store a n src := rfl
@[simp] lemma store_free (a n : Nat) (src : Nat → UInt8) : (s.store a n src).free = s.free := rfl
@[simp] lemma write64_mem (a v : Nat) : (s.write64 a v).mem = s.mem.store a 8 (digit v) := rfl
@[simp] lemma write64_free (a v : Nat) : (s.write64 a v).free = s.free := rfl

/-- `s'` comes from `s` by allocations and by writes to addresses of `room`, in
    frames that are not free any more. -/
structure Touches (room : Nat → Prop) (s s' : Phys) : Prop where
  mem : ∀ x, ¬ (room x ∧ x / 4096 ∉ s'.free) → s'.mem x = s.mem x
  log : ∃ new, s'.writes = new ++ s.writes ∧
    ∀ w ∈ new, ∀ x, w.1 ≤ x → x < w.1 + w.2 → room x ∧ x / 4096 ∉ s'.free
  taken : s'.free <:+ s.free

namespace Touches

variable {room wide : Nat → Prop} {s s' s'' : Phys}

lemma refl (room : Nat → Prop) (s : Phys) : Touches room s s :=
  ⟨fun _ _ => rfl, ⟨[], rfl, by simp⟩, List.suffix_rfl⟩

lemma trans (first : Touches room s s') (second : Touches room s' s'') : Touches room s s'' := by
  have still : ∀ f, f ∉ s'.free → f ∉ s''.free :=
    fun f used listed => used (second.taken.subset listed)
  refine ⟨fun x away => ?_, ?_, second.taken.trans first.taken⟩
  · rw [second.mem x away, first.mem x fun inside => away ⟨inside.1, still _ inside.2⟩]
  obtain ⟨new, log, inside⟩ := first.log
  obtain ⟨new', log', inside'⟩ := second.log
  refine ⟨new' ++ new, by rw [log', log, append_assoc], ?_⟩
  intro w listed x lower upper
  rcases mem_append.mp listed with later | earlier
  · exact inside' w later x lower upper
  · obtain ⟨member, used⟩ := inside w earlier x lower upper
    exact ⟨member, still _ used⟩

lemma mono (wider : ∀ x, room x → wide x) (touches : Touches room s s') : Touches wide s s' where
  mem := fun x away => touches.mem x fun inside => away ⟨wider x inside.1, inside.2⟩
  log := by
    obtain ⟨new, log, inside⟩ := touches.log
    refine ⟨new, log, fun w listed x lower upper => ?_⟩
    obtain ⟨member, used⟩ := inside w listed x lower upper
    exact ⟨wider x member, used⟩
  taken := touches.taken

end Touches

lemma store_touches {room : Nat → Prop} (s : Phys) {a n : Nat} (src : Nat → UInt8)
    (inside : ∀ x, a ≤ x → x < a + n → room x ∧ x / 4096 ∉ s.free) :
    Touches room s (s.store a n src) where
  mem := fun _ away => store_outside fun range => away (inside _ range.1 range.2)
  log := ⟨[(a, n)], rfl, by simpa using inside⟩
  taken := suffix_rfl

lemma store_touches_frame (s : Phys) {f o n : Nat} (src : Nat → UInt8) (used : f ∉ s.free)
    (fits : o + n ≤ 4096) : Touches (· / 4096 = f) s (s.store (f * 4096 + o) n src) :=
  s.store_touches src fun x lower upper => by
    have frame : x / 4096 = f := by omega
    exact ⟨frame, frame ▸ used⟩

/-- What `palloc_zero` returns: the next free frame, filled with zeros. -/
lemma pallocZero_spec {s s' : Phys} {a : Nat} (allocated : s.pallocZero = some (s', a))
    (nodup : s.free.Nodup) : ∃ f, a = f * 4096 ∧ s.free = f :: s'.free ∧ f ∉ s'.free ∧
      s'.mem = s.mem.store (f * 4096) 4096 (fun _ => 0) ∧ Touches (· / 4096 = f) s s' := by
  unfold pallocZero at allocated
  split at allocated
  · cases allocated
  rename_i f rest free
  cases allocated
  rw [free, nodup_cons] at nodup
  have inside : ∀ x, f * 4096 ≤ x → x < f * 4096 + 4096 → x / 4096 = f ∧ x / 4096 ∉ rest := by
    intro x lower upper
    have frame : x / 4096 = f := by omega
    exact ⟨frame, frame ▸ nodup.1⟩
  have zeroed := store_touches { s with free := rest } (fun _ => 0) inside
  exact ⟨f, rfl, free, nodup.1, rfl, zeroed.mem, zeroed.log, free ▸ suffix_cons f rest⟩

end Phys

end Znu.Mm
