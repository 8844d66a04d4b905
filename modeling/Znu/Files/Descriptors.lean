import Znu.Files.References

/-! # The lowest free descriptor

`next_fd` is a hint: `vfse_alloc_fd` begins its search there, and closing a descriptor moves it
down, while `dup2` and `F_DUPFD` fill slots without looking at it. All slots from 3 up to the
hint are occupied at any time, so the search takes the lowest free slot and never has to begin
again at 3.
-/

namespace Znu.Files

open Function List Vfse

variable {Node Disk : Type}

namespace Vfse

variable {v : Vfse Node}

/-- All slots from 3 up to a descriptor are occupied. -/
def FullBelow (v : Vfse Node) (fd : Int) : Prop := ∀ i : Nat, 3 ≤ i → i < fd → v.fds i ≠ none

/-- All slots up to the hint are occupied. -/
def Hinted (v : Vfse Node) : Prop := v.FullBelow v.nextFd

/-- `vfse_alloc_fd` finds nothing in its second scan, and fails only if there is no free slot. -/
structure Packed (v : Vfse Node) : Prop where
  full : v.Hinted
  scan : (List.range' 3 (v.nextFd - 3)).find? (fun i => (v.fds i).isNone) = none
  fails : ∀ id, (v.vfseAllocFd id).2 < 0 → v.FullBelow 256

/-- The lowest free slot has been taken, unless the call has failed. -/
structure Takes (v : Vfse Node) (result : Vfse Node × Int) : Prop where
  full : result.1.Hinted
  lowest : v.FullBelow result.2

lemma Hinted.failed (full : v.Hinted) (before : Vfse Node) : before.Takes (v, -1) :=
  ⟨full, fun i _ _ => by omega⟩

lemma FullBelow.set {fd : Int} (full : v.FullBelow fd) (i id : Nat) : (v.setFd i (some id)).FullBelow fd := by
  intro j lower upper
  by_cases here : j = i
  · simp [here]
  · rw [setFd_fds, update_of_ne here]
    exact full j lower upper

section

variable (full : v.Hinted)

include full

namespace Hinted

lemma scan : (range' 3 (v.nextFd - 3)).find? (fun i => (v.fds i).isNone) = none := by
  rw [find?_eq_none]
  intro i member
  rw [mem_range'_1] at member
  simpa using full i member.1 (by omega)

lemma freeFd : v.freeFd = (range' v.nextFd (256 - v.nextFd)).find? fun i => (v.fds i).isNone := by
  rw [Vfse.freeFd, find?_append, full.scan, Option.or_none]

lemma vfseAllocFd (id : Nat) : v.Takes (v.vfseAllocFd id) := by
  cases found : v.freeFd with
  | none =>
    rw [vfseAllocFd_of_full found]
    exact full.failed v
  | some i =>
    have lowest : v.FullBelow i := by
      intro j lower upper
      rw [full.freeFd, find?_range'_eq_some] at found
      by_cases early : j < v.nextFd
      · exact full j lower (by omega)
      · grind
    rw [vfseAllocFd_of_free found]
    refine ⟨fun j lower upper => ?_, lowest⟩
    by_cases here : j = i
    · simp [here]
    · exact lowest.set i id j lower (by dsimp only at upper; omega)

lemma packed : v.Packed := by
  refine ⟨full, full.scan, fun id negative j lower upper => ?_⟩
  cases found : v.freeFd with
  | none =>
    rw [full.freeFd, find?_eq_none] at found
    by_cases early : j < v.nextFd
    · exact full j lower (by omega)
    · simpa using found j (mem_range'_1.mpr (by omega))
  | some i =>
    rw [vfseAllocFd_of_free found] at negative
    omega

lemma vfseClose (fd : Int) : (v.vfseClose fd).1.Hinted := by
  unfold Vfse.vfseClose
  cases there : v.vfseGetFile fd with
  | none => exact full
  | some id =>
    rw [vfseFreeFd_eq there]
    intro i lower upper
    dsimp only at upper
    change update v.fds fd.toNat none i ≠ none
    rw [update_of_ne (by omega)]
    exact full i lower (by omega)

lemma openNode (node : Node) (size : Nat) (flags : BitVec 32) : v.Takes (v.openNode node size flags) := by
  have taken := vfseAllocFd (v := v.vfseAllocFile (.ofNode node size flags)) full v.made
  unfold Vfse.openNode
  dsimp only
  split
  · exact ⟨taken.full, (full.failed v).lowest⟩
  · exact ⟨taken.full, taken.lowest⟩

lemma vfseDup (fd : Int) : v.Takes (v.vfseDup fd) := by
  unfold Vfse.vfseDup
  split
  · exact full.failed v
  rename_i id _
  have taken := vfseAllocFd (v := v.addRef id 1) full id
  dsimp only
  split
  · exact ⟨taken.full, (full.failed v).lowest⟩
  · exact ⟨taken.full, taken.lowest⟩

lemma vfseDup2 (oldfd newfd : Int) : (v.vfseDup2 oldfd newfd).1.Hinted := by
  unfold Vfse.vfseDup2
  split
  · exact full
  split
  · exact full
  · exact FullBelow.set (full.vfseClose newfd) _ _

lemma dupfd (fd : Int) (arg : BitVec 32) : (v.vfseFcntl fd 0 arg).1.Hinted := by
  unfold vfseFcntl
  split
  · exact full
  dsimp only
  cases v.freeFrom arg.toInt with
  | none => exact full
  | some i => exact FullBelow.set full i _

lemma vfsePipe :
    v.Takes (v.vfsePipe.1, v.vfsePipe.2.2.1) ∧
      (v.newPipe.vfseAllocFd v.made).1.FullBelow v.vfsePipe.2.2.2 := by
  have reader := vfseAllocFd (v := v.newPipe) full v.made
  have writer := reader.full.vfseAllocFd (v.made + 1)
  unfold Vfse.vfsePipe
  dsimp only
  split
  · refine ⟨⟨?_, reader.lowest⟩, writer.lowest⟩
    split <;> split
    · exact (writer.full.vfseClose _).vfseClose _
    · exact writer.full.vfseClose _
    · exact writer.full.vfseClose _
    · exact writer.full
  · exact ⟨⟨writer.full, reader.lowest⟩, writer.lowest⟩

lemma after (call : TableCall) : (v.after call).Hinted := by
  cases call with
  | close fd => exact full.vfseClose fd
  | pipe => exact full.vfsePipe.1.full
  | dup fd => exact (full.vfseDup fd).full
  | dup2 oldfd newfd => exact full.vfseDup2 oldfd newfd
  | dupfd fd arg => exact full.dupfd fd arg

end Hinted

end

end Vfse

lemma Vfse.Hinted.vfseOpen {host : Host Node Disk} {s : Vfse Node × Disk}
    (full : s.1.Hinted) (path : List UInt8) (flags : BitVec 32) :
    s.1.Takes ((vfseOpen host s path flags).1.1, (vfseOpen host s path flags).2) := by
  unfold Files.vfseOpen
  split
  · exact full.failed s.1
  dsimp only
  split
  · exact full.failed s.1
  split
  · exact full.failed s.1
  · exact full.openNode _ _ _

/-- What the calls return that allocate; `vfse_pipe` allocates twice. -/
structure TakesLowest (host : Host Node Disk) (s : Vfse Node × Disk) : Prop where
  packed : s.1.Packed
  opens : ∀ path flags, s.1.FullBelow (vfseOpen host s path flags).2
  dups : ∀ fd, s.1.FullBelow (s.1.vfseDup fd).2
  reader : s.1.FullBelow s.1.vfsePipe.2.2.1
  between : (s.1.newPipe.vfseAllocFd s.1.made).1.Packed
  writer : (s.1.newPipe.vfseAllocFd s.1.made).1.FullBelow s.1.vfsePipe.2.2.2

/-- After every sequence of calls, the next one takes the lowest free descriptor. -/
theorem lowest_taken (host : Host Node Disk) (disk : Disk) (calls : List VfseCall) :
    TakesLowest host (calls.foldl (fun s call => call.after host s) (vfseInit, disk)) := by
  have full : (calls.foldl (fun s call => call.after host s) (vfseInit, disk)).1.Hinted := by
    induction calls using List.reverseRecOn with
    | nil => exact fun i lower upper => absurd upper (by change ¬ (i : Int) < 3; omega)
    | append_singleton calls call ih =>
      rw [foldl_append]
      cases call with
      | table call => exact ih.after call
      | «open» path flags => exact (ih.vfseOpen path flags).full
  generalize calls.foldl (fun s call => call.after host s) (vfseInit, disk) = s at full
  refine ⟨full.packed, fun path flags => (full.vfseOpen path flags).lowest, ?_, ?_, ?_, ?_⟩
  · exact fun fd => (full.vfseDup fd).lowest
  · exact full.vfsePipe.1.lowest
  · exact (Hinted.vfseAllocFd (v := s.1.newPipe) full s.1.made).full.packed
  · exact full.vfsePipe.2

end Znu.Files
