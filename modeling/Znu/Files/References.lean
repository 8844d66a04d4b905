import Znu.Files.Calls

/-! # Reference counts and the lifetime of pipes

Every file of the VFSe table counts the descriptors that refer to it. `dup2` drops the old
file of its target before it counts the new one, so that it frees the file when both
descriptors are the same. The two ends of a pipe are separate files that share the pipe
without a count of their own: whichever end is closed first frees it, and the other end frees it once
more. Files and pipes are known here by the order in which they were made, as if freed memory were never
handed out again. That is right as long as no end of a pipe is freed, so this is a condition wherever a
run goes on after a call that might do it.
-/

namespace Znu.Files

open Lib Function List Finset Vfse Nat VfseFile

/-- The calls that need nothing but the table. -/
inductive TableCall where
  | close (fd : Int)
  | pipe
  | dup (fd : Int)
  | dup2 (oldfd newfd : Int)
  /-- `fcntl` with `F_DUPFD` -/
  | dupfd (fd : Int) (arg : BitVec 32)

inductive VfseCall where
  | «open» (path : List UInt8) (flags : BitVec 32)
  | table (call : TableCall)

variable {Node Disk : Type}

/-- `O_CREAT` creates nothing. -/
def vfseOpen (host : Host Node Disk) (s : Vfse Node × Disk) (path : List UInt8) (flags : BitVec 32) :
    (Vfse Node × Disk) × Int :=
  match vfseResolvePath s.1.cwd path with
  | none => (s, -1)
  | some abspath =>
    let found := host.respond s.2 (.pathToNode abspath)
    match found.1 with
    | none => ((s.1, found.2), -1)
    | some node =>
      let fields := host.fields found.2 node
      if flags &&& oDirectory ≠ 0 ∧ fields.type ≠ .directory then ((s.1, found.2), -1) else
      let opened := s.1.openNode node fields.size flags
      ((opened.1, found.2), opened.2)

namespace Vfse

variable (v : Vfse Node)

def after : TableCall → Vfse Node
  | .close fd => (v.vfseClose fd).1
  | .pipe => v.vfsePipe.1
  | .dup fd => (v.vfseDup fd).1
  | .dup2 oldfd newfd => (v.vfseDup2 oldfd newfd).1
  | .dupfd fd arg => (v.vfseFcntl fd 0 arg).1

/-- How many descriptors refer to a file. -/
def refs (id : Nat) : Nat := ((Finset.range 256).filter fun fd => v.fds fd = some id).card

/-- Every open file counts its descriptors, and none has been freed. -/
def Counted : Prop :=
  ∀ fd < 256, ∀ id, v.fds fd = some id → (v.file id).refCount = v.refs id ∧ id ∉ v.freed

/-- `dup2` does not duplicate the only descriptor of a file onto itself. -/
def Apart : TableCall → Prop
  | .dup2 oldfd newfd => oldfd = newfd →
      ∀ id, v.vfseGetFile oldfd = some id → (v.file id).refCount ≠ 1
  | _ => True

/-- The file may lose a descriptor: it is no end of a pipe, or has another one. -/
def Lasting (id : Nat) : Prop := (v.file id).pipe = none ∨ 1 < (v.file id).refCount

/-- No end of a pipe loses its last descriptor. -/
def Intact : TableCall → Prop
  | .close fd => ∀ id, v.vfseGetFile fd = some id → v.Lasting id
  | .dup2 oldfd newfd => v.vfseGetFile oldfd ≠ none → ∀ id, v.vfseGetFile newfd = some id → v.Lasting id
  | _ => True

end Vfse

namespace VfseCall

def after (host : Host Node Disk) (s : Vfse Node × Disk) : VfseCall → Vfse Node × Disk
  | .open path flags => (vfseOpen host s path flags).1
  | .table call => (s.1.after call, s.2)

abbrev Step (host : Host Node Disk) (s : Vfse Node × Disk) (call : VfseCall)
    (s' : Vfse Node × Disk) : Prop :=
  s' = call.after host s

def Apart (s : Vfse Node × Disk) : VfseCall → Prop
  | .open _ _ => True
  | .table call => s.1.Apart call

/-- After the call no two files share memory. -/
def Careful (s : Vfse Node × Disk) (call : VfseCall) : Prop :=
  call.Apart s ∧ ∀ inner, call = .table inner → s.1.Intact inner

end VfseCall

open VfseCall

/-! ## Counting -/

namespace Vfse

variable {v : Vfse Node} {fd id id' : Nat} {entry : Option Nat}

/-- What the count of a file has too much. -/
def excess (v : Vfse Node) (id : Nat) : Int := (v.file id).refCount - v.refs id

lemma refs_setFd (inside : fd < 256) :
    (v.setFd fd entry).refs id + (if v.fds fd = some id then 1 else 0) =
      v.refs id + (if entry = some id then 1 else 0) := by
  have member : fd ∈ Finset.range 256 := Finset.mem_range.mpr inside
  have others :
      ∑ i ∈ (Finset.range 256).erase fd, (if (v.setFd fd entry).fds i = some id then 1 else 0) =
      ∑ i ∈ (Finset.range 256).erase fd, (if v.fds i = some id then 1 else 0) := by
    refine sum_congr rfl fun i other => ?_
    rw [setFd_fds, update_of_ne (ne_of_mem_erase other)]
  have here : (v.setFd fd entry).fds fd = entry := by rw [setFd_fds, update_self]
  rw [refs, refs, card_filter, card_filter, ← add_sum_erase _ _ member,
    ← add_sum_erase _ _ member, others, here]
  omega

lemma excess_setFd (inside : fd < 256) :
    (v.setFd fd entry).excess id =
      v.excess id + (if v.fds fd = some id then 1 else 0) - (if entry = some id then 1 else 0) := by
  have counts := @refs_setFd Node v fd id entry inside
  have same : (v.setFd fd entry).file = v.file := rfl
  rw [excess, excess, same]
  split_ifs at counts ⊢ <;> omega

lemma excess_addRef {n : Int} : (v.addRef id n).excess id' = v.excess id' + (if id' = id then n else 0) := by
  by_cases same : id' = id
  · subst same
    have refs : (v.addRef id' n).refs id' = v.refs id' := rfl
    rw [excess, excess, refs, addRef_file, update_self, if_pos rfl]
    dsimp only
    omega
  · have refs : (v.addRef id n).refs id' = v.refs id' := rfl
    rw [excess, excess, refs, addRef_file, update_of_ne same, if_neg same, add_zero]

lemma exists_of_refs (positive : 0 < v.refs id) : ∃ fd < 256, v.fds fd = some id := by
  obtain ⟨fd, member⟩ := card_pos.mp positive
  obtain ⟨inside, there⟩ := Finset.mem_filter.mp member
  exact ⟨fd, Finset.mem_range.mp inside, there⟩

lemma vfseGetFile_some {fd : Int} :
    v.vfseGetFile fd = some id ↔ 0 ≤ fd ∧ fd.toNat < 256 ∧ v.fds fd.toNat = some id := by
  unfold vfseGetFile
  split
  · refine iff_of_false nofun ?_
    omega
  refine ⟨fun there => ⟨by omega, by omega, there⟩, fun there => there.2.2⟩

variable {i : Nat} {newfd oldfd : Int}

lemma freeFd_some (low : v.nextFd ≤ 256) (free : v.freeFd = some i) : i < 256 ∧ v.fds i = none := by
  have empty := find?_some free
  have member := mem_of_find?_eq_some free
  rw [mem_append, mem_range'_1, mem_range'_1] at member
  exact ⟨by omega, by simpa using empty⟩

lemma freeFrom_some {least : Int} (free : v.freeFrom least = some i) : i < 256 ∧ v.fds i = none := by
  have empty := find?_some free
  have member := mem_of_find?_eq_some free
  rw [mem_range'_1] at member
  exact ⟨by omega, by simpa using empty⟩

/-! ## What each call keeps -/

structure Sound (v : Vfse Node) : Prop where
  counted : ∀ fd < 256, ∀ id, v.fds fd = some id → v.excess id = 0 ∧ id ∉ v.freed ∧ id < v.made
  made : ∀ id ∈ v.freed, id < v.made
  low : v.nextFd ≤ 256

lemma Sound.isCounted (sound : v.Sound) : v.Counted := by
  intro fd inside id there
  obtain ⟨balanced, live, -⟩ := sound.counted fd inside id there
  rw [excess] at balanced
  exact ⟨by omega, live⟩

lemma vfseInit_sound : (vfseInit : Vfse Node).Sound where
  counted := nofun
  made := nofun
  low := by simp [vfseInit]

/-- The same for all files but one. -/
structure SoundBut (v : Vfse Node) (id : Nat) : Prop where
  counted : ∀ fd < 256, ∀ id', v.fds fd = some id' → id' ≠ id →
    v.excess id' = 0 ∧ id' ∉ v.freed ∧ id' < v.made
  made : ∀ id ∈ v.freed, id < v.made
  low : v.nextFd ≤ 256

lemma Sound.but (sound : v.Sound) (id : Nat) : v.SoundBut id :=
  ⟨fun fd inside id' there _ => sound.counted fd inside id' there, sound.made, sound.low⟩

lemma Sound.addRef (sound : v.Sound) (id : Nat) (n : Int) : (v.addRef id n).SoundBut id where
  counted fd inside id' there other := by
    rw [excess_addRef, if_neg other, add_zero]
    exact sound.counted fd inside id' there
  made := sound.made
  low := sound.low

/-- A descriptor comes to refer to a file that has already counted it. -/
lemma SoundBut.setFd (sound : v.SoundBut id) (inside : fd < 256) (free : v.fds fd = none)
    (counted : v.excess id = 1) (live : id ∉ v.freed) (made : id < v.made) :
    (v.setFd fd (some id)).Sound where
  counted fd' inside' id' there' := by
    rw [excess_setFd inside, free, if_neg nofun, add_zero]
    by_cases same : id' = id
    · subst same
      rw [if_pos rfl, counted]
      exact ⟨rfl, live, made⟩
    have elsewhere : fd' ≠ fd := by
      rintro rfl
      rw [setFd_fds, update_self] at there'
      exact same (Option.some.inj there').symm
    rw [setFd_fds, update_of_ne elsewhere] at there'
    rw [if_neg fun h => same (Option.some.inj h).symm, sub_zero]
    exact sound.counted fd' inside' id' there' same
  made := sound.made
  low := sound.low

lemma addRef_cancel (v : Vfse Node) (id : Nat) (n : Int) : (v.addRef id n).addRef id (-n) = v := by
  simp [addRef]

lemma two_le_refs {fd' : Nat} (inside : fd < 256) (inside' : fd' < 256) (apart : fd ≠ fd')
    (there : v.fds fd = some id) (there' : v.fds fd' = some id) : 2 ≤ v.refs id := by
  refine one_lt_card.mpr ⟨fd, ?_, fd', ?_, apart⟩
  · exact Finset.mem_filter.mpr ⟨Finset.mem_range.mpr inside, there⟩
  · exact Finset.mem_filter.mpr ⟨Finset.mem_range.mpr inside', there'⟩

/-- The table after the last steps of `vfse_free_fd`. -/
lemma vfseFreeFd_eq {fd : Int} (there : v.vfseGetFile fd = some id) :
    v.vfseFreeFd fd =
      { (v.addRef id (-1)).setFd fd.toNat none with
        freed := if (v.file id).refCount ≤ 1 then id :: v.freed else v.freed
        freedPipes :=
          if (v.file id).refCount ≤ 1 then (v.file id).pipe.toList ++ v.freedPipes else v.freedPipes
        nextFd := min fd.toNat v.nextFd } := by
  have count : ((v.addRef id (-1)).file id).refCount ≤ 0 ↔ (v.file id).refCount ≤ 1 := by
    rw [addRef_file, update_self]
    dsimp only
    omega
  unfold vfseFreeFd
  simp only [there, count]
  split
  · simp [vfseFreeFile, setFd]
  · simp [setFd]

lemma vfseFreeFd_excess {fd : Int} (there : v.vfseGetFile fd = some id) (id' : Nat) :
    (v.vfseFreeFd fd).excess id' = v.excess id' := by
  obtain ⟨-, inside, slot⟩ := vfseGetFile_some.mp there
  have fields : (v.vfseFreeFd fd).excess id' = ((v.addRef id (-1)).setFd fd.toNat none).excess id' := by
    rw [vfseFreeFd_eq there]
    rfl
  rw [fields, excess_setFd inside, excess_addRef, addRef_fds, slot]
  by_cases same : id' = id
  · simp [same]
  · simp [same, Ne.symm same]

lemma Sound.vfseFreeFd (sound : v.Sound) (fd : Int) : (v.vfseFreeFd fd).Sound := by
  cases there : v.vfseGetFile fd with
  | none =>
    rw [Vfse.vfseFreeFd, there]
    exact sound
  | some id =>
    obtain ⟨-, inside, slot⟩ := vfseGetFile_some.mp there
    obtain ⟨balanced, -, idMade⟩ := sound.counted _ inside id slot
    refine ⟨fun fd' inside' id' there' => ?_, ?_, ?_⟩
    · rw [vfseFreeFd_excess there]
      rw [vfseFreeFd_eq there] at there' ⊢
      simp only [setFd_fds] at there'
      have elsewhere : fd' ≠ fd.toNat := by
        rintro rfl
        rw [update_self] at there'
        cases there'
      rw [update_of_ne elsewhere] at there'
      obtain ⟨balanced', live, made⟩ := sound.counted fd' inside' id' there'
      refine ⟨balanced', ?_, made⟩
      split
      · refine not_mem_cons_of_ne_of_not_mem ?_ live
        rintro rfl
        have others := two_le_refs inside inside' (Ne.symm elsewhere) slot there'
        rw [excess] at balanced
        omega
      · exact live
    · rw [vfseFreeFd_eq there]
      intro id' member
      split at member
      · rcases mem_cons.mp member with rfl | earlier
        · exact idMade
        · exact sound.made id' earlier
      · exact sound.made id' member
    · rw [vfseFreeFd_eq there]
      exact (min_le_right ..).trans sound.low

lemma Sound.vfseClose (sound : v.Sound) (fd : Int) : (v.vfseClose fd).1.Sound := by
  unfold Vfse.vfseClose
  split
  · exact sound
  · exact sound.vfseFreeFd fd

lemma vfseAllocFd_of_free (free : v.freeFd = some i) (id : Nat) :
    v.vfseAllocFd id = ({ v.setFd i (some id) with nextFd := i + 1 }, (i : Int)) := by
  rw [vfseAllocFd, free]

lemma vfseAllocFd_of_full (full : v.freeFd = none) (id : Nat) : v.vfseAllocFd id = (v, -1) := by
  rw [vfseAllocFd, full]

lemma Sound.refs_made (sound : v.Sound) (new : v.made ≤ id) : v.refs id = 0 := by
  by_contra positive
  obtain ⟨fd, inside, there⟩ := exists_of_refs (pos_of_ne_zero positive)
  have := (sound.counted fd inside id there).2.2
  omega

lemma Sound.vfseAllocFile (sound : v.Sound) (file : VfseFile Node) : (v.vfseAllocFile file).Sound where
  counted fd inside id there := by
    obtain ⟨balanced, live, made⟩ := sound.counted fd inside id there
    refine ⟨?_, live, Nat.lt_succ_of_lt made⟩
    rw [excess, vfseAllocFile_file, update_of_ne (Nat.ne_of_lt made)]
    exact balanced
  made id member := Nat.lt_succ_of_lt (sound.made id member)
  low := sound.low

/-- A file that has counted one more descriptor is given one, if there is one left. -/
lemma SoundBut.vfseAllocFd (sound : v.SoundBut id) (free : v.freeFd = some i)
    (counted : v.excess id = 1) (live : id ∉ v.freed) (made : id < v.made) :
    (v.vfseAllocFd id).1.Sound := by
  obtain ⟨inside, empty⟩ := freeFd_some sound.low free
  have placed := sound.setFd inside empty counted live made
  rw [vfseAllocFd_of_free free]
  exact ⟨placed.counted, placed.made, inside⟩

/-- What `dup` and `F_DUPFD` do: nothing, or a free slot gets the file. -/
inductive Copies (v : Vfse Node) (fd : Int) : Vfse Node → Prop where
  | failed : Copies v fd v
  | slot {i id n : Nat} (there : v.vfseGetFile fd = some id) (inside : i < 256)
      (empty : v.fds i = none) (low : n ≤ 256) :
      Copies v fd { (v.addRef id 1).setFd i (some id) with nextFd := n }

section

variable (sound : v.Sound)

include sound

lemma Sound.vfseAllocFd (counted : v.excess id = 1) (live : id ∉ v.freed) (made : id < v.made) :
    (v.vfseAllocFd id).1.Sound := by
  cases free : v.freeFd with
  | none =>
    rw [vfseAllocFd_of_full free]
    exact sound
  | some i => exact (sound.but id).vfseAllocFd free counted live made

lemma Sound.excess_made {file : VfseFile Node} (one : file.refCount = 1) :
    (v.vfseAllocFile file).excess v.made = 1 := by
  have none_yet : (v.vfseAllocFile file).refs v.made = 0 := sound.refs_made le_rfl
  rw [excess, none_yet, vfseAllocFile_file, update_self, one]
  rfl

lemma Sound.not_freed : v.made ∉ v.freed := fun member =>
  lt_irrefl _ (sound.made _ member)

lemma Sound.openNode (node : Node) (size : Nat) (flags : BitVec 32) :
    (v.openNode node size flags).1.Sound := by
  have created := sound.vfseAllocFile (.ofNode node size flags)
  unfold Vfse.openNode
  cases free : (v.vfseAllocFile (.ofNode node size flags)).freeFd with
  | none =>
    rw [vfseAllocFd_of_full free]
    refine ⟨fun fd inside id there => ?_, fun id member => ?_, created.low⟩
    · obtain ⟨balanced, live, -⟩ := created.counted fd inside id there
      have old := (sound.counted fd inside id there).2.2
      refine ⟨balanced, not_mem_cons_of_ne_of_not_mem (Nat.ne_of_lt old) live, ?_⟩
      exact lt_succ_of_lt old
    · rcases mem_cons.mp member with rfl | earlier
      · exact lt_succ_self _
      · exact created.made id earlier
  | some i =>
    have placed := created.vfseAllocFd (sound.excess_made rfl) sound.not_freed (lt_succ_self _)
    rw [vfseAllocFd_of_free free] at placed ⊢
    exact placed

lemma Sound.excess_addRef (inside : fd < 256) (there : v.fds fd = some id) :
    (v.addRef id 1).excess id = 1 := by
  rw [Vfse.excess_addRef, (sound.counted fd inside id there).1, if_pos rfl, zero_add]

lemma Sound.copies {fd : Int} (copies : v.Copies fd v') : v'.Sound := by
  cases copies with
  | failed => exact sound
  | slot there inside empty low =>
    obtain ⟨-, insideOld, slot⟩ := vfseGetFile_some.mp there
    obtain ⟨-, live, made⟩ := sound.counted _ insideOld _ slot
    have placed := (sound.addRef _ 1).setFd inside empty (sound.excess_addRef insideOld slot) live made
    exact ⟨placed.counted, placed.made, low⟩

lemma Sound.dup_copies (fd : Int) : v.Copies fd (v.vfseDup fd).1 := by
  unfold vfseDup
  cases there : v.vfseGetFile fd with
  | none => exact .failed
  | some id =>
    dsimp only
    cases free : (v.addRef id 1).freeFd with
    | none =>
      rw [vfseAllocFd_of_full free]
      simp only [Int.reduceNeg, Int.reduceLT, if_true, addRef_cancel]
      exact .failed
    | some i =>
      obtain ⟨inside, empty⟩ := freeFd_some (v := v.addRef id 1) sound.low free
      rw [vfseAllocFd_of_free free, if_neg (by simp)]
      exact .slot there inside empty inside

lemma Sound.dupfd_copies (fd : Int) (arg : BitVec 32) : v.Copies fd (v.vfseFcntl fd 0 arg).1 := by
  unfold vfseFcntl
  cases there : v.vfseGetFile fd with
  | none => exact .failed
  | some id =>
    dsimp only
    cases free : v.freeFrom arg.toInt with
    | none =>
      rw [addRef_cancel]
      exact .failed
    | some i =>
      obtain ⟨inside, empty⟩ := freeFrom_some free
      exact .slot there inside empty sound.low

end

lemma vfseClose_fds {fd : Int} (inside : 0 ≤ fd ∧ fd < 256) :
    (v.vfseClose fd).1.fds = update v.fds fd.toNat none := by
  unfold vfseClose
  cases there : v.vfseGetFile fd with
  | none =>
    have empty : v.fds fd.toNat = none := by
      rwa [vfseGetFile, if_neg (by omega)] at there
    exact (update_eq_self_iff.mpr empty.symm).symm
  | some id =>
    rw [vfseFreeFd_eq there]
    rfl

lemma vfseClose_made (fd : Int) : (v.vfseClose fd).1.made = v.made := by
  unfold vfseClose
  cases there : v.vfseGetFile fd with
  | none => rfl
  | some id =>
    rw [vfseFreeFd_eq there]
    rfl

/-- After the target of `dup2` has been closed, the source still has a descriptor, unless
    both are the only descriptor of the file. -/
lemma Sound.still_referenced (sound : v.Sound) (apart : v.Apart (.dup2 oldfd newfd))
    (inside : 0 ≤ newfd ∧ newfd < 256) (there : v.vfseGetFile oldfd = some id) :
    ∃ fd < 256, (v.vfseClose newfd).1.fds fd = some id := by
  obtain ⟨-, insideOld, slot⟩ := vfseGetFile_some.mp there
  rw [vfseClose_fds inside]
  by_cases same : oldfd = newfd
  · subst same
    have many := apart rfl id there
    have balanced := (sound.counted _ insideOld id slot).1
    rw [excess] at balanced
    have rest := @refs_setFd Node v oldfd.toNat id none insideOld
    rw [if_pos slot, if_neg nofun] at rest
    obtain ⟨fd, insideFd, left⟩ := @exists_of_refs Node (v.setFd oldfd.toNat none) id (by omega)
    exact ⟨fd, insideFd, left⟩
  · refine ⟨oldfd.toNat, insideOld, ?_⟩
    rw [update_of_ne (by have := vfseGetFile_some.mp there; omega)]
    exact slot

lemma Sound.vfseDup2 (sound : v.Sound) (apart : v.Apart (.dup2 oldfd newfd)) :
    (v.vfseDup2 oldfd newfd).1.Sound := by
  unfold Vfse.vfseDup2
  split
  · exact sound
  rename_i inside
  cases there : v.vfseGetFile oldfd with
  | none => exact sound
  | some id =>
    have inside : 0 ≤ newfd ∧ newfd < 256 := by omega
    have closed := sound.vfseClose newfd
    obtain ⟨fd, insideFd, slot⟩ := sound.still_referenced apart inside there
    obtain ⟨-, live, made⟩ := closed.counted fd insideFd id slot
    have empty : (v.vfseClose newfd).1.fds newfd.toNat = none := by
      rw [vfseClose_fds inside, update_self]
    exact (closed.addRef id 1).setFd (by omega) empty (closed.excess_addRef insideFd slot) live made

/-- A file duplicated onto its only descriptor has been freed. -/
lemma not_counted_of_clash (clash : ¬ v.Apart (.dup2 oldfd newfd)) :
    ¬ (v.vfseDup2 oldfd newfd).1.Counted := by
  simp only [Apart, not_forall, not_not] at clash
  obtain ⟨rfl, id, there, single⟩ := clash
  obtain ⟨lower, inside, slot⟩ := vfseGetFile_some.mp there
  intro counted
  have freed : id ∈ (v.vfseClose oldfd).1.freed := by
    rw [vfseClose, there]
    rw [vfseFreeFd_eq there]
    simp [single]
  refine (counted oldfd.toNat inside id ?_).2 ?_
  · rw [vfseDup2, if_neg (by omega), there]
    exact update_self ..
  · rw [vfseDup2, if_neg (by omega), there]
    exact freed

section

variable (sound : v.Sound)

include sound

lemma Sound.newPipe : v.newPipe.Sound :=
  have created := (sound.vfseAllocFile (.pipeEnd v.pipes 0)).vfseAllocFile (.pipeEnd v.pipes 1)
  ⟨created.counted, created.made, created.low⟩

/-- Both ends of a new pipe have counted a descriptor that they do not have yet. -/
lemma Sound.excess_newPipe : v.newPipe.excess v.made = 1 ∧ v.newPipe.excess (v.made + 1) = 1 := by
  have reader : v.newPipe.refs v.made = 0 := sound.refs_made le_rfl
  have writer : v.newPipe.refs (v.made + 1) = 0 := sound.refs_made (le_succ _)
  rw [excess, excess, reader, writer]
  simp [Vfse.newPipe, pipeEnd]

/-- The table after the first end of the pipe has got its descriptor. -/
lemma Sound.reader :
    (v.newPipe.vfseAllocFd v.made).1.Sound ∧ (v.newPipe.vfseAllocFd v.made).1.excess (v.made + 1) = 1 := by
  have counted := sound.excess_newPipe
  refine ⟨sound.newPipe.vfseAllocFd counted.1 sound.not_freed ?_, ?_⟩
  · exact lt_succ_of_lt (lt_succ_self _)
  cases free : v.newPipe.freeFd with
  | none =>
    rw [vfseAllocFd_of_full free]
    exact counted.2
  | some i =>
    obtain ⟨inside, empty⟩ := freeFd_some sound.newPipe.low free
    have placed := @excess_setFd Node v.newPipe i (v.made + 1) (some v.made) inside
    rw [vfseAllocFd_of_free free]
    refine placed.trans ?_
    rw [counted.2, empty, if_neg nofun, if_neg (by simp)]
    rfl

lemma Sound.writer : ((v.newPipe.vfseAllocFd v.made).1.vfseAllocFd (v.made + 1)).1.Sound := by
  obtain ⟨reader, counted⟩ := sound.reader
  have same : (v.newPipe.vfseAllocFd v.made).1.freed = v.freed ∧
      (v.newPipe.vfseAllocFd v.made).1.made = v.made + 2 := by
    unfold Vfse.vfseAllocFd
    split <;> exact ⟨rfl, rfl⟩
  refine reader.vfseAllocFd counted ?_ ?_
  · rw [same.1]
    exact fun member => absurd (sound.made _ member) (by omega)
  · rw [same.2]
    exact lt_succ_self _

lemma Sound.vfsePipe : v.vfsePipe.1.Sound := by
  have both := sound.writer
  unfold Vfse.vfsePipe
  dsimp only
  split
  · split <;> split
    · exact (both.vfseClose _).vfseClose _
    · exact both.vfseClose _
    · exact both.vfseClose _
    · exact both
  · exact both

lemma Sound.after {call : TableCall} (apart : v.Apart call) : (v.after call).Sound := by
  cases call with
  | close fd => exact sound.vfseClose fd
  | pipe => exact sound.vfsePipe
  | dup fd => exact sound.copies (sound.dup_copies fd)
  | dup2 oldfd newfd => exact sound.vfseDup2 apart
  | dupfd fd arg => exact sound.copies (sound.dupfd_copies fd arg)

lemma Sound.after_counted_iff (call : TableCall) : (v.after call).Counted ↔ v.Apart call := by
  refine ⟨fun counted => ?_, fun apart => (sound.after apart).isCounted⟩
  cases call with
  | dup2 oldfd newfd =>
    by_contra clash
    exact not_counted_of_clash clash counted
  | close _ | pipe | dup _ | dupfd _ _ => trivial

end

end Vfse

lemma Vfse.Sound.vfseOpen {host : Host Node Disk} {s : Vfse Node × Disk} (sound : s.1.Sound)
    (path : List UInt8) (flags : BitVec 32) : (vfseOpen host s path flags).1.1.Sound := by
  unfold Files.vfseOpen
  split
  · exact sound
  dsimp only
  split
  · exact sound
  split
  · exact sound
  · exact sound.openNode _ _ _

/-- In every run in which no end of a pipe loses its last descriptor and `dup2` never duplicates the
    only descriptor of a file onto itself, every open file counts its descriptors and has not been freed;
    the next call leaves it so if and only if it is not such a `dup2`. -/
theorem references_counted (host : Host Node Disk) {disk : Disk} {calls : List VfseCall}
    {s : Vfse Node × Disk}
    (run : Run (When (VfseCall.Step host) VfseCall.Careful) (vfseInit, disk) calls s) :
    s.1.Counted ∧ ∀ call : VfseCall, (call.after host s).1.Counted ↔ call.Apart s := by
  have keeps : ∀ (s : Vfse Node × Disk) (call : VfseCall) (s' : Vfse Node × Disk), s.1.Sound →
      When (VfseCall.Step host) VfseCall.Careful s call s' → s'.1.Sound := by
    rintro s call s' sound ⟨rfl, apart, -⟩
    cases call with
    | «open» path flags => exact sound.vfseOpen path flags
    | table call => exact sound.after apart
  have sound := run.invariant keeps vfseInit_sound
  refine ⟨sound.isCounted, fun call => ?_⟩
  cases call with
  | «open» path flags => exact iff_of_true (sound.vfseOpen path flags).isCounted trivial
  | table call => exact sound.after_counted_iff call

/-- A pipe, copies of both ends, and the reading end in place of one of the writing ends. -/
theorem duplicates_counted :
    (((((vfseInit : Vfse Unit).after .pipe).after (.dup 3)).after (.dup 4)).after (.dup2 3 4)).Counted := by
  have lasting : (((vfseInit : Vfse Unit).after .pipe).after (.dup 3)).after (.dup 4) |>.Lasting 1 :=
    .inr (by decide)
  have run : Run (When (VfseCall.Step emptyHost) VfseCall.Careful) ((vfseInit : Vfse Unit), ())
      [.table .pipe, .table (.dup 3), .table (.dup 4), .table (.dup2 3 4)]
      (((((vfseInit : Vfse Unit).after .pipe).after (.dup 3)).after (.dup 4)).after (.dup2 3 4), ()) := by
    refine .cons ⟨rfl, trivial, by rintro _ ⟨⟩; trivial⟩ (.cons ⟨rfl, trivial, by rintro _ ⟨⟩; trivial⟩
      (.cons ⟨rfl, trivial, by rintro _ ⟨⟩; trivial⟩ (.cons ⟨rfl, fun same => ?_, ?_⟩ (.nil _))))
    · exact absurd same (by decide)
    · rintro _ ⟨⟩ - id there
      cases (show _ = some 1 by decide).symm.trans there
      exact lasting
  exact (references_counted emptyHost run).1

/-- `dup2(fd, fd)` of the only descriptor leaves a descriptor of a freed file. -/
theorem self_duplicate_freed : ¬ (((vfseInit : Vfse Unit).after .pipe).after (.dup2 3 3)).Counted := by
  intro counted
  have live := (counted 3 (by decide) 0 (by decide)).2
  exact absurd live (by decide)

/-! ## The lifetime of pipes -/

namespace Vfse

def Referenced (v : Vfse Node) (id : Nat) : Prop := ∃ fd < 256, v.fds fd = some id

/-- A descriptor refers to one of the ends. -/
def PipeReferenced (v : Vfse Node) (pipe : Nat) : Prop :=
  ∃ id, v.Referenced id ∧ (v.file id).pipe = some pipe

/-- Files and pipes have been freed once if nothing refers to them any more, and not at all
    otherwise. -/
structure Accounted (v : Vfse Node) : Prop where
  pipes : ∀ pipe < v.pipes, (v.PipeReferenced pipe → v.freedPipes.count pipe = 0) ∧
    (¬ v.PipeReferenced pipe → v.freedPipes.count pipe = 1)
  files : ∀ id < v.made, (v.Referenced id → v.freed.count id = 0) ∧
    (¬ v.Referenced id → v.freed.count id = 1)

/-- `vfse_alloc_fd` finds a descriptor, and a second one from where it then goes on. -/
def TwoFree (v : Vfse Node) : Prop :=
  ∃ i, v.freeFd = some i ∧ ∃ j < 256, j ≠ i ∧ min (i + 1) 3 ≤ j ∧ v.fds j = none

/-- No end of a pipe loses its last descriptor, and there are descriptors for a new pipe. -/
def Spares (v : Vfse Node) : TableCall → Prop
  | .close fd => ∀ id, v.vfseGetFile fd = some id → 1 < (v.file id).refCount
  | .pipe => v.TwoFree
  | .dup2 oldfd newfd => v.vfseGetFile oldfd ≠ none →
      ∀ id, v.vfseGetFile newfd = some id → 1 < (v.file id).refCount
  | .dup _ | .dupfd _ _ => True

abbrev TableStep (v : Vfse Node) (call : TableCall) (v' : Vfse Node) : Prop := v' = v.after call

/-- Nothing has been freed, and all ends of all pipes are open. -/
structure Whole (v : Vfse Node) : Prop where
  sound : v.Sound
  freed : v.freed = []
  freedPipes : v.freedPipes = []
  made : v.made = 2 * v.pipes
  ends : ∀ id < v.made, (v.file id).pipe = some (id / 2)
  referenced : ∀ id < v.made, v.Referenced id

variable {v v' : Vfse Node} {fd id : Nat}

lemma vfseInit_whole : (vfseInit : Vfse Node).Whole where
  sound := vfseInit_sound
  freed := rfl
  freedPipes := rfl
  made := rfl
  ends := nofun
  referenced := nofun

lemma Whole.accounted (whole : v.Whole) : v.Accounted where
  pipes pipe below := by
    have low : 2 * pipe < v.made := by
      rw [whole.made]
      omega
    have open_ : v.PipeReferenced pipe := by
      refine ⟨2 * pipe, whole.referenced _ low, ?_⟩
      rw [whole.ends _ low, Nat.mul_div_cancel_left pipe (by decide)]
    rw [whole.freedPipes]
    exact ⟨fun _ => rfl, fun closed => absurd open_ closed⟩
  files id below := by
    rw [whole.freed]
    exact ⟨fun _ => rfl, fun closed => absurd (whole.referenced id below) closed⟩

/-- The other end of the pipe. -/
lemma Whole.partner (whole : v.Whole) (below : id < v.made) :
    ∃ other, other ≠ id ∧ other < v.made ∧ other / 2 = id / 2 := by
  have even := whole.made
  rcases even_or_odd' id with ⟨k, rfl | rfl⟩
  · exact ⟨2 * k + 1, by omega, by omega, by omega⟩
  · exact ⟨2 * k, by omega, by omega, by omega⟩

lemma Referenced.setFd_some (referenced : v.Referenced id) (free : v.fds fd = none) (id' : Nat) :
    (v.setFd fd (some id')).Referenced id := by
  obtain ⟨at_, inside, there⟩ := referenced
  refine ⟨at_, inside, ?_⟩
  rw [setFd_fds, update_of_ne]
  · exact there
  · rintro rfl
    rw [free] at there
    cases there

lemma Sound.referenced_setFd_none (sound : v.Sound) (referenced : v.Referenced id)
    (inside : fd < 256) (many : v.fds fd = some id → 1 < (v.file id).refCount) :
    (v.setFd fd none).Referenced id := by
  obtain ⟨at_, insideAt, there⟩ := referenced
  by_cases same : at_ = fd
  · subst same
    have balanced := (sound.counted at_ inside id there).1
    rw [excess] at balanced
    have rest := @refs_setFd Node v at_ id none inside
    rw [if_pos there, if_neg nofun] at rest
    have := many there
    exact exists_of_refs (by omega)
  · refine ⟨at_, insideAt, ?_⟩
    rw [setFd_fds, update_of_ne same]
    exact there

lemma addRef_pipe (v : Vfse Node) (at_ : Nat) (n : Int) (id : Nat) :
    ((v.addRef at_ n).file id).pipe = (v.file id).pipe := by
  rw [addRef_file]
  by_cases same : id = at_
  · subst same
    rw [update_self]
  · rw [update_of_ne same]

lemma Whole.addRef_ends (whole : v.Whole) (at_ : Nat) (n : Int) :
    ∀ id < v.made, ((v.addRef at_ n).file id).pipe = some (id / 2) := by
  intro id below
  rw [addRef_pipe]
  exact whole.ends id below

lemma Whole.vfseClose (whole : v.Whole) {fd : Int} (spares : v.Spares (.close fd)) :
    (v.vfseClose fd).1.Whole := by
  have sound := whole.sound.vfseClose fd
  unfold Vfse.vfseClose at sound ⊢
  cases there : v.vfseGetFile fd with
  | none => exact whole
  | some id =>
    rw [there] at sound
    have many := spares id there
    obtain ⟨-, inside, slot⟩ := vfseGetFile_some.mp there
    rw [vfseFreeFd_eq there, if_neg (by omega), if_neg (by omega)] at sound ⊢
    refine ⟨sound, whole.freed, whole.freedPipes, whole.made, whole.addRef_ends id (-1), ?_⟩
    intro id' below
    refine whole.sound.referenced_setFd_none (whole.referenced id' below) inside fun there' => ?_
    rw [slot] at there'
    cases there'
    exact many

lemma Whole.attach (whole : v.Whole) (free : v.fds fd = none) {n : Nat}
    (sound : ({ (v.addRef id 1).setFd fd (some id) with nextFd := n } : Vfse Node).Sound) :
    ({ (v.addRef id 1).setFd fd (some id) with nextFd := n } : Vfse Node).Whole where
  sound := sound
  freed := whole.freed
  freedPipes := whole.freedPipes
  made := whole.made
  ends := whole.addRef_ends id 1
  referenced id' below := (whole.referenced id' below).setFd_some free id

lemma Whole.copies (whole : v.Whole) {fd : Int} (copies : v.Copies fd v') : v'.Whole := by
  have sound := whole.sound.copies copies
  cases copies with
  | failed => exact whole
  | slot _ _ empty => exact whole.attach empty sound

variable {newfd oldfd : Int} {i : Nat}

lemma Spares.apart (spares : v.Spares (.dup2 oldfd newfd)) : v.Apart (.dup2 oldfd newfd) := by
  rintro rfl id there
  have many := spares (by rw [there]; exact nofun) id there
  omega

lemma Whole.vfseDup2 (whole : v.Whole) (spares : v.Spares (.dup2 oldfd newfd)) :
    (v.vfseDup2 oldfd newfd).1.Whole := by
  have sound := whole.sound.vfseDup2 spares.apart
  unfold Vfse.vfseDup2 at sound ⊢
  split
  · exact whole
  rename_i inside
  cases there : v.vfseGetFile oldfd with
  | none => exact whole
  | some id =>
    rw [if_neg inside, there] at sound
    have closed : (v.vfseClose newfd).1.Whole :=
      whole.vfseClose fun id' there' => spares (by rw [there]; exact nofun) id' there'
    have empty : (v.vfseClose newfd).1.fds newfd.toNat = none := by
      rw [vfseClose_fds (by omega), update_self]
    exact closed.attach empty sound

/-! ## New pipes -/

lemma freeFd_eq_none_iff (low : v.nextFd ≤ 256) :
    v.freeFd = none ↔ ∀ j < 256, min v.nextFd 3 ≤ j → v.fds j ≠ none := by
  unfold freeFd
  rw [find?_eq_none]
  constructor
  · intro none_free j inside above free
    refine none_free j ?_ (by rw [free]; rfl)
    rw [mem_append, mem_range'_1, mem_range'_1]
    omega
  · intro occupied j member free
    rw [mem_append, mem_range'_1, mem_range'_1] at member
    exact occupied j (by omega) (by omega) (by simpa using free)

/-- The table in which the first end has its descriptor. -/
def withReader (v : Vfse Node) (i : Nat) : Vfse Node :=
  { v.newPipe.setFd i (some v.made) with nextFd := i + 1 }

lemma withReader_freeFd (inside : i < 256) :
    (v.withReader i).freeFd = none ↔ ¬ ∃ j < 256, j ≠ i ∧ min (i + 1) 3 ≤ j ∧ v.fds j = none := by
  rw [freeFd_eq_none_iff (by exact inside)]
  constructor
  · rintro occupied ⟨j, insideJ, other, above, free⟩
    refine occupied j insideJ above ?_
    rw [withReader, setFd_fds, update_of_ne other]
    exact free
  · intro occupied j insideJ above free
    by_cases same : j = i
    · subst same
      rw [withReader, setFd_fds, update_self] at free
      cases free
    · rw [withReader, setFd_fds, update_of_ne same] at free
      exact occupied ⟨j, insideJ, same, above, free⟩

lemma vfsePipe_of_full (full : v.freeFd = none) : v.vfsePipe = (v.newPipe, -1, -1, -1) := by
  unfold vfsePipe
  rw [vfseAllocFd_of_full (v := v.newPipe) full]
  dsimp only
  rw [vfseAllocFd_of_full (v := v.newPipe) full]
  simp

lemma reader_of_free (free : v.freeFd = some i) :
    v.newPipe.vfseAllocFd v.made = (v.withReader i, (i : Int)) :=
  vfseAllocFd_of_free (v := v.newPipe) free v.made

lemma vfsePipe_of_one (free : v.freeFd = some i) (full : (v.withReader i).freeFd = none) :
    v.vfsePipe = (((v.withReader i).vfseClose i).1, -1, (i : Int), -1) := by
  unfold vfsePipe
  rw [reader_of_free free]
  dsimp only
  rw [vfseAllocFd_of_full full]
  simp

lemma vfsePipe_of_two {j : Nat} (free : v.freeFd = some i)
    (free' : (v.withReader i).freeFd = some j) :
    v.vfsePipe =
      ({ (v.withReader i).setFd j (some (v.made + 1)) with nextFd := j + 1 }, 0, (i : Int), (j : Int)) := by
  unfold vfsePipe
  rw [reader_of_free free]
  dsimp only
  rw [vfseAllocFd_of_free free']
  simp

lemma withReader_low (inside : i < 256) : (v.withReader i).nextFd ≤ 256 := inside

lemma newPipe_ends (whole : v.Whole) : ∀ id < v.newPipe.made, (v.newPipe.file id).pipe = some (id / 2) := by
  intro id below
  have made := whole.made
  have below : id < v.made + 2 := below
  simp only [newPipe, vfseAllocFile_file, vfseAllocFile_made]
  by_cases writer : id = v.made + 1
  · subst writer
    rw [update_self, pipeEnd]
    exact congrArg some (by omega)
  rw [update_of_ne writer, vfseAllocFile_file]
  by_cases reader : id = v.made
  · subst reader
    rw [update_self, pipeEnd]
    exact congrArg some (by omega)
  · rw [update_of_ne reader]
    exact whole.ends id (by omega)

lemma Whole.vfsePipe (whole : v.Whole) (two : v.TwoFree) : v.vfsePipe.1.Whole := by
  obtain ⟨i, free, another⟩ := two
  obtain ⟨inside, empty⟩ := freeFd_some whole.sound.low free
  have sound := whole.sound.vfsePipe
  cases free' : (v.withReader i).freeFd with
  | none => exact absurd another ((withReader_freeFd inside).mp free')
  | some j =>
    obtain ⟨inside', empty'⟩ := freeFd_some (withReader_low inside) free'
    rw [vfsePipe_of_two free free'] at sound ⊢
    refine ⟨sound, whole.freed, whole.freedPipes, ?_, newPipe_ends whole, fun id below => ?_⟩
    · exact (congrArg (· + 2) whole.made)
    have below : id < v.made + 2 := below
    have reader : (v.withReader i).Referenced v.made :=
      ⟨i, inside, update_self ..⟩
    by_cases writer : id = v.made + 1
    · subst writer
      exact ⟨j, inside', update_self ..⟩
    have earlier : (v.withReader i).Referenced id := by
      by_cases same : id = v.made
      · exact same ▸ reader
      · exact (whole.referenced id (by omega)).setFd_some (v := v) empty v.made
    exact earlier.setFd_some empty' (v.made + 1)

/-- A pipe whose writing end gets no descriptor leaves that end behind. -/
lemma Whole.not_accounted_of_full (whole : v.Whole) (one : ¬ v.TwoFree) : ¬ v.vfsePipe.1.Accounted := by
  have old : ∀ fd < 256, v.fds fd ≠ some (v.made + 1) := by
    intro fd inside there
    have := (whole.sound.counted fd inside _ there).2.2
    omega
  intro accounted
  cases free : v.freeFd with
  | none =>
    rw [vfsePipe_of_full free] at accounted
    have lost : ¬ v.newPipe.Referenced (v.made + 1) := by
      rintro ⟨fd, inside, there⟩
      exact old fd inside there
    have once := (accounted.files (v.made + 1) (lt_succ_self _)).2 lost
    have never : v.newPipe.freed = [] := whole.freed
    rw [never] at once
    cases once
  | some i =>
    obtain ⟨inside, -⟩ := freeFd_some whole.sound.low free
    have full : (v.withReader i).freeFd = none :=
      (withReader_freeFd inside).mpr fun another => one ⟨i, free, another⟩
    rw [vfsePipe_of_one free full] at accounted
    have slot : (v.withReader i).vfseGetFile i = some v.made := by
      rw [vfseGetFile_some]
      exact ⟨by omega, by simpa using inside, update_self ..⟩
    have lost : ¬ ((v.withReader i).vfseClose i).1.Referenced (v.made + 1) := by
      rintro ⟨fd, insideFd, there⟩
      rw [vfseClose_fds (by omega), Int.toNat_natCast] at there
      by_cases same : fd = i
      · rw [same, update_self] at there
        cases there
      · rw [update_of_ne same, withReader, setFd_fds, update_of_ne same] at there
        exact old fd insideFd there
    have made : ((v.withReader i).vfseClose i).1.made = v.made + 2 := vfseClose_made _
    have once := (accounted.files (v.made + 1) (by rw [made]; omega)).2 lost
    have freed : v.made + 1 ∉ ((v.withReader i).vfseClose i).1.freed := by
      rw [Vfse.vfseClose, slot]
      dsimp only
      rw [vfseFreeFd_eq slot]
      have never : (v.withReader i).freed = [] := whole.freed
      rw [never]
      split <;> simp
    rw [count_eq_zero_of_not_mem freed] at once
    cases once

/-! ## An end that loses its last descriptor -/

lemma vfseFreeFd_pipe {fd : Int} (there : v.vfseGetFile fd = some id) (id' : Nat) :
    ((v.vfseFreeFd fd).file id').pipe = (v.file id').pipe := by
  rw [vfseFreeFd_eq there]
  exact addRef_pipe v id (-1) id'

lemma vfseFreeFd_pipes {fd : Int} (there : v.vfseGetFile fd = some id) :
    (v.vfseFreeFd fd).pipes = v.pipes := by
  rw [vfseFreeFd_eq there]
  rfl

section

variable {fd : Int} (whole : v.Whole) (there : v.vfseGetFile fd = some id)
   (last : ¬ 1 < (v.file id).refCount)

include whole there last

/-- The pipe has been freed, and the other end still refers to it. -/
lemma Whole.not_accounted_of_last (freed : v'.freedPipes = (v.vfseFreeFd fd).freedPipes)
    (pipes : v'.pipes = v.pipes) (others : ∀ fd' ≠ fd.toNat, v'.fds fd' = v.fds fd')
    (ends : ∀ id, (v'.file id).pipe = (v.file id).pipe) : ¬ v'.Accounted := by
  obtain ⟨-, inside, slot⟩ := vfseGetFile_some.mp there
  have below := (whole.sound.counted _ inside id slot).2.2
  obtain ⟨other, apart, belowOther, same⟩ := whole.partner below
  obtain ⟨at_, insideAt, thereOther⟩ := whole.referenced other belowOther
  intro accounted
  have elsewhere : at_ ≠ fd.toNat := by
    rintro rfl
    rw [slot] at thereOther
    exact apart (Option.some.inj thereOther).symm
  have open_ : v'.PipeReferenced (id / 2) := by
    refine ⟨other, ⟨at_, insideAt, ?_⟩, ?_⟩
    · rw [others at_ elsewhere, thereOther]
    · rw [ends, whole.ends other belowOther, same]
  have made := whole.made
  have never := (accounted.pipes (id / 2) (by omega)).1 open_
  rw [freed, vfseFreeFd_eq there] at never
  dsimp only at never
  rw [if_pos (by omega), whole.freedPipes, whole.ends id below] at never
  simp at never

lemma Whole.not_accounted_of_close : ¬ (v.vfseClose fd).1.Accounted := by
  obtain ⟨lower, inside, -⟩ := vfseGetFile_some.mp there
  have fds := @vfseClose_fds Node v fd (by omega)
  rw [Vfse.vfseClose, there] at fds ⊢
  refine whole.not_accounted_of_last there last rfl (vfseFreeFd_pipes there) ?_ (vfseFreeFd_pipe there)
  intro fd' elsewhere
  exact (congrFun fds fd').trans (update_of_ne elsewhere _ _)

end

lemma Whole.not_accounted_of_dup2 (whole : v.Whole) {old : Nat}
    (thereOld : v.vfseGetFile oldfd = some old) (there : v.vfseGetFile newfd = some id)
    (last : ¬ 1 < (v.file id).refCount) : ¬ (v.vfseDup2 oldfd newfd).1.Accounted := by
  obtain ⟨lower, inside, -⟩ := vfseGetFile_some.mp there
  have closed : (v.vfseClose newfd).1 = v.vfseFreeFd newfd := by rw [Vfse.vfseClose, there]
  have fds := @vfseClose_fds Node v newfd (by omega)
  rw [closed] at fds
  rw [Vfse.vfseDup2, if_neg (by omega), thereOld]
  rw [closed]
  refine whole.not_accounted_of_last there last rfl (vfseFreeFd_pipes there) ?_ fun id' => ?_
  · intro fd' elsewhere
    rw [setFd_fds, update_of_ne elsewhere, addRef_fds, fds, update_of_ne elsewhere]
  · rw [setFd_file, addRef_pipe, vfseFreeFd_pipe there]

lemma Whole.after (whole : v.Whole) {call : TableCall} (spares : v.Spares call) : (v.after call).Whole := by
  cases call with
  | close fd => exact whole.vfseClose spares
  | pipe => exact whole.vfsePipe spares
  | dup fd => exact whole.copies (whole.sound.dup_copies fd)
  | dup2 oldfd newfd => exact whole.vfseDup2 spares
  | dupfd fd arg => exact whole.copies (whole.sound.dupfd_copies fd arg)

lemma Whole.after_accounted_iff (whole : v.Whole) (call : TableCall) :
    (v.after call).Accounted ↔ v.Spares call := by
  refine ⟨fun accounted => ?_, fun spares => (whole.after spares).accounted⟩
  cases call with
  | close fd =>
    intro id there
    by_contra last
    exact whole.not_accounted_of_close there last accounted
  | pipe =>
    by_contra one
    exact whole.not_accounted_of_full one accounted
  | dup2 oldfd newfd =>
    intro open_ id there
    obtain ⟨old, thereOld⟩ := Option.ne_none_iff_exists'.mp open_
    by_contra last
    exact whole.not_accounted_of_dup2 thereOld there last accounted
  | dup _ | dupfd _ _ => trivial

/-- A `vfse_pipe` that fails leaves the descriptors as they were. -/
lemma vfsePipe_failed_fds (low : v.nextFd ≤ 256) (failed : v.vfsePipe.2.1 = -1) :
    v.vfsePipe.1.fds = v.fds := by
  cases free : v.freeFd with
  | none =>
    rw [vfsePipe_of_full free]
    rfl
  | some i =>
    obtain ⟨inside, empty⟩ := freeFd_some low free
    cases free' : (v.withReader i).freeFd with
    | none =>
      have reader : (v.withReader i).fds = update v.fds i (some v.made) := rfl
      have restored : update (v.withReader i).fds i none = v.fds := by
        rw [reader, update_idem]
        exact update_eq_self_iff.mpr empty.symm
      rw [vfsePipe_of_one free free', vfseClose_fds (by omega), Int.toNat_natCast]
      exact restored
    | some j =>
      rw [vfsePipe_of_two free free'] at failed
      cases failed

end Vfse

/-- In every run in which no end of a pipe loses its last descriptor and every new pipe gets
    its two descriptors, files and pipes are freed exactly when nothing refers to them any
    more. The next call leaves it so if and only if it meets the condition too, and a
    `vfse_pipe` that fails leaves the descriptors as they were. -/
theorem pipes_freed_once {calls : List TableCall} {v : Vfse Node}
    (run : Run (When Vfse.TableStep Vfse.Spares) vfseInit calls v) :
    v.Accounted ∧ (∀ call, (v.after call).Accounted ↔ v.Spares call) ∧
      (v.vfsePipe.2.1 = -1 → v.vfsePipe.1.fds = v.fds) := by
  have keeps : ∀ (v : Vfse Node) (call : TableCall) (v' : Vfse Node), v.Whole →
      When Vfse.TableStep Vfse.Spares v call v' → v'.Whole := by
    rintro v call v' whole ⟨rfl, spares⟩
    exact whole.after spares
  have whole := run.invariant keeps vfseInit_whole
  exact ⟨whole.accounted, whole.after_accounted_iff, vfsePipe_failed_fds whole.sound.low⟩

/-- One of two descriptors of an end is closed. -/
theorem copied_end_closed :
    ((((vfseInit : Vfse Unit).after .pipe).after (.dup 3)).after (.close 3)).Accounted := by
  have run : Run (When Vfse.TableStep Vfse.Spares) (vfseInit : Vfse Unit) [.pipe, .dup 3, .close 3]
      ((((vfseInit : Vfse Unit).after .pipe).after (.dup 3)).after (.close 3)) := by
    refine .cons ⟨rfl, 3, by decide, 4, by decide, by decide, by decide, rfl⟩
      (.cons ⟨rfl, trivial⟩ (.cons ⟨rfl, fun id there => ?_⟩ (.nil _)))
    have reader : id = 0 := (Option.some.inj there).symm
    subst reader
    decide
  exact (pipes_freed_once run).1

/-- Closing the reading end frees the pipe while the other end is open, and closing that end
    frees it again. -/
theorem closed_end_frees_pipe :
    ¬ (((vfseInit : Vfse Unit).after .pipe).after (.close 3)).Accounted ∧
    ((((vfseInit : Vfse Unit).after .pipe).after (.close 3)).after (.close 4)).freedPipes = [0, 0] := by
  refine ⟨fun accounted => ?_, by decide⟩
  have never := (accounted.pipes 0 (by decide)).1 ⟨1, ⟨4, by decide, by decide⟩, by decide⟩
  exact absurd never (by decide)

end Znu.Files
