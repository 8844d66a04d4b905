import Znu.Lib.Queue

/-! # The bytes of a pipe

A pipe is a ring of 4096 bytes of which one stays free. `vfse_read` takes bytes until the ring is
empty, `vfse_write` puts them until it is full, and nothing ever sets `read_closed` and
`write_closed`.
-/

namespace Znu.Files

open Lib List

structure VfsePipe where
  buffer : Nat → UInt8
  size : Nat
  readPos : Nat
  writePos : Nat
  readClosed : Bool
  writeClosed : Bool

namespace VfsePipe

/-- The pipe that `vfse_pipe` makes of memory it has got from `kmalloc`. -/
def new (buffer : Nat → UInt8) : VfsePipe := ⟨buffer, 4096, 0, 0, false, false⟩

/-- The loop of `vfse_read`, with the bytes it stores. -/
def readLoop : Nat → VfsePipe → List UInt8 × VfsePipe
  | 0, p => ([], p)
  | count + 1, p =>
    if p.readPos = p.writePos then ([], p) else
    let next := if p.size ≤ p.readPos + 1 then 0 else p.readPos + 1
    let rest := readLoop count { p with readPos := next }
    (p.buffer p.readPos :: rest.1, rest.2)

def vfseRead (p : VfsePipe) (count : Nat) : List UInt8 × VfsePipe :=
  if p.readClosed then ([], p) else readLoop count p

/-- The loop of `vfse_write`, with the number of bytes it has taken. -/
def writeLoop : List UInt8 → VfsePipe → Nat × VfsePipe
  | [], p => (0, p)
  | b :: data, p =>
    let next := (p.writePos + 1) % p.size
    if next = p.readPos then (0, p) else
    let rest := writeLoop data { p with
      buffer := Function.update p.buffer p.writePos b, writePos := next }
    (rest.1 + 1, rest.2)

def vfseWrite (p : VfsePipe) (data : List UInt8) : Int × VfsePipe :=
  if p.writeClosed then (-1, p) else
  let put := writeLoop data p
  (put.1, put.2)

def contents (p : VfsePipe) : List UInt8 := Queue.contents p.size p.buffer p.writePos p.readPos

structure Sound (p : VfsePipe) : Prop where
  size : p.size = 4096
  readPos : p.readPos < 4096
  writePos : p.writePos < 4096
  readClosed : p.readClosed = false
  writeClosed : p.writeClosed = false

variable {p : VfsePipe}

lemma Sound.readLoop (sound : p.Sound) (count : Nat) :
    (readLoop count p).2.Sound ∧ p.contents = (readLoop count p).1 ++ (readLoop count p).2.contents := by
  induction count generalizing p with
  | zero => exact ⟨sound, rfl⟩
  | succ count ih =>
    obtain ⟨size, read, write, -⟩ := id sound
    unfold VfsePipe.readLoop
    split
    · exact ⟨sound, rfl⟩
    rename_i some
    have next : (if p.size ≤ p.readPos + 1 then 0 else p.readPos + 1) = (p.readPos + 1) % p.size := by
      rw [Queue.next_eq (by omega)]
      split <;> split <;> omega
    have inside : (p.readPos + 1) % p.size < 4096 := size ▸ Nat.mod_lt _ (by omega)
    have after := @ih { p with readPos := (p.readPos + 1) % p.size } { sound with readPos := inside }
    dsimp only
    rw [next]
    refine ⟨after.1, ?_⟩
    rw [contents, Queue.contents_pop (by omega) (by omega) (Ne.symm some), cons_append, ← after.2]
    rfl

lemma Sound.writeLoop (sound : p.Sound) (data : List UInt8) :
    (writeLoop data p).2.Sound ∧
      (writeLoop data p).2.contents = p.contents ++ data.take (writeLoop data p).1 ∧
      ((writeLoop data p).1 < data.length → (writeLoop data p).2.contents.length = 4095) := by
  induction data generalizing p with
  | nil => exact ⟨sound, (append_nil _).symm, fun less => absurd less (Nat.lt_irrefl 0)⟩
  | cons b data ih =>
    obtain ⟨size, read, write, -⟩ := id sound
    unfold VfsePipe.writeLoop
    dsimp only
    split
    next full =>
      refine ⟨sound, (append_nil _).symm, fun _ => ?_⟩
      rw [Queue.full_iff (by omega) (by omega)] at full
      rw [contents, Queue.length_contents]
      dsimp only
      omega
    rename_i space
    have inside : (p.writePos + 1) % p.size < 4096 := size ▸ Nat.mod_lt _ (by omega)
    obtain ⟨after, put, short⟩ := @ih { p with
      buffer := Function.update p.buffer p.writePos b, writePos := (p.writePos + 1) % p.size }
      { sound with writePos := inside }
    refine ⟨after, put.trans ?_, fun less => short (Nat.lt_of_succ_lt_succ less)⟩
    rw [contents, Queue.contents_push (by omega) (by omega) space, append_assoc]
    rfl

end VfsePipe

open VfsePipe

inductive PipeCall where
  | read (count : Nat)
  | write (data : List UInt8)

/-- A pipe, all bytes that have been read, and those that writes have reported as taken. -/
structure Transfer where
  pipe : VfsePipe
  returned : List UInt8
  accepted : List UInt8

open Transfer

def Transfer.step (t : Transfer) : PipeCall → Transfer
  | .read count =>
    let got := t.pipe.vfseRead count
    ⟨got.2, t.returned ++ got.1, t.accepted⟩
  | .write data =>
    let put := t.pipe.vfseWrite data
    ⟨put.2, t.returned, t.accepted ++ data.take put.1.toNat⟩

/-- In every run of reads and writes the bytes come out in the order in which they were taken, and
    a write takes less than it is given only if the pipe is full then. -/
theorem pipe_in_order (buffer : Nat → UInt8) (calls : List PipeCall) :
    let t := calls.foldl Transfer.step ⟨.new buffer, [], []⟩
    t.returned ++ t.pipe.contents = t.accepted ∧ t.pipe.readPos < 4096 ∧ t.pipe.writePos < 4096 ∧
      ∀ data, (t.pipe.vfseWrite data).1 < data.length → (t.pipe.vfseWrite data).2.contents.length = 4095 := by
  obtain ⟨sound, order⟩ := foldlRecOn
    (motive := fun t => t.pipe.Sound ∧ t.returned ++ t.pipe.contents = t.accepted) calls Transfer.step
    (b := ⟨.new buffer, [], []⟩) ⟨⟨rfl, Nat.zero_lt_succ _, Nat.zero_lt_succ _, rfl, rfl⟩,
      by simp [new, contents, Queue.contents, Queue.count]⟩ fun t kept call _ => by
      obtain ⟨sound, order⟩ := kept
      cases call with
      | read count =>
        have after := sound.readLoop count
        simp only [Transfer.step, vfseRead, sound.readClosed, Bool.false_eq_true, if_false]
        exact ⟨after.1, by rw [← order, after.2, append_assoc]⟩
      | write data =>
        have after := sound.writeLoop data
        simp only [Transfer.step, vfseWrite, sound.writeClosed, Bool.false_eq_true, if_false]
        exact ⟨after.1, by rw [after.2.1, ← append_assoc, order, Int.toNat_natCast]⟩
  refine ⟨order, sound.readPos, sound.writePos, fun data less => ?_⟩
  rw [vfseWrite, sound.writeClosed] at less ⊢
  exact (sound.writeLoop data).2.2 (Int.ofNat_lt.mp less)

end Znu.Files
