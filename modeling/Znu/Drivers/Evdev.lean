import Znu.Lib.Queue
import Znu.Lib.Transducer

/-! # Input events

The keyboard puts events into a ring, and whoever reads the device takes them out. When the ring is
full, the oldest event makes room for the newest.
-/

namespace Znu.Evdev

open Lib Queue List

variable {Event : Type}

structure EvdevState (Event : Type) where
  buffer : Nat → Event
  (head tail : Nat)

def evdevPushEvent (state : EvdevState Event) (ev : Event) : EvdevState Event :=
  let head := (state.head + 1) % 64
  { buffer := Function.update state.buffer state.head ev
    head
    tail := if head = state.tail then (state.tail + 1) % 64 else state.tail }

/-- The loop of `devfs_evdev_read`, with room for `n` more events. -/
def readLoop : Nat → EvdevState Event → List Event × EvdevState Event
  | 0, state => ([], state)
  | n + 1, state =>
    if state.head ≠ state.tail then
      let rest := readLoop n { state with tail := (state.tail + 1) % 64 }
      (state.buffer state.tail :: rest.1, rest.2)
    else ([], state)

/-- The events that are copied out, of 24 bytes each, and the state afterwards. -/
def devfsEvdevRead (state : EvdevState Event) (size : Nat) : List Event × EvdevState Event :=
  readLoop (size / 24) state

inductive Call (Event : Type) where
  | push (ev : Event)
  | read (size : Nat)

def respond (state : EvdevState Event) : Call Event → List Event × EvdevState Event
  | .push ev => ([], evdevPushEvent state ev)
  | .read size => devfsEvdevRead state size

/-- What the ring is for: the last 63 events that have not been read. -/
def keep (unread : List Event) : Call Event → List Event × List Event
  | .push ev => ([], (unread ++ [ev]).drop (unread.length + 1 - 63))
  | .read size => (unread.take (size / 24), unread.drop (size / 24))

structure Holds (state : EvdevState Event) (unread : List Event) : Prop where
  head : state.head < 64
  tail : state.tail < 64
  unread : contents 64 state.buffer state.head state.tail = unread

variable {state : EvdevState Event} {unread : List Event}

lemma next_lt (i : Nat) : (i + 1) % 64 < 64 := Nat.mod_lt _ (by decide)

lemma push_holds (holds : Holds state unread) (ev : Event) :
    Holds (evdevPushEvent state ev) ((unread ++ [ev]).drop (unread.length + 1 - 63)) := by
  obtain ⟨head, tail, rfl⟩ := holds
  have full := full_iff head tail
  have bound := count_lt head state.tail
  rw [length_contents, evdevPushEvent]
  by_cases wraps : (state.head + 1) % 64 = state.tail
  · rw [show count 64 state.head state.tail + 1 - 63 = 1 by omega, contents_pop head tail (by omega)]
    simp only [if_pos wraps]
    exact ⟨next_lt _, next_lt _, contents_push head (next_lt _) (by omega) ev⟩
  · rw [show count 64 state.head state.tail + 1 - 63 = 0 by omega]
    simp only [if_neg wraps]
    exact ⟨next_lt _, tail, contents_push head tail wraps ev⟩

lemma read_holds (holds : Holds state unread) (n : Nat) :
    (readLoop n state).1 = unread.take n ∧ Holds (readLoop n state).2 (unread.drop n) := by
  induction n generalizing state unread with
  | zero => exact ⟨rfl, holds⟩
  | succ n ih =>
    obtain ⟨head, tail, rfl⟩ := holds
    by_cases empty : state.head = state.tail
    · have none : contents 64 state.buffer state.head state.tail = [] := by
        rw [← length_eq_zero_iff, length_contents, count_eq_zero head tail, empty]
      rw [readLoop, if_neg (not_not.mpr empty), none]
      exact ⟨rfl, head, tail, none⟩
    · rw [readLoop, if_pos empty, contents_pop head tail empty]
      have rest : Holds { state with tail := (state.tail + 1) % 64 } _ := ⟨head, next_lt _, rfl⟩
      obtain ⟨events, after⟩ := ih rest
      exact ⟨congrArg (_ :: ·) events, after⟩

lemma answers_eq (holds : Holds state unread) (calls : List (Call Event)) :
    answers respond state calls = answers keep unread calls := by
  induction calls generalizing state unread with
  | nil => rfl
  | cons call calls ih =>
    rw [answers, answers]
    cases call with
    | push ev => exact congrArg (_ :: ·) (ih (push_holds holds ev))
    | read size =>
      obtain ⟨events, after⟩ := read_holds holds (size / 24)
      rw [respond, devfsEvdevRead, keep, events, ih after]

/-- For every sequence of calls, the readers get what they would get from a queue that forgets
    all but the last 63 events. -/
theorem evdev_keeps_last (buffer : Nat → Event) (calls : List (Call Event)) :
    answers respond ⟨buffer, 0, 0⟩ calls = answers keep [] calls := by
  have start : Holds ⟨buffer, 0, 0⟩ [] := ⟨Nat.succ_pos _, Nat.succ_pos _, by simp [contents, Queue.count]⟩
  exact answers_eq start calls

end Znu.Evdev
