import Mathlib

/-! # Descriptors of the E1000 network driver -/

namespace Znu.E1000

open Function List

structure Desc where
  (addr length status : Nat)

/-- The rings, the frames they are in, the frames allocated for buffers, and the places of the
    driver and of the device in each ring. -/
structure Device where
  (rxPhys txPhys : Nat)
  (rxFrames txFrames : List Nat)
  (rxRing txRing : Nat → Desc)
  (rxCur txCur rdh rdt tdh tdt : Nat)

/-- The three frames are what `palloc_zero` returns. -/
def e1000Init (rxPhys buffersPhys txPhys : Nat) : Device :=
  { rxPhys, txPhys, rxFrames := [buffersPhys], txFrames := []
    rxRing := fun i => ⟨buffersPhys + i * 4096, 0, 0⟩
    txRing := fun _ => ⟨0, 0, 0⟩
    rxCur := 0, txCur := 0, rdh := 0, rdt := 255, tdh := 0, tdt := 0 }

namespace Device

variable (d : Device)

def e1000SendPacket (len : Nat) : Device :=
  let desc := { d.txRing d.txCur with length := len % 2 ^ 16, status := 0 }
  let next := (d.txCur + 1) % 256
  { d with txRing := update d.txRing d.txCur desc, txCur := next, tdt := next }

def e1000ReceivePacket : Device :=
  let desc := d.rxRing d.rxCur
  if desc.status % 2 = 0 then d
  else
    { d with
      rxRing := update d.rxRing d.rxCur { desc with status := 0 }
      rxCur := (d.rxCur + 1) % 256
      rdt := d.rxCur }

/-- The device fills the buffer at its place, if it owns one. -/
def fill (len : Nat) : Device :=
  if d.rdh = d.rdt then d
  else
    { d with
      rxRing := update d.rxRing d.rdh { d.rxRing d.rdh with length := len, status := 1 }
      rdh := (d.rdh + 1) % 256 }

/-- The device has sent the packet at its place, if it owns one. -/
def drain : Device :=
  if d.tdh = d.tdt then d
  else
    { d with
      txRing := update d.txRing d.tdh { d.txRing d.tdh with status := 1 }
      tdh := (d.tdh + 1) % 256 }

/-- The places of a ring from the device's up to the driver's. -/
def owned (head tail : Nat) : List Nat :=
  (List.range ((tail + 256 - head) % 256)).map fun k => (head + k) % 256

/-- The buffers the device owns: their addresses and lengths, and the frames allocated for their
    purpose. A receive buffer has 2048 bytes, as `RCTL` says. -/
def buffers : List ((Nat × Nat) × List Nat) :=
  ((owned d.rdh d.rdt).map fun i => (((d.rxRing i).addr, 2048), d.rxFrames)) ++
    (owned d.tdh d.tdt).map fun i => (((d.txRing i).addr, (d.txRing i).length), d.txFrames)

/-- Every buffer is inside a frame of its purpose, and buffers and rings are apart. -/
structure Sound : Prop where
  inside : ∀ b ∈ d.buffers, ∃ frame ∈ b.2, frame ≤ b.1.1 ∧ b.1.1 + b.1.2 ≤ frame + 4096
  apart : ((d.rxPhys, 4096) :: (d.txPhys, 4096) :: d.buffers.map Prod.fst).Pairwise
    fun b c => b.1 + b.2 ≤ c.1 ∨ c.1 + c.2 ≤ b.1

end Device

inductive Event where
  | send (len : Nat)
  | receive
  | fill (len : Nat)
  | drain

def Event.run (d : Device) : Event → Device
  | send len => d.e1000SendPacket len
  | receive => d.e1000ReceivePacket
  | fill len => d.fill len
  | drain => d.drain

/-- The states of a run. `e1000_init` returns at once when no device is found. -/
def states (found : Bool) (rxPhys buffersPhys txPhys : Nat) (events : List Event) : List Device :=
  if found then events.scanl Event.run (e1000Init rxPhys buffersPhys txPhys) else []

/-- The buffer of the second receive descriptor lies behind the one frame that was allocated. -/
lemma init_unsound (rxPhys buffersPhys txPhys : Nat) : ¬ (e1000Init rxPhys buffersPhys txPhys).Sound := by
  intro sound
  have second : 1 ∈ Device.owned 0 255 := by decide
  obtain ⟨frame, listed, -, upper⟩ := sound.inside ((buffersPhys + 1 * 4096, 2048), [buffersPhys])
    (mem_append_left _ (mem_map.mpr ⟨1, second, rfl⟩))
  cases mem_singleton.mp listed
  simp at upper

/-- A run is sound exactly if there is no device: only the first receive buffer is the driver's. -/
theorem run_sound_iff (found : Bool) (rxPhys buffersPhys txPhys : Nat) (events : List Event) :
    (∀ d ∈ states found rxPhys buffersPhys txPhys events, d.Sound) ↔ found = false := by
  cases found with
  | false => simp [states]
  | true =>
    have first : e1000Init rxPhys buffersPhys txPhys ∈ states true rxPhys buffersPhys txPhys events := by
      cases events <;> simp [states]
    refine iff_of_false (fun sound => ?_) (by simp)
    exact init_unsound rxPhys buffersPhys txPhys (sound _ first)

theorem first_state_unsound : ¬ ∀ d ∈ states true 0x1000 0x2000 0x3000 [], d.Sound := by
  intro sound
  exact init_unsound 0x1000 0x2000 0x3000 (sound _ List.mem_cons_self)

end Znu.E1000
