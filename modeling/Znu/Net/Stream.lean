import Znu.Lib.Along
import Znu.Net.Tcp

/-! # What a connection receives

The peer of a connection sends a stream of bytes, in segments that carry the place of their first
byte. The connection does not look at that place: it stores what a segment brings behind what it has
stored before, as far as there is room, and it acknowledges the end of the segment. So what is read
is the peer's stream only as long as the segments come in order, and what is acknowledged has been
stored only as long as there is room for them.
-/

namespace Znu.Net

open Lib List Endpoint Circular Nat

variable {e r : Endpoint} {op : Op} {s : Segment} {stream : List UInt8}

/-! ## The stream -/

namespace Endpoint

/-- Everything that has been stored: what has been returned, and what has not yet. -/
def stored (e : Endpoint) : List UInt8 := e.returned ++ e.conn.rx.contents

def storing (e : Endpoint) : Op → List UInt8
  | .enter s => if e.conn.accepts then s.data.take e.conn.rx.free else []
  | _ => []

lemma handleData_contents (c : Conn) (s : Segment) :
    (handleData c s).1.rx.contents = c.rx.contents ++ s.data.take c.rx.free := by
  rw [handleData]
  split
  · exact contents_put ..
  · next none =>
      have empty : s.data = [] := length_eq_zero_iff.mp (by omega)
      rw [empty, take_nil, append_nil]

lemma stored_step (e : Endpoint) (op : Op) : (e.step op).stored = e.stored ++ e.storing op := by
  cases op with
  | enter s =>
    rw [step, act, storing]
    split
    · rw [stored, stored, append_assoc, ← handleData_contents]
    rw [append_nil]
  | resume =>
    change _ = e.stored ++ []
    rw [step, act, append_nil]
    split
    · rfl
    · split
      · rfl
      · rfl
    · rfl
  | recv maxLen =>
    change e.returned ++ (e.conn.rx.take maxLen).1 ++ (e.conn.rx.take maxLen).2.contents = e.stored ++ []
    rw [append_assoc, Circular.take_append, append_nil, stored]
  | send _ _ | advance _ | close => exact (append_nil _).symm

lemma returned_recv_count (e : Endpoint) : (e.step (.recv e.conn.rx.count)).returned = e.stored := by
  have whole := e.conn.rx.take_append e.conn.rx.count
  have none : (e.conn.rx.take e.conn.rx.count).2.contents = [] := by
    apply eq_nil_of_length_eq_zero
    rw [length_contents, count_take, Nat.min_self, Nat.sub_self]
  rw [none, append_nil] at whole
  exact congrArg (e.returned ++ ·) whole

lemma returned_recv_prefix (e : Endpoint) (n : Nat) : (e.step (.recv n)).returned <+: e.stored := by
  refine ⟨(e.conn.rx.take n).2.contents, ?_⟩
  change e.returned ++ (e.conn.rx.take n).1 ++ (e.conn.rx.take n).2.contents = _
  rw [append_assoc, Circular.take_append, stored]

end Endpoint

/-- After the step, however much is read next, the bytes returned are the peer's stream. -/
def ReadsStream (stream : List UInt8) (e : Endpoint) (op : Op) : Prop :=
  ∀ n, ((e.step op).step (.recv n)).returned <+: stream

/-- The bytes that are stored are those that come next in the peer's stream. -/
def StoresNext (stream : List UInt8) (e : Endpoint) (op : Op) : Prop :=
  e.storing op <+: stream.drop e.stored.length

lemma append_prefix_iff {first second whole : List UInt8} (start : first <+: whole) :
    first ++ second <+: whole ↔ second <+: whole.drop first.length := by
  obtain ⟨-, rfl⟩ := start
  rw [drop_left, prefix_append_right_inj]

lemma stored_of_readsStream (stream : List UInt8) (e : Endpoint) (op : Op) :
    ReadsStream stream e op ↔ (e.step op).stored <+: stream := by
  constructor
  · intro reads
    rw [← returned_recv_count]
    exact reads _
  · intro next n
    exact ( returned_recv_prefix _ n).trans next

/-- A connection that has received nothing. -/
def fresh (c : Conn) : Endpoint := ⟨c, [], []⟩

/-- Along every run of a connection, what is read is the peer's stream exactly if every segment
    that is stored brings what comes next in it. -/
theorem recv_prefix_iff (c : Conn) (empty : c.rx.count = 0) (stream : List UInt8) (ops : List Op) :
    Along step (ReadsStream stream) (fresh c) ops ↔
      Along step (StoresNext stream) (fresh c) ops := by
  have start : (fresh c).stored <+: stream := by
    have none : c.rx.contents = [] := by
      apply eq_nil_of_length_eq_zero
      rw [length_contents, empty]
    rw [stored, fresh, none]
    exact nil_prefix
  apply Along.congr_inv (I := fun e => e.stored <+: stream)
  · intro e op inv
    rw [stored_of_readsStream, e.stored_step, append_prefix_iff inv, StoresNext]
  · intro e op inv next
    rw [e.stored_step, append_prefix_iff inv]
    exact next
  · exact start

/-- What the segments of a run bring into the ring. -/
def accepted : Endpoint → List Op → List UInt8
  | _, [] => []
  | e, op :: ops => e.storing op ++ accepted (e.step op) ops

lemma stored_run (e : Endpoint) (ops : List Op) : (ops.foldl step e).stored = e.stored ++ accepted e ops := by
  induction ops generalizing e with
  | nil => exact (append_nil _).symm
  | cons op ops ih => rw [foldl_cons, ih, e.stored_step, accepted, append_assoc]

/-- The three counters of the ring stay in step, and what is read and what is in the ring are the
    bytes that were accepted, in their order. -/
theorem ring_in_order (c : Conn) (ops : List Op) :
    let e := ops.foldl step (fresh c)
    e.conn.rx.count ≤ rxBufSize ∧ e.conn.rx.tail = (e.conn.rx.head + e.conn.rx.count) % rxBufSize ∧
      e.returned ++ e.conn.rx.contents = c.rx.contents ++ accepted (fresh c) ops := by
  intro e
  exact ⟨e.conn.rx.count_le, e.conn.rx.tail_eq, stored_run (fresh c) ops⟩

/-- A segment of the peer's stream, whose first byte has the number `isn`. -/
def OfStream (stream : List UInt8) (isn : BitVec 32) (s : Segment) : Prop :=
  ∃ offset, s.seq = isn + BitVec.ofNat 32 offset ∧ s.data <+: stream.drop offset

instance (stream : List UInt8) (e : Endpoint) (op : Op) : Decidable (StoresNext stream e op) :=
  inferInstanceAs (Decidable (_ <+: _))

/-- An established connection with an empty ring. -/
def idle : Conn where
  state := .established
  remoteIp := [10, 0, 2, 2]
  remotePort := 80
  localPort := 49152
  seq := 1
  ack := 100
  rx := ⟨fun _ => 0, 0, 0, 0, by decide, by decide, by decide⟩
  finReceived := false

def carrying (seq : BitVec 32) (data : List UInt8) : Segment := ⟨seq, 1, tcpFlagAck, data⟩

theorem ordered_read :
    Along step (ReadsStream [7, 8, 9]) (fresh idle)
      (wholeCall (carrying 100 [7]) ++ .recv 5 :: wholeCall (carrying 101 [8, 9])) :=
  (recv_prefix_iff idle rfl [7, 8, 9] _).mpr (by decide)

/-- A segment that comes twice is read twice. -/
theorem duplicate_read :
    OfStream [7] 100 (carrying 100 [7]) ∧
      ¬((wholeCall (carrying 100 [7]) ++ wholeCall (carrying 100 [7]) ++ [Op.recv 2]).foldl
          step (fresh idle)).returned <+: [7] :=
  ⟨⟨0, by decide, by decide⟩, by decide⟩

/-! ## Acknowledgements -/

/-- A connection beside what its peer has sent: how many bytes, the first of them that has not been
    stored, and whether there was a FIN behind them. -/
structure Watched where
  endpoint : Endpoint
  delivered : Nat
  first : Nat
  finished : Bool

namespace Watched

/-- The first byte that has not been stored after a step that stores `n` bytes of a segment. -/
def firstAfter (w : Watched) (n : Nat) : Nat := if w.first = w.delivered then w.first + n else w.first

def step (w : Watched) (op : Op) : Watched :=
  match op with
  | .enter s =>
    { endpoint := w.endpoint.step op
      delivered := w.delivered + s.data.length
      first := w.firstAfter (w.endpoint.storing op).length
      finished := w.finished || s.fin }
  | _ => { w with endpoint := w.endpoint.step op }

/-- The number of the first byte that has not been stored, counted from `isn`; the FIN counts when
    everything before it has been stored. -/
def limit (isn : BitVec 32) (w : Watched) : BitVec 32 :=
  isn + BitVec.ofNat 32 (w.first + if w.finished ∧ w.first = w.delivered then 1 else 0)

end Watched

/-- The distance between two numbers is taken with its sign. -/
def Exceeds (a b : BitVec 32) : Prop := 0 < (a - b).toInt

/-- The segments of the peer come in order: each that carries data or a FIN begins where the one
    before it ended, and nothing comes behind a FIN. -/
def InOrder (isn : BitVec 32) (w : Watched) : Op → Prop
  | .enter s =>
    s.data.length < 2 ^ 16 ∧
      (s.data ≠ [] ∨ s.fin → w.finished = false ∧ s.seq = isn + BitVec.ofNat 32 w.delivered)
  | _ => True

/-- No segment that the step sends acknowledges a byte that has not been stored. -/
def AcksStored (isn : BitVec 32) (w : Watched) (op : Op) : Prop :=
  ∀ x ∈ w.endpoint.sends op, ¬Exceeds x.ack ((w.step op).limit isn)

/-- There is room for the data of a segment. -/
def Fits (w : Watched) : Op → Prop
  | .enter s => w.endpoint.conn.accepts → s.data.length ≤ w.endpoint.conn.rx.free
  | _ => True

/-- What holds as long as there has been room. -/
structure Kept (isn : BitVec 32) (w : Watched) : Prop where
  all : w.endpoint.conn.accepts → w.first = w.delivered
  ack : w.endpoint.conn.ack = isn + BitVec.ofNat 32 w.first ∨
    w.finished ∧ w.first = w.delivered ∧ w.endpoint.conn.ack = isn + BitVec.ofNat 32 (w.first + 1)
  calls : ∀ s, (s, false) ∈ w.endpoint.calls → s.fin →
    w.finished ∧ w.first = w.delivered ∧ s.seq + s.dataLen = isn + BitVec.ofNat 32 w.delivered

variable {isn : BitVec 32} {w : Watched}

lemma distance (isn : BitVec 32) (n k : Nat) :
    isn + BitVec.ofNat 32 (n + k) - (isn + BitVec.ofNat 32 n) = BitVec.ofNat 32 k := by
  rw [BitVec.ofNat_add]
  ring

lemma distance_back (isn : BitVec 32) (n : Nat) :
    isn + BitVec.ofNat 32 n - (isn + BitVec.ofNat 32 (n + 1)) = -1#32 := by
  rw [BitVec.ofNat_add]
  ring_nf

lemma Kept.not_exceeds (kept : Kept isn w) : ¬Exceeds w.endpoint.conn.ack (w.limit isn) := by
  unfold Exceeds Watched.limit
  obtain ack | ⟨finished, all, ack⟩ := kept.ack
  · rw [ack]
    by_cases whole : w.finished ∧ w.first = w.delivered
    · rw [if_pos whole, distance_back]
      decide
    · rw [if_neg whole, add_zero, BitVec.sub_self]
      decide
  · rw [ack, if_pos ⟨finished, all⟩, BitVec.sub_self]
    decide

namespace Endpoint

lemma step_enter (accepts : e.conn.accepts) (s : Segment) :
    e.step (.enter s) = { e with conn := (handleData e.conn s).1, calls := (s, false) :: e.calls } := by
  rw [step, act, if_pos accepts]

lemma step_enter_ignored (ignored : ¬e.conn.accepts) (s : Segment) : e.step (.enter s) = e := by
  rw [step, act, if_neg ignored]

/-- Every segment that is sent carries the acknowledgement number of its connection. -/
lemma ack_of_sends {x : Sent} (sent : x ∈ e.sends op) : x.ack = (e.step op).conn.ack := by
  cases op with
  | enter s =>
    rw [sends, act] at sent
    rw [step, act]
    split at sent
    · next accepts =>
        rw [if_pos accepts]
        rw [handleData] at sent ⊢
        split at sent
        · next some =>
            rw [if_pos some]
            cases mem_singleton.mp sent
            rfl
        · cases sent
    · cases sent
  | resume =>
    rw [sends, act] at sent
    rw [step, act]
    cases calls : e.calls with
    | nil =>
      rw [calls] at sent
      cases sent
    | cons call rest =>
      obtain ⟨s, again⟩ := call
      rw [calls] at sent
      cases again with
      | true => cases sent
      | false =>
        dsimp only at sent ⊢
        split at sent
        · next ends =>
            rw [if_pos ends]
            cases mem_singleton.mp sent
            rfl
        · cases sent
  | recv maxLen => cases sent
  | send flags data =>
    cases mem_singleton.mp sent
    rfl
  | advance _ | close => cases sent

lemma finState_ignores (c : Conn) : ¬(finState c).accepts := by
  rw [finState, Conn.accepts_iff]
  dsimp only
  split
  · decide
  · decide

end Endpoint

lemma Fits.storing (fits : Fits w (.enter s)) (accepts : w.endpoint.conn.accepts) :
    (w.endpoint.storing (.enter s)).length = s.data.length := by
  rw [Endpoint.storing, if_pos accepts, length_take, min_eq_right (fits accepts)]

lemma firstAfter_zero (w : Watched) : w.firstAfter 0 = w.first := by
  rw [Watched.firstAfter]
  split
  · rfl
  · rfl

section

variable (kept : Kept isn w)

include kept

/-- As long as there was no FIN, the connection acknowledges what has been stored. -/
lemma Kept.ack_unfinished (unfinished : w.finished = false) :
    w.endpoint.conn.ack = isn + BitVec.ofNat 32 w.first := by
  obtain ack | ⟨finished, -⟩ := kept.ack
  · exact ack
  · rw [unfinished] at finished
    cases finished

lemma Kept.enter_bare (bare : s.data = []) (open_ : s.fin = false) : Kept isn (w.step (.enter s)) := by
  have nothing : (w.endpoint.storing (.enter s)).length = 0 := by
    rw [storing, bare, take_nil, ite_self, length_nil]
  have conn : (w.endpoint.step (.enter s)).conn = w.endpoint.conn := by
    by_cases accepts : w.endpoint.conn.accepts
    · rw [step_enter accepts, handleData, bare]
      rfl
    · rw [step_enter_ignored accepts]
  have calls : ∀ t, (t, false) ∈ (w.endpoint.step (.enter s)).calls → t.fin →
      (t, false) ∈ w.endpoint.calls := by
    intro t mem ends
    by_cases accepts : w.endpoint.conn.accepts
    · rw [step_enter accepts] at mem
      cases mem with
      | head =>
        rw [open_] at ends
        cases ends
      | tail _ mem => exact mem
    · rw [step_enter_ignored accepts] at mem
      exact mem
  have same : w.step (.enter s) = { w with endpoint := w.endpoint.step (.enter s) } := by
    rw [Watched.step, nothing, firstAfter_zero, bare, open_, Bool.or_false]
    rfl
  rw [same]
  refine ⟨?_, ?_, ?_⟩
  · dsimp only
    rw [conn]
    exact kept.all
  · dsimp only
    rw [conn]
    exact kept.ack
  · intro t mem ends
    exact kept.calls t (calls t mem ends) ends

lemma Kept.enter_ignored (unfinished : w.finished = false) (ignored : ¬w.endpoint.conn.accepts) :
    Kept isn (w.step (.enter s)) := by
  have nothing : (w.endpoint.storing (.enter s)).length = 0 := by
    rw [storing, if_neg ignored, length_nil]
  rw [Watched.step, nothing, firstAfter_zero, step_enter_ignored ignored]
  refine ⟨?_, ?_, ?_⟩
  · intro accepts
    exact absurd accepts ignored
  · exact .inl (kept.ack_unfinished unfinished)
  · intro t mem ends
    have finished := (kept.calls t mem ends).1
    rw [unfinished] at finished
    cases finished

/-- A segment that is taken, and there is room for it. -/
lemma Kept.enter_taken (unfinished : w.finished = false)
    (seq : s.seq = isn + BitVec.ofNat 32 w.delivered) (accepts : w.endpoint.conn.accepts)
    (fits : Fits w (.enter s)) : Kept isn (w.step (.enter s)) := by
  have all := kept.all accepts
  have ends : s.seq + s.dataLen = isn + BitVec.ofNat 32 (w.delivered + s.data.length) := by
    rw [seq, Segment.dataLen, BitVec.ofNat_add, BitVec.add_assoc]
  have ack : (handleData w.endpoint.conn s).1.ack = isn + BitVec.ofNat 32 (w.delivered + s.data.length) := by
    rw [handleData]
    split
    · exact ends
    · next none =>
        have zero : s.data.length = 0 := by omega
        rw [zero, add_zero, ← all]
        exact kept.ack_unfinished unfinished
  rw [Watched.step, fits.storing accepts, Watched.firstAfter, if_pos all, step_enter accepts, all]
  refine ⟨?_, ?_, ?_⟩
  · intro _
    rfl
  · exact .inl ack
  intro t mem fin
  cases mem with
  | head => exact ⟨by rw [fin, Bool.or_true], rfl, ends⟩
  | tail _ mem =>
    have finished := (kept.calls t mem fin).1
    rw [unfinished] at finished
    cases finished

lemma Kept.enter (ordered : InOrder isn w (.enter s)) (fits : Fits w (.enter s)) :
    Kept isn (w.step (.enter s)) := by
  by_cases carries : s.data ≠ [] ∨ s.fin
  · obtain ⟨unfinished, seq⟩ := ordered.2 carries
    by_cases accepts : w.endpoint.conn.accepts
    · exact kept.enter_taken unfinished seq accepts fits
    · exact kept.enter_ignored unfinished accepts
  · obtain ⟨bare, open_⟩ := not_or.mp carries
    exact kept.enter_bare (not_not.mp bare) (Bool.eq_false_of_not_eq_true open_)

lemma Kept.resume : Kept isn (w.step .resume) := by
  have step : w.step .resume = { w with endpoint := w.endpoint.step .resume } := rfl
  rw [step, Endpoint.step, Endpoint.act]
  split
  · exact kept
  · next s calls here =>
      have mem : (s, false) ∈ w.endpoint.calls := by
        rw [here]
        exact mem_cons_self
      have others : ∀ t, (t, false) ∈ calls → (t, false) ∈ w.endpoint.calls := by
        intro t mem
        rw [here]
        exact mem_cons_of_mem _ mem
      split
      · next ends =>
          obtain ⟨finished, all, seq⟩ := kept.calls s mem ends
          refine ⟨kept.all, .inr ⟨finished, all, ?_⟩, ?_⟩
          · change s.seq + s.dataLen + 1 = _
            rw [seq, all, BitVec.ofNat_add, BitVec.add_assoc]
            rfl
          · intro t mem
            cases mem with
            | tail _ mem => exact kept.calls t (others t mem)
      · exact ⟨kept.all, kept.ack, fun t mem => kept.calls t (others t mem)⟩
  · next calls here =>
      refine ⟨?_, kept.ack, ?_⟩
      · intro accepts
        exact absurd accepts (finState_ignores _)
      · intro t mem
        apply kept.calls t
        rw [here]
        exact mem_cons_of_mem _ mem

lemma Kept.step (ordered : InOrder isn w op) (fits : Fits w op) : Kept isn (w.step op) := by
  cases op with
  | enter s => exact kept.enter ordered fits
  | resume => exact kept.resume
  | recv maxLen => exact ⟨kept.all, kept.ack, kept.calls⟩
  | send flags data => exact kept
  | advance n => exact ⟨kept.all, kept.ack, kept.calls⟩
  | close => exact ⟨fun accepts => (by cases accepts), kept.ack, kept.calls⟩

end

lemma watched_endpoint (w : Watched) (op : Op) : (w.step op).endpoint = w.endpoint.step op := by
  cases op <;> rfl

/-- Where there is no room, the whole segment is acknowledged all the same. -/
lemma exceeds_of_not_fits (kept : Kept isn w) (ordered : InOrder isn w (.enter s))
    (full : ¬Fits w (.enter s)) : ¬AcksStored isn w (.enter s) := by
  obtain ⟨accepts, short⟩ := not_forall.mp full
  have all := kept.all accepts
  have some : 0 < s.data.length := by omega
  obtain ⟨small, order⟩ := ordered
  obtain ⟨-, seq⟩ := order (.inl (ne_nil_of_length_pos some))
  have cut : (w.endpoint.storing (.enter s)).length = w.endpoint.conn.rx.free := by
    rw [storing, if_pos accepts, length_take, min_eq_left (by omega)]
  have limit : (w.step (.enter s)).limit isn =
      isn + BitVec.ofNat 32 (w.delivered + w.endpoint.conn.rx.free) := by
    rw [Watched.step, cut, Watched.firstAfter, if_pos all, Watched.limit, all]
    dsimp only
    rw [if_neg (by omega), add_zero]
  have sent : w.endpoint.sends (.enter s) =
      [tcpSendSeg { w.endpoint.conn with rx := w.endpoint.conn.rx.put s.data, ack := s.seq + s.dataLen }
        tcpFlagAck []] := by
    rw [sends, act, if_pos accepts, handleData, if_pos some]
  have ack : s.seq + s.dataLen = isn + BitVec.ofNat 32 (w.delivered + w.endpoint.conn.rx.free +
      (s.data.length - w.endpoint.conn.rx.free)) := by
    have sum : w.delivered + w.endpoint.conn.rx.free + (s.data.length - w.endpoint.conn.rx.free) =
        w.delivered + s.data.length := by omega
    rw [seq, Segment.dataLen, sum, BitVec.ofNat_add, BitVec.add_assoc]
  intro acks
  apply acks _ (by rw [sent]; exact mem_cons_self)
  change 0 < (s.seq + s.dataLen - _).toInt
  rw [limit, ack, distance, BitVec.toInt_eq_toNat_of_lt, BitVec.toNat_ofNat]
  · omega
  · rw [BitVec.toNat_ofNat]
    omega

/-- A connection at the start, whose peer goes on with the byte it waits for. -/
def watch (c : Conn) : Watched := ⟨fresh c, 0, 0, false⟩

/-- Along every run in which the peer's segments come in order, no byte is acknowledged that has not
    been stored, exactly if there is room for the data of every segment that is taken. -/
theorem ack_stored_iff (c : Conn) (ops : List Op)
    (ordered : Along Watched.step (InOrder c.ack) (watch c) ops) :
    Along Watched.step (AcksStored c.ack) (watch c) ops ↔ Along Watched.step Fits (watch c) ops := by
  have start : Kept c.ack (watch c) := by
    refine ⟨fun _ => rfl, .inl ?_, ?_⟩
    · exact (BitVec.add_zero c.ack).symm
    · intro s mem
      cases mem
  apply Along.congr (I := Kept c.ack) _ _ start ordered
  · intro w op kept ordered
    constructor
    · intro acks
      by_contra full
      cases op with
      | enter s => exact exceeds_of_not_fits kept ordered full acks
      | resume | recv _ | send _ _ | advance _ | close => exact full trivial
    · intro fits x sent
      rw [ack_of_sends sent, ← watched_endpoint]
      exact (kept.step ordered fits).not_exceeds
  · intro w op kept ordered fits
    exact kept.step ordered fits

instance (isn : BitVec 32) (w : Watched) : (op : Op) → Decidable (InOrder isn w op)
  | .enter _ => inferInstanceAs (Decidable (_ ∧ (_ → _)))
  | .resume | .recv _ | .send .. | .advance _ | .close => .isTrue trivial

instance (w : Watched) : (op : Op) → Decidable (Fits w op)
  | .enter _ => inferInstanceAs (Decidable (_ → _))
  | .resume | .recv _ | .send .. | .advance _ | .close => .isTrue trivial

instance (a b : BitVec 32) : Decidable (Exceeds a b) := inferInstanceAs (Decidable (0 < _))

instance (isn : BitVec 32) (w : Watched) (op : Op) : Decidable (AcksStored isn w op) :=
  inferInstanceAs (Decidable (∀ x ∈ _, _))

theorem room_acked :
    Along Watched.step (AcksStored 100) (watch idle)
      (wholeCall (carrying 100 [7]) ++ Op.recv 5 :: wholeCall ⟨101, 1, 17, [8, 9]⟩ ++ [.send 17 []]) :=
  (ack_stored_iff idle _ (by decide)).mpr (by decide)

/-- The ring is full: nothing has been read. -/
def crowded : Conn :=
  { idle with rx := ⟨fun _ => 0, 0, 0, rxBufSize, by decide, by decide, by decide⟩ }

/-- The next byte in order is dropped, and acknowledged. -/
theorem crowded_acked :
    Along Watched.step (InOrder 100) (watch crowded) [.enter (carrying 100 [7])] ∧
      ¬Along Watched.step (AcksStored 100) (watch crowded) [.enter (carrying 100 [7])] := by
  decide

/-! ## Sending -/

def tcpFlagPsh : UInt8 := 8

def Op.polled : Op → Bool
  | .enter _ | .resume => true
  | _ => false

/-- What goes on in `ip_send`: the parts of `tcp_handle` that run while the hardware address is
    awaited, and whether the packet is sent in the end. -/
structure Wait where
  ops : List Op
  polled : ∀ op ∈ ops, op.polled
  success : Bool

structure Sending where
  endpoint : Endpoint
  /-- the segments given to `ip_send`, and whether they were sent -/
  pieces : List (Sent × Bool)
  result : Int

/-- The loop of `tcp_send`, which goes on with its `k`-th segment. -/
def sendLoop (waits : Nat → Wait) (data : List UInt8) (sent k : Nat) (e : Endpoint) : Sending :=
  if sent < data.length then
    let chunk := min (data.length - sent) 1460
    let seg := tcpSendSeg e.conn (tcpFlagPsh ||| tcpFlagAck) ((data.drop sent).take chunk)
    let polled := (waits k).ops.foldl step e
    if (waits k).success then
      let rest := sendLoop waits data (sent + chunk) (k + 1) (polled.step (.advance chunk))
      { rest with pieces := (seg, true) :: rest.pieces }
    else ⟨polled, [(seg, false)], -1⟩
  else ⟨e, [], (BitVec.ofNat 32 sent).toInt⟩
termination_by data.length - sent

def tcpSend (waits : Nat → Wait) (data : List UInt8) (e : Endpoint) : Sending :=
  if e.conn.state ≠ .established then ⟨e, [], -1⟩ else sendLoop waits data 0 0 e

def total (pieces : List (Sent × Bool)) : Nat := (pieces.map fun p => p.1.data.length).sum

variable {data : List UInt8} {sent chunk : Nat} {pieces : List (Sent × Bool)}

/-- Every segment carries what comes next in the data, and the number of its first byte. -/
def Numbered (data : List UInt8) (sent : Nat) (seq : BitVec 32) (pieces : List (Sent × Bool)) : Prop :=
  ∀ before x after, pieces = before ++ x :: after →
    x.1 = ⟨tcpFlagPsh ||| tcpFlagAck, seq + BitVec.ofNat 32 (total before), x.1.ack,
      (data.drop (sent + total before)).take 1460⟩

lemma seq_polled (polled : op.polled) : (e.step op).conn.seq = e.conn.seq := by
  cases op with
  | enter s =>
    rw [step, act, handleData]
    grind
  | resume =>
    rw [step, act]
    grind [handleFin, finState]
  | _ => cases polled

lemma seq_wait (w : Wait) (e : Endpoint) : (w.ops.foldl step e).conn.seq = e.conn.seq :=
  foldlRecOn w.ops _ (motive := fun b : Endpoint => b.conn.seq = e.conn.seq) rfl fun _ same op mem =>
    (seq_polled (w.polled op mem)).trans same

lemma total_cons (p : Sent × Bool) : total (p :: pieces) = p.1.data.length + total pieces := by
  rw [total, map_cons, sum_cons, total]

/-- The segments that were sent, as the other side handles them. -/
def delivered (pieces : List (Sent × Bool)) : List Op :=
  (pieces.filter (·.2)).map fun x => .enter ⟨x.1.seq, x.1.ack, x.1.flags, x.1.data⟩

/-- The other side has stored the part of the data that was sent, and expects what comes next. -/
def Reaches (data : List UInt8) (r : Endpoint) (sending : Sending) : Prop :=
  let r' := (delivered sending.pieces).foldl step r
  r'.stored = r.stored ++ data.take (total (sending.pieces.filter (·.2))) ∧
    r'.conn.ack = sending.endpoint.conn.seq

lemma free_enter (accepts : r.conn.accepts) (fits : s.data.length ≤ r.conn.rx.free) :
    (r.step (.enter s)).conn.accepts ∧ (r.step (.enter s)).conn.rx.free = r.conn.rx.free - s.data.length ∧
      (s.data ≠ [] → (r.step (.enter s)).conn.ack = s.seq + s.dataLen) := by
  rw [step_enter accepts, handleData]
  split
  · refine ⟨accepts, ?_, fun _ => rfl⟩
    simp [free, Circular.put]
    omega
  · refine ⟨accepts, ?_, fun some => ?_⟩
    · simp; omega
    · grind

lemma sendLoop_delivered (waits : Nat → Wait) (k : Nat) (accepts : r.conn.accepts)
    (room : data.length - sent ≤ r.conn.rx.free) (expects : r.conn.ack = e.conn.seq) :
    Reaches (data.drop sent) r (sendLoop waits data sent k e) := by
  fun_induction sendLoop waits data sent k e generalizing r with
  | case1 sent k e more chunk seg polled success rest =>
    rename_i ih
    have next : (polled.step (.advance chunk)).conn.seq = e.conn.seq + BitVec.ofNat 32 chunk := by
      rw [← seq_wait (waits k) e]
      rfl
    have piece : seg.data = (data.drop sent).take chunk := by grind [tcpSendSeg]
    have size : seg.data.length = chunk := by grind
    obtain ⟨accepts', free', ack'⟩ := free_enter (s := ⟨seg.seq, seg.ack, seg.flags, seg.data⟩) accepts
      (by grind)
    obtain ⟨stored, ack⟩ := ih accepts' (by grind) (by
      rw [next, ack' (by grind), Segment.dataLen, size]
      rfl)
    refine ⟨?_, ack⟩
    change (foldl step (r.step _) (delivered rest.pieces)).stored = _
    rw [stored, stored_step, storing, if_pos accepts, take_of_length_le (by grind), filter_cons_of_pos rfl,
      total_cons, size, take_add, drop_drop, ← piece, append_assoc]
  | case2 sent k e more chunk seg polled =>
    refine ⟨by simp [delivered, total], ?_⟩
    rw [← seq_wait (waits k) e] at expects
    exact expects
  | case3 sent k e done => exact ⟨by simp [delivered, total], expects⟩

/-- What one connection sends reaches another one that expects it, if there is room. -/
theorem sent_is_stored (waits : Nat → Wait) (data : List UInt8) (e r : Endpoint)
    (accepts : r.conn.accepts) (room : data.length ≤ r.conn.rx.free) (expects : r.conn.ack = e.conn.seq) :
    Reaches data r (tcpSend waits data e) := by
  rw [tcpSend]
  split
  · exact ⟨by simp [delivered, total], expects⟩
  · exact sendLoop_delivered waits 0 accepts room expects

theorem byte_reaches : ∃ e : Endpoint, e.conn.seq = 100 ∧
    Reaches [7] (fresh idle) (tcpSend (fun _ => ⟨[], nofun, true⟩) [7] e) :=
  ⟨fresh { idle with seq := 100 }, rfl, sent_is_stored _ _ _ (fresh idle) rfl (by decide) rfl⟩

end Znu.Net
