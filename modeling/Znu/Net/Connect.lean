import Znu.Lib.Along
import Znu.Net.Receive

/-! # Opening and closing connections

`tcp_connect` takes the first closed slot and draws the local port from 256 ports that begin 100
above those of the slot before, so that the draws of neighbouring slots overlap. A SYN that is sent again has another number.
-/

namespace Znu.Net

open Lib List Conn

/-- A zeroed slot. -/
def Conn.zero : Conn where
  state := .closed
  remoteIp := [0, 0, 0, 0]
  remotePort := 0
  localPort := 0
  seq := 0
  ack := 0
  rx := ⟨fun _ => 0, 0, 0, 0, Nat.succ_pos _, Nat.zero_le _, rfl⟩
  finReceived := false

def maxTcpConns : Nat := 8

/-- The port that `tcp_connect` draws. -/
def drawnPort (id : Nat) (rand : BitVec 32) : Nat := (49152 + id * 100 + (rand &&& 0xFF).toNat) % 2 ^ 16

/-- What `tcp_connect` puts into its slot, before it sends. -/
def newConn (id : Nat) (ip : List UInt8) (port : Nat) (rand isn : BitVec 32) : Conn :=
  { zero with
    remoteIp := ip
    remotePort := port
    localPort := drawnPort id rand
    seq := isn
    state := .synSent }

def freeSlot (conns : List Conn) : Option Nat := conns.findIdx? fun c => c.state = .closed

def tcpClose (c : Conn) : Conn :=
  if c.state = .closed then c else
  let c := if c.state = .established then { c with seq := c.seq + 1, state := .finWait } else c
  { c with state := .closed }

inductive Action where
  /-- `tcp_connect`, up to its first send -/
  | connect (ip : List UInt8) (port : Nat) (rand isn : BitVec 32)
  /-- `tcp_connect` gives up -/
  | timeout (id : Nat)
  | close (id : Nat)
  /-- `tcp_handle` -/
  | segment (dstPort srcPort : Nat) (srcIp : List UInt8) (s : Segment)

def after (conns : List Conn) : Action → List Conn
  | .connect ip port rand isn =>
    match freeSlot conns with
    | none => conns
    | some id => conns.set id (newConn id ip port rand isn)
  | .timeout id => conns.modify id fun c => { c with state := .closed }
  | .close id => conns.modify id tcpClose
  | .segment dstPort srcPort srcIp s =>
    match findConn conns dstPort srcPort srcIp with
    | none => conns
    | some found => conns.modify found.1 fun c => (handleSegment c s).1

/-- The test of `tcp_handle`: such a segment is for the connection. -/
def Conn.isFor (c : Conn) (dstPort srcPort : Nat) (srcIp : List UInt8) : Prop :=
  c.ports dstPort srcPort ∧ c.remoteIp = srcIp

/-- No two open connections have the same ports and the same peer: no segment is for both. -/
def Distinct (conns : List Conn) : Prop :=
  ∀ (i j : Nat) (c c' : Conn), conns[i]? = some c → conns[j]? = some c' →
    ∀ dstPort srcPort srcIp, c.isFor dstPort srcPort srcIp → c'.isFor dstPort srcPort srcIp → i = j

/-- The port that is drawn is not that of an open connection to the same peer. -/
def Unused (conns : List Conn) : Action → Prop
  | .connect ip port rand _ =>
    ∀ id, freeSlot conns = some id → ∀ c ∈ conns, ¬c.isFor (drawnPort id rand) port ip
  | _ => True

section

variable {conns : List Conn} (distinct : Distinct conns)

include distinct

/-- A connection that is for no new segment clashes with no other. -/
lemma distinct_modify {id : Nat} {f : Conn → Conn}
    (since : ∀ c d s ip, (f c).isFor d s ip → c.isFor d s ip) : Distinct (conns.modify id f) := by
  have kept : ∀ (i : Nat) (c' : Conn), (conns.modify id f)[i]? = some c' →
      ∃ c, conns[i]? = some c ∧ ∀ d s ip, c'.isFor d s ip → c.isFor d s ip := by
    grind
  intro i j c c' atI atJ d s ip isFor isFor'
  obtain ⟨old, wasI, since⟩ := kept i c atI
  obtain ⟨old', wasJ, since'⟩ := kept j c' atJ
  exact distinct i j old old' wasI wasJ d s ip (since d s ip isFor) (since' d s ip isFor')

lemma distinct_after (a : Action) : Distinct (after conns a) ↔ Unused conns a := by
  cases a with
  | connect ip port rand isn =>
    rw [after, Unused]
    split
    next full => simp [full, distinct]
    rename_i id free
    obtain ⟨_, closed, -⟩ := findIdx?_eq_some_iff_getElem.mp free
    constructor
    · intro distinct' id' isId c inside used
      obtain ⟨j, within, atJ⟩ := getElem_of_mem inside
      have apart := distinct' id j (newConn id ip port rand isn) c
      grind [isFor, ports, newConn]
    · intro unused i j c c' atI atJ d s ip' isFor isFor'
      have apart := distinct i j c c'
      grind [isFor, ports, newConn]
  | timeout id =>
    refine iff_of_true (distinct_modify distinct fun c => ?_) trivial
    simp [isFor, ports]
  | close id =>
    refine iff_of_true (distinct_modify distinct fun c => ?_) trivial
    grind [isFor, ports, tcpClose]
  | segment dstPort srcPort srcIp s =>
    rw [after]
    split
    · exact iff_of_true distinct trivial
    refine iff_of_true (distinct_modify distinct fun c => ?_) trivial
    rw [handleSegment]
    grind [isFor, ports, handleSyn, handleData, handleFin, finState]

end

/-- All slots are closed. -/
def noConns : List Conn := replicate maxTcpConns .zero

/-- Open connections stay apart as long as no port is drawn that is in use for the same peer. -/
theorem conns_distinct_iff (actions : List Action) :
    Along after (fun conns a => Distinct (after conns a)) noConns actions ↔ Along after Unused noConns actions := by
  have start : Distinct noConns := by
    intro i j c c' atI _ d s ip isFor
    have zero := (mem_replicate.mp (mem_of_getElem? atI)).2
    simp [zero, Conn.isFor, Conn.ports, Conn.zero] at isFor
  exact Along.congr_inv (fun _ a distinct => distinct_after distinct a)
    (fun _ a distinct unused => (distinct_after distinct a).mpr unused) start

/-- The slots 0 and 1 draw 100 and 0. -/
theorem port_drawn_twice : ¬Along after (fun conns a => Distinct (after conns a)) noConns
    [.connect [10, 0, 2, 2] 80 100 7, .connect [10, 0, 2, 2] 80 0 9] := by
  intro distinct
  have same := distinct.2.1 0 1 _ _ rfl rfl 49252 80 [10, 0, 2, 2] ⟨by decide, rfl⟩ ⟨by decide, rfl⟩
  cases same

/-! ## The handshake -/

/-- A call of `tcp_connect`, with the number of its SYN+ACKs whose answer still waits to be sent. -/
structure Attempt where
  conn : Conn
  pending : Nat
  /-- the first SYN has been sent, and `c->seq++` done -/
  sent : Bool

inductive Event where
  /-- `tcp_handle`, for a SYN+ACK up to its answer -/
  | segment (s : Segment)
  /-- the answer has been sent -/
  | resume
  | sent
  /-- the loop comes to a retransmission -/
  | retransmit

namespace Attempt

def accepts (a : Attempt) (s : Segment) : Bool :=
  a.conn.state = .synSent ∧ s.flags &&& (tcpFlagSyn ||| tcpFlagAck) = tcpFlagSyn ||| tcpFlagAck

def step (a : Attempt) : Event → Attempt
  | .segment s =>
    if a.accepts s then { a with conn := (handleSyn a.conn s).1, pending := a.pending + 1 }
    else { a with conn := (handleSegment a.conn s).1 }
  | .resume =>
    if a.pending = 0 then a
    else { a with conn := { a.conn with state := .established }, pending := a.pending - 1 }
  | .sent =>
    if a.sent ∨ a.pending ≠ 0 then a
    else { a with conn := { a.conn with seq := a.conn.seq + 1 }, sent := true }
  | .retransmit => a

/-- The loop has not returned. -/
def due (a : Attempt) : Prop :=
  a.sent ∧ a.pending = 0 ∧ a.conn.state ≠ .established ∧ a.conn.state ≠ .closed

/-- Every SYN has the first sequence number, and `ESTABLISHED` is entered only for its
    acknowledgement, and with the number after it. -/
def Agrees (isn : BitVec 32) (a : Attempt) : Event → Prop
  | .segment s =>
    if a.accepts s then s.ackNum = isn + 1
    else (handleSegment a.conn s).1.state = .established → a.conn.state = .established
  | .resume => a.pending ≠ 0 → (a.step .resume).conn.seq = isn + 1
  | .sent => True
  | .retransmit => a.due → (tcpSendSeg a.conn tcpFlagSyn []).seq = isn

/-- No SYN is sent again, and no other number is acknowledged. -/
def Prompt (isn : BitVec 32) (a : Attempt) : Event → Prop
  | .segment s => a.accepts s → s.ackNum = isn + 1
  | .retransmit => ¬a.due
  | _ => True

structure Inv (isn : BitVec 32) (a : Attempt) : Prop where
  answered : a.pending ≠ 0 → a.conn.seq = isn + 1
  seq : a.conn.seq = isn + 1 ∨ a.conn.seq = if a.sent then isn + 2 else isn

variable {isn : BitVec 32} {a : Attempt}

lemma ignored {s : Segment} (ignored : ¬a.accepts s) :
    (handleSegment a.conn s).1.seq = a.conn.seq ∧
      ((handleSegment a.conn s).1.state = .established → a.conn.state = .established) := by
  rw [handleSegment]
  grind [accepts, handleData, handleFin, finState]

lemma Inv.agrees_iff (inv : Inv isn a) (e : Event) : Agrees isn a e ↔ Prompt isn a e := by
  cases e with
  | segment s =>
    rw [Agrees, Prompt]
    split
    next accepted => simp [accepted]
    next other => exact iff_of_true (ignored other).2 fun accepted => absurd accepted other
  | resume =>
    refine iff_of_true (fun waits => ?_) trivial
    rw [step, if_neg waits]
    exact inv.answered waits
  | sent => exact Iff.rfl
  | retransmit =>
    refine forall_congr' fun due => iff_of_false (fun same => ?_) id
    change a.conn.seq = isn at same
    have seq := inv.seq
    rw [if_pos due.1] at seq
    bv_omega

lemma Inv.step (inv : Inv isn a) {e : Event} (prompt : Prompt isn a e) : Inv isn (a.step e) := by
  obtain ⟨answered, seq⟩ := inv
  cases e with
  | segment s =>
    rw [Attempt.step]
    split
    next accepted => exact ⟨fun _ => prompt accepted, .inl (prompt accepted)⟩
    next other =>
      have same := (ignored other).1
      exact ⟨fun waits => same.trans (answered waits), same ▸ seq⟩
  | resume =>
    rw [Attempt.step]
    split
    · exact ⟨answered, seq⟩
    next waits => exact ⟨fun _ => answered waits, seq⟩
  | sent =>
    rw [Attempt.step]
    split
    · exact ⟨answered, seq⟩
    rename_i first
    simp only [not_or, not_not] at first
    refine ⟨fun waits => absurd first.2 waits, ?_⟩
    rw [if_neg first.1] at seq
    simp only [if_true]
    bv_omega
  | retransmit => exact ⟨answered, seq⟩

end Attempt

end Znu.Net
