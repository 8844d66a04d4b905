
import Znu.Lib.Circular

/-! # TCP connections

A connection keeps what its peer has sent in a ring until it is read. Before a segment is sent, the
hardware address of the next hop may have to be asked for, and while the answer is awaited the card
is polled, so that other segments are handled before the function goes on. The functions are
therefore cut into the parts between two sends, and the parts are the steps of a connection.
-/

namespace Znu.Net

open Lib List Nat

inductive TcpState where
  | closed
  | synSent
  | established
  | finWait
  | closeWait
  | timeWait
  deriving DecidableEq

/-- `TCP_RX_BUF_SIZE` -/
def rxBufSize : Nat := 256 * 1024

structure Conn where
  state : TcpState
  remoteIp : List UInt8
  remotePort : Nat
  localPort : Nat
  seq : BitVec 32
  ack : BitVec 32
  /-- the ring: `rx_buf`, `rx_head`, `rx_tail` and `rx_avail` -/
  rx : Circular UInt8 rxBufSize
  finReceived : Bool

def tcpFlagFin : UInt8 := 1

def tcpFlagSyn : UInt8 := 2

def tcpFlagAck : UInt8 := 16

/-- What `tcp_handle` takes from a segment. -/
structure Segment where
  seq : BitVec 32
  ackNum : BitVec 32
  flags : UInt8
  data : List UInt8

namespace Segment

def fin (s : Segment) : Bool := s.flags &&& tcpFlagFin ≠ 0

def dataLen (s : Segment) : BitVec 32 := BitVec.ofNat 32 s.data.length

end Segment

/-- A segment that is sent. -/
structure Sent where
  flags : UInt8
  seq : BitVec 32
  ack : BitVec 32
  data : List UInt8

def tcpSendSeg (c : Conn) (flags : UInt8) (data : List UInt8) : Sent :=
  ⟨flags, c.seq, c.ack, data.take 1460⟩

/-! ## The parts of `tcp_handle` -/

/-- The states in which data are taken. -/
def Conn.accepts (c : Conn) : Bool := c.state = .established ∨ c.state = .finWait

/-- The part for the data, up to the acknowledgement. -/
def handleData (c : Conn) (s : Segment) : Conn × List Sent :=
  if 0 < s.data.length then
    let c := { c with rx := c.rx.put s.data, ack := s.seq + s.dataLen }
    (c, [tcpSendSeg c tcpFlagAck []])
  else (c, [])

/-- The part for a FIN, up to its acknowledgement. -/
def handleFin (c : Conn) (s : Segment) : Conn × List Sent :=
  let c := { c with ack := s.seq + s.dataLen + 1, finReceived := true }
  (c, [tcpSendSeg c tcpFlagAck []])

/-- The part behind that acknowledgement. -/
def finState (c : Conn) : Conn :=
  { c with state := if c.state = .finWait then .timeWait else .closeWait }

def handleSyn (c : Conn) (s : Segment) : Conn × List Sent :=
  let c := { c with ack := s.seq + 1, seq := s.ackNum }
  (c, [tcpSendSeg c tcpFlagAck []])

/-- `tcp_handle` for the connection it has found, where no send has to wait. -/
def handleSegment (c : Conn) (s : Segment) : Conn × List Sent :=
  match c.state with
  | .synSent =>
    if s.flags &&& (tcpFlagSyn ||| tcpFlagAck) = tcpFlagSyn ||| tcpFlagAck then
      let answered := handleSyn c s
      ({ answered.1 with state := .established }, answered.2)
    else (c, [])
  | .established | .finWait =>
    let stored := handleData c s
    if s.fin then
      let ended := handleFin stored.1 s
      (finState ended.1, stored.2 ++ ended.2)
    else stored
  | _ => (c, [])

/-! ## Steps -/

/-- A connection that has been established, with the calls of `tcp_handle` that are not finished:
    their segments, and whether their FIN has been acknowledged. Beside it stands what `tcp_recv` has
    returned. -/
structure Endpoint where
  conn : Conn
  calls : List (Segment × Bool)
  returned : List UInt8

inductive Op where
  /-- `tcp_handle` is called, up to its first send -/
  | enter (s : Segment)
  /-- the call that began last goes on, up to its next send or its end -/
  | resume
  /-- the end of `tcp_recv`, behind its polling -/
  | recv (maxLen : Nat)
  /-- a send of `tcp_send` or `tcp_close` -/
  | send (flags : UInt8) (data : List UInt8)
  /-- `c->seq += n` behind such a send -/
  | advance (n : Nat)
  /-- the end of `tcp_close` -/
  | close

namespace Endpoint

def act (e : Endpoint) : Op → Endpoint × List Sent
  | .enter s =>
    if e.conn.accepts then
      let stored := handleData e.conn s
      ({ e with conn := stored.1, calls := (s, false) :: e.calls }, stored.2)
    else (e, [])
  | .resume =>
    match e.calls with
    | [] => (e, [])
    | (s, false) :: calls =>
      if s.fin then
        let ended := handleFin e.conn s
        ({ e with conn := ended.1, calls := (s, true) :: calls }, ended.2)
      else ({ e with calls := calls }, [])
    | (_, true) :: calls => ({ e with conn := finState e.conn, calls := calls }, [])
  | .recv maxLen =>
    let taken := e.conn.rx.take maxLen
    ({ e with conn := { e.conn with rx := taken.2 }, returned := e.returned ++ taken.1 }, [])
  | .send flags data => (e, [tcpSendSeg e.conn flags data])
  | .advance n => ({ e with conn := { e.conn with seq := e.conn.seq + BitVec.ofNat 32 n } }, [])
  | .close => ({ e with conn := { e.conn with state := .closed } }, [])

def step (e : Endpoint) (op : Op) : Endpoint := (e.act op).1

def sends (e : Endpoint) (op : Op) : List Sent := (e.act op).2

end Endpoint

lemma Conn.accepts_iff {c : Conn} : c.accepts ↔ c.state = .established ∨ c.state = .finWait := by
  simp [Conn.accepts]

/-- The steps of a call that nothing interrupts. -/
def wholeCall (s : Segment) : List Op :=
  if s.fin then [.enter s, .resume, .resume] else [.enter s, .resume]

/-! ## Checksums -/

/-- Bytes as words, with the weights of the first and of the second byte of a word. -/
def words (first second : Nat) : List UInt8 → List Nat
  | [] => []
  | [a] => [first * a.toNat]
  | a :: b :: rest => (first * a.toNat + second * b.toNat) :: words first second rest

/-- The loop over the words, with the sum so far. -/
def addWords (sum : Nat) (data : List UInt8) : Nat :=
  (words 1 256 data).foldl (fun sum w => (sum + w) % 2 ^ 32) sum

def foldCarries (sum : Nat) : Nat :=
  if sum / 2 ^ 16 ≠ 0 then foldCarries (sum % 2 ^ 16 + sum / 2 ^ 16) else sum

def complement (sum : Nat) : Nat := (2 ^ 32 - 1 - foldCarries sum) % 2 ^ 16

def ipChecksum (data : List UInt8) : Nat := complement (addWords 0 data)

def pseudoHeader (src dst : List UInt8) (tcpLen : Nat) : List UInt8 :=
  src ++ dst ++ [0, 6, UInt8.ofNat (tcpLen / 256), UInt8.ofNat tcpLen]

def tcpChecksum (src dst seg : List UInt8) : Nat :=
  complement (addWords (addWords 0 (pseudoHeader src dst seg.length)) seg)

/-- The header of `ip_send`. -/
def ipHeader (total id : Nat) (proto : UInt8) (checksum src dst : List UInt8) : List UInt8 :=
  [0x45, 0, .ofNat (total / 256), .ofNat total, .ofNat (id / 256), .ofNat id, 0x40, 0, 64, proto] ++
    (checksum ++ (src ++ dst))

/-- A number in the two bytes of a field. -/
def field16 (n : Nat) : List UInt8 := [.ofNat n, .ofNat (n / 256)]

/-- The one's-complement sum of the words, most significant bytes first. -/
def onesSum (data : List UInt8) : Nat := foldCarries (words 256 1 data).sum

variable {first second sum : Nat} {data before after : List UInt8}

lemma words_append (even : before.length % 2 = 0) (after : List UInt8) :
    words first second (before ++ after) = words first second before ++ words first second after := by
  fun_induction words first second before with
  | case1 => rfl
  | case2 a => cases even
  | case3 a b rest ih => rw [cons_append, cons_append, words, cons_append, ih (by grind)]

/-- The other order of the bytes multiplies the sum by 256, up to carries. -/
lemma sum_swapped (data : List UInt8) :
    (words 256 1 data).sum % 65535 = (256 * (words 1 256 data).sum) % 65535 ∧
      ((words 256 1 data).sum = 0 → (words 1 256 data).sum = 0) := by
  fun_induction words 256 1 data with
  | case1 => simp [words]
  | case2 a => simp [words]
  | case3 a b rest ih =>
    simp only [words, sum_cons]
    omega

lemma sum_le (data : List UInt8) : (words 1 256 data).sum ≤ 2 ^ 16 * data.length := by
  fun_induction words 1 256 data with
  | case1 => simp
  | case2 a =>
    have := a.toNat_lt
    simp
    omega
  | case3 a b rest ih =>
    have := a.toNat_lt
    have := b.toNat_lt
    simp only [sum_cons, length_cons]
    omega

lemma addWords_eq (small : sum + (words 1 256 data).sum < 2 ^ 32) :
    addWords sum data = sum + (words 1 256 data).sum := by
  rw [addWords]
  generalize words 1 256 data = l at *
  induction l generalizing sum with
  | nil => rfl
  | cons w l ih =>
    rw [sum_cons] at small
    rw [foldl_cons, mod_eq_of_lt (by omega), ih (by omega), sum_cons, add_assoc]

lemma foldCarries_spec (sum : Nat) : foldCarries sum < 2 ^ 16 ∧ foldCarries sum ≤ sum ∧
    foldCarries sum % 65535 = sum % 65535 ∧ (foldCarries sum = 0 → sum = 0) := by
  fun_induction foldCarries sum with
  | case1 sum carry ih => omega
  | case2 sum done => omega

/-- A checksum in the field it was computed for completes the sum. -/
lemma onesSum_stored (even : before.length % 2 = 0) (zeroed : data = before ++ ([0, 0] ++ after))
    (short : data.length < 2 ^ 16) : onesSum (before ++ (field16 (ipChecksum data) ++ after)) = 0xFFFF := by
  have bound := sum_le data
  have folded := foldCarries_spec (words 1 256 data).sum
  rw [ipChecksum, complement, addWords_eq (by omega), zero_add]
  have stored (n : Nat) (small : n < 2 ^ 16) :
      (words 1 256 (before ++ (field16 n ++ after))).sum = n + (words 1 256 data).sum := by
    simp [zeroed, words_append even, field16, words]
    omega
  have filled := stored ((2 ^ 32 - 1 - foldCarries (words 1 256 data).sum) % 2 ^ 16) (mod_lt _ (by decide))
  generalize field16 _ = field at *
  have swapped := sum_swapped (before ++ (field ++ after))
  have result := foldCarries_spec (words 256 1 (before ++ (field ++ after))).sum
  rw [onesSum]
  omega

/-- The checksums of a segment and of the header it is sent with are those the receiver expects. -/
theorem checksums_complete (src dst before after : List UInt8) (src_len : src.length = 4)
    (dst_len : dst.length = 4) (field : before.length = 16) (short : after.length ≤ 1462) :
    let seg := fun checksum => before ++ (checksum ++ after)
    let pseudo := pseudoHeader src dst (seg [0, 0]).length
    let checksum := tcpChecksum src dst (seg [0, 0])
    onesSum (pseudo ++ seg (field16 checksum)) = 0xFFFF ∧ checksum = ipChecksum (pseudo ++ seg [0, 0]) ∧
    (words 1 256 (pseudo ++ seg [0, 0])).sum < 2 ^ 32 ∧ ∀ total id proto,
      let header := fun checksum => ipHeader total id proto checksum src dst
      onesSum (header (field16 (ipChecksum (header [0, 0])))) = 0xFFFF ∧
      (words 1 256 (header [0, 0])).sum < 2 ^ 32 := by
  intro seg pseudo checksum
  have size : pseudo.length = 12 := by simp [pseudo, pseudoHeader, src_len, dst_len]
  have same : checksum = ipChecksum (pseudo ++ seg [0, 0]) := by
    rw [ipChecksum, addWords, words_append (by rw [size]), foldl_append]
    rfl
  have long : (pseudo ++ seg [0, 0]).length < 2 ^ 16 := by
    simp [seg, size, field]
    omega
  have bound := sum_le (pseudo ++ seg [0, 0])
  refine ⟨?_, same, by omega, fun total id proto => ?_⟩
  · rw [same, ← append_assoc]
    exact onesSum_stored (by rw [length_append, size, field]) (append_assoc ..).symm long
  · intro header
    have length : (header [0, 0]).length = 20 := by simp [header, ipHeader, src_len, dst_len]
    have bound := sum_le (header [0, 0])
    exact ⟨onesSum_stored (by simp) rfl (by omega), by omega⟩

theorem small_checksums : onesSum (pseudoHeader [10, 0, 2, 15] [10, 0, 2, 2] 19 ++ (replicate 16 1 ++
    (field16 (tcpChecksum [10, 0, 2, 15] [10, 0, 2, 2] (replicate 16 1 ++ ([0, 0] ++ [7]))) ++
      [7]))) = 0xFFFF :=
  (checksums_complete [10, 0, 2, 15] [10, 0, 2, 2] (replicate 16 1) [7] rfl rfl rfl (by decide)).1

end Znu.Net
