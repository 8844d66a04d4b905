import Znu.Lib.Layout
import Znu.Net.Tcp

/-! # Received frames

`net_poll` copies a frame into `rx_scratch` and hands it on. The header lengths it works with are
taken from the frame. What is read, copied and subtracted on the way is written down, and compared
with what the frame really has: it is fine for exactly the frames whose lengths agree with each
other.
-/

namespace Znu.Net

open Lib List Nat Conn

/-! ## The functions -/

/-- What is done with `rx_scratch` and with lengths. -/
inductive Touch where
  | read (pos : Nat)
  /-- the byte is put into a connection's ring or into `dns_rx_buf` -/
  | copy (pos : Nat)
  /-- a subtraction in `size_t` -/
  | subtract (a b : Nat)
  deriving DecidableEq

open Touch

def reads (pos n : Nat) : List Touch := (List.range n).map fun i => .read (pos + i)

def copies (pos n : Nat) : List Touch := (List.range n).map fun i => .copy (pos + i)

/-- `a - b` in `size_t` -/
def sizeSub (a b : Nat) : Nat := (a + 2 ^ 64 - b) % 2 ^ 64

def ntohs (m : Bytes) (pos : Nat) : Nat := (m pos).toNat * 256 + (m (pos + 1)).toNat

def ntohl (m : Bytes) (pos : Nat) : BitVec 32 := BitVec.ofNat 32 (ntohs m pos * 65536 + ntohs m (pos + 2))

structure NetState where
  myIp : List UInt8
  conns : List Conn
  arpCache : List (Option (List UInt8 × List UInt8))
  dnsRxBuf : Bytes
  dnsRxLen : Nat
  dnsRxTxid : Nat
  dnsRxReady : Bool

/-- A frame as the card reports it. -/
structure Frame where
  length : Nat
  bytes : Bytes
  length_lt : length < 2 ^ 16

def scratchSize : Nat := 2048

/-- The length, and `rx_scratch` afterwards. -/
def e1000ReceivePacket (scratch : Bytes) (f : Frame) : Nat × Bytes :=
  (f.length, scratch.store 0 (min f.length scratchSize) f.bytes)

/-- The connection is for these ports. -/
def Conn.ports (c : Conn) (dstPort srcPort : Nat) : Bool :=
  c.state ≠ .closed ∧ c.localPort = dstPort ∧ c.remotePort = srcPort

def findConn (conns : List Conn) (dstPort srcPort : Nat) (srcIp : List UInt8) : Option (Nat × Conn) := do
  let i ← conns.findIdx? fun c => c.ports dstPort srcPort && c.remoteIp == srcIp
  let c ← conns[i]?
  return (i, c)

/-- `tcp_handle`; the addresses are places in `rx_scratch`. -/
def tcpHandle (net : NetState) (m : Bytes) (srcIp tcp totalIpPayloadLen : Nat) : NetState × List Touch :=
  let dstPort := ntohs m (tcp + 2)
  let srcPort := ntohs m tcp
  let hdrLen := (m (tcp + 12)).toNat / 16 * 4
  let dataLen := sizeSub totalIpPayloadLen hdrLen
  let data := tcp + hdrLen
  let header := reads tcp 14 ++ [.subtract totalIpPayloadLen hdrLen]
  let compared := if net.conns.any (Conn.ports · dstPort srcPort) then reads srcIp 4 else []
  match findConn net.conns dstPort srcPort (bytesAt m srcIp 4) with
  | none => (net, header ++ compared)
  | some (i, c) =>
    let s : Segment :=
      { seq := ntohl m (tcp + 4)
        ackNum := ntohl m (tcp + 8)
        flags := m (tcp + 13)
        data := bytesAt m data dataLen }
    ({ net with conns := net.conns.set i (handleSegment c s).1 },
      header ++ compared ++ if c.accepts then copies data (min dataLen c.rx.free) else [])

def udpDnsHandle (net : NetState) (m : Bytes) (payload len : Nat) : NetState × List Touch :=
  if len < 12 ∨ 512 < len then (net, []) else
  if ntohs m payload ≠ net.dnsRxTxid then (net, reads payload 2) else
  ({ net with
      dnsRxBuf := net.dnsRxBuf.store 0 len fun i => m (payload + i)
      dnsRxLen := len
      dnsRxReady := true },
    reads payload 2 ++ copies payload len)

def ipHandle (net : NetState) (m : Bytes) (pkt len : Nat) : NetState × List Touch :=
  if len < 20 then (net, []) else
  if (m pkt).toNat / 16 ≠ 4 then (net, [.read pkt]) else
  if bytesAt m (pkt + 16) 4 ≠ net.myIp then (net, .read pkt :: reads (pkt + 16) 4) else
  let ipHdrLen := (m pkt).toNat % 16 * 4
  let total := ntohs m (pkt + 2)
  let header := .read pkt :: (reads (pkt + 16) 4 ++ reads (pkt + 2) 2)
  if len < total then (net, header) else
  let payload := pkt + ipHdrLen
  let payloadLen := sizeSub total ipHdrLen
  let header := header ++ [.subtract total ipHdrLen, .read (pkt + 9)]
  if m (pkt + 9) = 6 then
    if payloadLen < 20 then (net, header) else
    let handled := tcpHandle net m (pkt + 12) payload payloadLen
    (handled.1, header ++ handled.2)
  else if m (pkt + 9) = 17 then
    if payloadLen < 8 then (net, header) else
    if ntohs m (payload + 2) = 53000 then
      let handled := udpDnsHandle net m (payload + 8) (sizeSub payloadLen 8)
      (handled.1, header ++ (reads (payload + 2) 2 ++ .subtract payloadLen 8 :: handled.2))
    else (net, header ++ reads (payload + 2) 2)
  else (net, header)

/-- The entry with that address is replaced, or the first free one is filled. -/
def arpCachePut (cache : List (Option (List UInt8 × List UInt8))) (ip mac : List UInt8) :
    List (Option (List UInt8 × List UInt8)) :=
  match cache.findIdx? fun entry => entry.any fun e => e.1 == ip with
  | some i => cache.set i (some (ip, mac))
  | none =>
    match cache.findIdx? Option.isNone with
    | some i => cache.set i (some (ip, mac))
    | none => cache

/-- `arp_handle`, without the reply. -/
def arpHandle (net : NetState) (m : Bytes) (pkt len : Nat) : NetState × List Touch :=
  if len < 28 then (net, []) else
  if ntohs m (pkt + 2) ≠ 0x0800 then (net, reads (pkt + 2) 2) else
  let spa := bytesAt m (pkt + 14) 4
  let sha := bytesAt m (pkt + 8) 6
  let known := reads (pkt + 2) 2 ++ (reads (pkt + 8) 10 ++ reads (pkt + 6) 2)
  ({ net with arpCache := arpCachePut net.arpCache spa sha },
    if ntohs m (pkt + 6) = 1 then
      if bytesAt m (pkt + 24) 4 = net.myIp then known ++ (reads (pkt + 24) 4 ++ reads (pkt + 8) 10)
      else known ++ reads (pkt + 24) 4
    else known)

/-- The body of the loop of `net_poll`. -/
def netPoll (net : NetState) (scratch : Bytes) (f : Frame) : NetState × List Touch :=
  let received := e1000ReceivePacket scratch f
  let got := received.1
  let m := received.2
  if got < 14 then (net, []) else
  let et := ntohs m 12
  let header := reads 12 2 ++ [.subtract got 14]
  if et = 0x0806 then
    let handled := arpHandle net m 14 (sizeSub got 14)
    (handled.1, header ++ handled.2)
  else if et = 0x0800 then
    let handled := ipHandle net m 14 (sizeSub got 14)
    (handled.1, header ++ handled.2)
  else (net, header)

/-! ## What the frame has -/

/-- The payload of the packet in a frame: it begins behind headers that have at least their
    smallest size, and ends with the packet. -/
def InPayload (m : Bytes) (pos : Nat) : Prop :=
  let ipHdrLen := (m 14).toNat % 16 * 4
  let hdrLen := if m 23 = 6 then (m (14 + ipHdrLen + 12)).toNat / 16 * 4 else 8
  20 ≤ ipHdrLen ∧ (m 23 = 6 → 20 ≤ hdrLen) ∧ 14 + ipHdrLen + hdrLen ≤ pos ∧ pos < 14 + ntohs m 16

/-- The frame has the bytes, what is copied is payload, and no subtraction goes below 0. -/
def Touch.Fine (f : Frame) (m : Bytes) : Touch → Prop
  | .read pos => pos < min f.length scratchSize
  | .copy pos => pos < min f.length scratchSize ∧ InPayload m pos
  | .subtract a b => b ≤ a

/-- Everything that is done with the frame is fine. -/
def FrameFine (net : NetState) (scratch : Bytes) (f : Frame) : Prop :=
  ∀ t ∈ (netPoll net scratch f).2, t.Fine f (e1000ReceivePacket scratch f).2

/-- The packet passes the checks of `ip_handle`. -/
structure Passes (net : NetState) (f : Frame) (m : Bytes) : Prop where
  length : 34 ≤ f.length
  ether : ntohs m 12 = 0x0800
  version : (m 14).toNat / 16 = 4
  destination : bytesAt m 30 4 = net.myIp
  total : ntohs m 16 ≤ f.length - 14

/-- The lengths of a TCP packet agree with each other. -/
structure TcpAgrees (net : NetState) (m : Bytes) (tcp payloadLen : Nat) : Prop where
  header : (m (tcp + 12)).toNat / 16 * 4 ≤ payloadLen
  data : ∀ i c, findConn net.conns (ntohs m (tcp + 2)) (ntohs m tcp) (bytesAt m 26 4) = some (i, c) →
    c.accepts → 0 < min (payloadLen - (m (tcp + 12)).toNat / 16 * 4) c.rx.free →
      34 ≤ tcp ∧ 20 ≤ (m (tcp + 12)).toNat / 16 * 4 ∧
        tcp + (m (tcp + 12)).toNat / 16 * 4 +
          min (payloadLen - (m (tcp + 12)).toNat / 16 * 4) c.rx.free ≤ scratchSize

/-- The lengths of an answer to a name query agree with each other. -/
def UdpAgrees (net : NetState) (m : Bytes) (udp payloadLen : Nat) : Prop :=
  ntohs m (udp + 2) = 53000 → 20 ≤ payloadLen → payloadLen ≤ 520 → ntohs m (udp + 8) = net.dnsRxTxid →
    34 ≤ udp

/-- The lengths in a frame agree with each other. -/
def Agrees (net : NetState) (f : Frame) (m : Bytes) : Prop :=
  let ipHdrLen := (m 14).toNat % 16 * 4
  let payloadLen := ntohs m 16 - ipHdrLen
  Passes net f m →
    ipHdrLen ≤ ntohs m 16 ∧
      (m 23 = 6 → 20 ≤ payloadLen → TcpAgrees net m (14 + ipHdrLen) payloadLen) ∧
      (m 23 = 17 → 8 ≤ payloadLen → UdpAgrees net m (14 + ipHdrLen) payloadLen)

variable {net : NetState} {f : Frame} {m : Bytes} {pos n : Nat}

lemma sizeSub_eq {a b : Nat} (below : b ≤ a) (small : a < 2 ^ 64) : sizeSub a b = a - b := by
  unfold sizeSub
  omega

lemma ntohs_lt (m : Bytes) (pos : Nat) : ntohs m pos < 2 ^ 16 := by
  have high := (m pos).toNat_lt
  have low := (m (pos + 1)).toNat_lt
  unfold ntohs
  omega

lemma reads_fine : (∀ t ∈ reads pos n, t.Fine f m) ↔ n = 0 ∨ pos + n ≤ min f.length scratchSize := by
  simp only [reads, mem_map, mem_range, forall_exists_index, and_imp, forall_apply_eq_imp_iff₂, Fine]
  constructor
  · intro all
    cases n with
    | zero => exact .inl rfl
    | succ n =>
      have last := all n (lt_succ_self n)
      omega
  · intro inside i small
    omega

lemma copies_fine : (∀ t ∈ copies pos n, t.Fine f m) ↔
    n = 0 ∨ pos + n ≤ min f.length scratchSize ∧ InPayload m pos ∧ pos + n ≤ 14 + ntohs m 16 := by
  simp only [copies, mem_map, mem_range, forall_exists_index, and_imp, forall_apply_eq_imp_iff₂, Fine]
  constructor
  · intro all
    cases n with
    | zero => exact .inl rfl
    | succ n =>
      have first := all 0 (succ_pos n)
      have last := all n (lt_succ_self n)
      have end_ := last.2.2.2.2
      exact .inr ⟨by omega, first.2, by omega⟩
  · intro inside i small
    obtain zero | ⟨bound, payload, total⟩ := inside
    · omega
    · obtain ⟨ip, tcp, start, -⟩ := payload
      exact ⟨by omega, ip, tcp, by omega, by omega⟩

lemma arpHandle_fine {len : Nat} (inside : 14 + len ≤ f.length) :
    ∀ t ∈ (arpHandle net m 14 len).2, t.Fine f m := by
  rw [arpHandle]
  have size : scratchSize = 2048 := rfl
  split
  · exact fun t mem => nomatch mem
  split
  · rw [reads_fine]
    omega
  dsimp only
  split
  · split
    · simp only [forall_mem_append, reads_fine]
      omega
    · simp only [forall_mem_append, reads_fine]
      omega
  · simp only [forall_mem_append, reads_fine]
    omega

variable {h payloadLen : Nat}

/-- What `udp_dns_handle` is given: the data behind a UDP header. -/
lemma udpDnsHandle_fine (udp : m 23 = 17) (header : h = (m 14).toNat % 16 * 4)
    (whole : h + payloadLen = ntohs m 16) (some : 8 ≤ payloadLen) (inside : 14 + ntohs m 16 ≤ f.length) :
    (∀ t ∈ (udpDnsHandle net m (14 + h + 8) (payloadLen - 8)).2, t.Fine f m) ↔
      (20 ≤ payloadLen → payloadLen ≤ 520 → ntohs m (14 + h + 8) = net.dnsRxTxid → 34 ≤ 14 + h) := by
  have size : scratchSize = 2048 := rfl
  have tcp : ¬m 23 = 6 := by
    rw [udp]
    decide
  rw [udpDnsHandle]
  split
  · constructor
    · intro _ long short
      omega
    · intro _ t mem
      cases mem
  split
  · next other =>
      rw [reads_fine]
      constructor
      · intro _ _ _ same
        exact absurd same other
      · intro _
        omega
  · next same =>
      simp only [forall_mem_append, reads_fine, copies_fine, InPayload, tcp, if_false, false_implies,
        ← header, true_and]
      have same : ntohs m (14 + h + 8) = net.dnsRxTxid := not_not.mp same
      omega

lemma inPayload_tcp {hdrLen : Nat} (tcp : m 23 = 6) (header : h = (m 14).toNat % 16 * 4)
    (hdr : hdrLen = (m (14 + h + 12)).toNat / 16 * 4) :
    InPayload m pos ↔ 20 ≤ h ∧ 20 ≤ hdrLen ∧ 14 + h + hdrLen ≤ pos ∧ pos < 14 + ntohs m 16 := by
  simp only [InPayload, ← header, ← hdr, tcp, forall_const, if_true]

lemma tcpHandle_fine (tcp : m 23 = 6) (header : h = (m 14).toNat % 16 * 4)
    (whole : h + payloadLen = ntohs m 16) (some : 20 ≤ payloadLen)
    (inside : 14 + ntohs m 16 ≤ f.length) :
    (∀ t ∈ (tcpHandle net m 26 (14 + h) payloadLen).2, t.Fine f m) ↔ TcpAgrees net m (14 + h) payloadLen := by
  have size : scratchSize = 2048 := rfl
  have small := ntohs_lt m 16
  have low : h ≤ 60 := by omega
  have first : (∀ t ∈ reads (14 + h) 14, t.Fine f m) := by
    rw [reads_fine]
    omega
  have address : ∀ t ∈ (if net.conns.any (ports · (ntohs m (14 + h + 2)) (ntohs m (14 + h))) then
      reads 26 4 else []), t.Fine f m := by
    split
    · rw [reads_fine]
      omega
    · exact fun t mem => nomatch mem
  obtain ⟨hdrLen, hdr⟩ : ∃ n, n = (m (14 + h + 12)).toNat / 16 * 4 := ⟨_, rfl⟩
  have bare : ∀ rest : List Touch, (∀ t ∈ reads (14 + h) 14 ++ [.subtract payloadLen hdrLen] ++
      (if net.conns.any (ports · (ntohs m (14 + h + 2)) (ntohs m (14 + h))) then reads 26 4 else []) ++
        rest, t.Fine f m) ↔ hdrLen ≤ payloadLen ∧ ∀ t ∈ rest, t.Fine f m := by
    intro rest
    rw [forall_mem_append, forall_mem_append, forall_mem_append, forall_mem_singleton]
    exact ⟨fun fine => ⟨fine.1.1.2, fine.2⟩, fun fine => ⟨⟨⟨first, fine.1⟩, address⟩, fine.2⟩⟩
  have unmatched := bare []
  rw [append_nil] at unmatched
  rw [tcpHandle]
  simp only [← hdr]
  cases found : findConn net.conns (ntohs m (14 + h + 2)) (ntohs m (14 + h)) (bytesAt m 26 4) with
  | none =>
    dsimp only
    rw [unmatched]
    constructor
    · rintro ⟨below, -⟩
      refine ⟨hdr ▸ below, ?_⟩
      intro i c is
      rw [found] at is
      cases is
    · intro agrees
      exact ⟨hdr ▸ agrees.header, fun t mem => nomatch mem⟩
  | some entry =>
    obtain ⟨i, c⟩ := entry
    dsimp only
    rw [bare]
    constructor
    · rintro ⟨below, fine⟩
      refine ⟨hdr ▸ below, ?_⟩
      intro j d is accepts copied
      rw [found] at is
      cases is
      rw [if_pos accepts, copies_fine, sizeSub_eq below (by omega)] at fine
      rw [← hdr] at copied ⊢
      obtain none | ⟨bound, payload, -⟩ := fine
      · omega
      · rw [inPayload_tcp tcp header hdr] at payload
        omega
    · intro agrees
      have below : hdrLen ≤ payloadLen := hdr ▸ agrees.header
      refine ⟨below, ?_⟩
      split
      · next accepts =>
          have lengths := agrees.data i c found accepts
          rw [← hdr] at lengths
          rw [copies_fine, sizeSub_eq below (by omega), inPayload_tcp tcp header hdr]
          omega
      · exact fun t mem => nomatch mem

lemma ipHandle_fine (long : 14 ≤ f.length) (ether : ntohs m 12 = 0x0800) :
    (∀ t ∈ (ipHandle net m 14 (f.length - 14)).2, t.Fine f m) ↔ Agrees net f m := by
  have size : scratchSize = 2048 := rfl
  have small := ntohs_lt m 16
  rw [ipHandle]
  simp only [reduceAdd]
  by_cases short : f.length - 14 < 20
  · rw [if_pos short]
    refine iff_of_true (fun t mem => nomatch mem) fun passes => ?_
    have := passes.length
    omega
  rw [if_neg short]
  by_cases version : (m 14).toNat / 16 ≠ 4
  · rw [if_pos version, forall_mem_singleton, Fine]
    exact iff_of_true (by omega) fun passes => absurd passes.version version
  rw [if_neg version]
  by_cases other : bytesAt m 30 4 ≠ net.myIp
  · rw [if_pos other, forall_mem_cons, reads_fine, Fine]
    exact iff_of_true (by omega) fun passes => absurd passes.destination other
  rw [if_neg other]
  by_cases cut : f.length - 14 < ntohs m 16
  · rw [if_pos cut, forall_mem_cons, forall_mem_append, reads_fine, reads_fine, Fine]
    refine iff_of_true (by omega) fun passes => ?_
    have := passes.total
    omega
  rw [if_neg cut]
  have passes : Passes net f m := ⟨by omega, ether, not_not.mp version, not_not.mp other, by omega⟩
  obtain ⟨h, header⟩ : ∃ n, n = (m 14).toNat % 16 * 4 := ⟨_, rfl⟩
  rw [← header]
  have low : h ≤ 60 := by omega
  have checks : ∀ rest, (∀ t ∈ read 14 :: (reads 30 4 ++ reads 16 2) ++
      [.subtract (ntohs m 16) h, .read 23] ++ rest, t.Fine f m) ↔
      h ≤ ntohs m 16 ∧ ∀ t ∈ rest, t.Fine f m := by
    intro rest
    have first : ∀ t ∈ read 14 :: (reads 30 4 ++ reads 16 2), t.Fine f m := by
      rw [forall_mem_cons, forall_mem_append, reads_fine, reads_fine, Fine]
      omega
    have last : (∀ t ∈ [subtract (ntohs m 16) h, .read 23], t.Fine f m) ↔ h ≤ ntohs m 16 := by
      rw [forall_mem_cons, forall_mem_singleton, Fine, Fine]
      omega
    rw [forall_mem_append, forall_mem_append, last]
    exact ⟨fun fine => ⟨fine.1.2, fine.2⟩, fun fine => ⟨⟨first, fine.1⟩, fine.2⟩⟩
  have alone := checks []
  rw [append_nil] at alone
  have agrees : Agrees net f m ↔ h ≤ ntohs m 16 ∧
      (m 23 = 6 → 20 ≤ ntohs m 16 - h → TcpAgrees net m (14 + h) (ntohs m 16 - h)) ∧
      (m 23 = 17 → 8 ≤ ntohs m 16 - h → UdpAgrees net m (14 + h) (ntohs m 16 - h)) := by
    rw [header, Agrees]
    exact ⟨fun agrees => agrees passes, fun agrees _ => agrees⟩
  rw [agrees]
  by_cases below : h ≤ ntohs m 16
  swap
  · constructor
    · intro fine
      refine absurd ?_ below
      split at fine
      · split at fine
        · exact (alone.mp fine).1
        · exact ((checks _).mp fine).1
      · split at fine
        · split at fine
          · exact (alone.mp fine).1
          · split at fine <;> exact ((checks _).mp fine).1
        · exact (alone.mp fine).1
    · intro agrees
      exact absurd agrees.1 below
  have nothing := alone.mpr ⟨below, fun t mem => nomatch mem⟩
  rw [sizeSub_eq below (by omega)]
  by_cases tcp : m 23 = 6
  · have udp : ¬m 23 = 17 := by
      rw [tcp]
      decide
    rw [if_pos tcp]
    by_cases few : ntohs m 16 - h < 20
    · rw [if_pos few]
      exact iff_of_true nothing ⟨below, fun _ many => by omega, fun is => absurd is udp⟩
    · rw [if_neg few, checks, tcpHandle_fine tcp header (by omega) (by omega) (by omega)]
      constructor
      · intro agrees
        exact ⟨below, fun _ _ => agrees.2, fun is => absurd is udp⟩
      · intro agrees
        exact ⟨below, agrees.2.1 tcp (by omega)⟩
  rw [if_neg tcp]
  by_cases udp : m 23 = 17
  · rw [if_pos udp]
    by_cases few : ntohs m 16 - h < 8
    · rw [if_pos few]
      exact iff_of_true nothing ⟨below, fun is => absurd is tcp, fun _ many => by omega⟩
    rw [if_neg few]
    by_cases port : ntohs m (14 + h + 2) = 53000
    · rw [if_pos port, checks, forall_mem_append, forall_mem_cons, reads_fine, Fine,
        sizeSub_eq (by omega) (by omega),
        udpDnsHandle_fine udp header (by omega) (by omega) (by omega)]
      constructor
      · intro fine
        exact ⟨below, fun is => absurd is tcp, fun _ _ _ => fine.2.2.2⟩
      · intro agrees
        exact ⟨below, by omega, by omega, agrees.2.2 udp (by omega) port⟩
    · rw [if_neg port, checks, reads_fine]
      exact iff_of_true ⟨below, by omega⟩ ⟨below, fun is => absurd is tcp, fun _ _ is => absurd is port⟩
  · rw [if_neg udp]
    exact iff_of_true nothing ⟨below, fun is => absurd is tcp, fun is => absurd is udp⟩

/-- What is done with a frame is fine for exactly the frames whose lengths agree with each other. -/
theorem frame_fine_iff (net : NetState) (scratch : Bytes) (f : Frame) :
    FrameFine net scratch f ↔ Agrees net f (e1000ReceivePacket scratch f).2 := by
  obtain ⟨m, received⟩ : ∃ m, m = (e1000ReceivePacket scratch f).2 := ⟨_, rfl⟩
  have size : scratchSize = 2048 := rfl
  have small := f.length_lt
  rw [FrameFine, ← received, netPoll]
  have got : (e1000ReceivePacket scratch f).1 = f.length := rfl
  simp only [← received, got]
  by_cases short : f.length < 14
  · rw [if_pos short]
    refine iff_of_true (fun t mem => nomatch mem) fun passes => ?_
    have := passes.length
    omega
  have header : ∀ rest, (∀ t ∈ reads 12 2 ++ [.subtract f.length 14] ++ rest, t.Fine f m) ↔
      ∀ t ∈ rest, t.Fine f m := by
    intro rest
    rw [forall_mem_append, forall_mem_append, forall_mem_singleton, reads_fine, Touch.Fine]
    exact ⟨fun fine => fine.2, fun fine => ⟨by omega, fine⟩⟩
  rw [if_neg short, sizeSub_eq (by omega) (by omega)]
  by_cases arp : ntohs m 12 = 0x0806
  · rw [if_pos arp, header]
    refine iff_of_true (arpHandle_fine (by omega)) fun passes => ?_
    have := passes.ether
    omega
  rw [if_neg arp]
  by_cases ip : ntohs m 12 = 0x0800
  · rw [if_pos ip, header]
    exact ipHandle_fine (by omega) ip
  · rw [if_neg ip]
    have alone := header []
    rw [append_nil] at alone
    exact iff_of_true (alone.mpr fun t mem => nomatch mem) fun passes => absurd passes.ether ip

def quiet : NetState := ⟨[10, 0, 2, 15], [], [], fun _ => 0, 0, 0, false⟩

/-- A TCP packet whose total length is 0. -/
def shortTotal : Frame where
  length := 34
  bytes := fun i => [0, 0, 0, 0, 0, 0, 0, 0, 0, 0, 0, 0, 8, 0,
    0x45, 0, 0, 0, 0, 0, 0, 0, 64, 6, 0, 0, 10, 0, 2, 2, 10, 0, 2, 15].getD i 0
  length_lt := by decide

/-- Behind the frame a TCP header is read. -/
theorem shortTotal_not_fine : ¬FrameFine quiet (fun _ => 0) shortTotal := by
  intro fine
  have outside : Touch.read 34 ∈ (netPoll quiet (fun _ => 0) shortTotal).2 := by decide +kernel
  have inside : 34 < min shortTotal.length scratchSize := fine _ outside
  exact absurd inside (by decide)

end Znu.Net
