import Znu.Lib.Checked

/-! # Answers of a name server

`dns_parse_response` looks for an address in what a name server has sent. Nothing it is given has
been checked before. It reads inside the buffer only, and it ends; for a well-formed response
without an error code it returns the first address of the answers.
-/

namespace Znu.Net

open Lib List Bytes Nat UInt8 Option

/-! ## The functions -/

variable {len fuel : Nat} {r : Response}

section

variable (buf : Bytes)

end

/-! ## Well-formed responses -/

variable {buf : Bytes}

/-- Labels, and at their end a pointer to the rest of the name or nothing. -/
structure Name where
  labels : List (List UInt8)
  pointer : Option Nat
  labels_small : ∀ l ∈ labels, 0 < l.length ∧ l.length < 64
  pointer_small : ∀ p ∈ pointer, p < 2 ^ 14

namespace Name

def labelBytes (l : List UInt8) : List UInt8 := ofNat l.length :: l

def endBytes : Option Nat → List UInt8
  | none => [0]
  | some p => bigEndian16 (0xC000 + p)

def bytes (name : Name) : List UInt8 := name.labels.flatMap labelBytes ++ endBytes name.pointer

end Name

structure Question where
  name : Name
  qtype : Nat
  qclass : Nat

def Question.bytes (q : Question) : List UInt8 :=
  q.name.bytes ++ (bigEndian16 q.qtype ++ bigEndian16 q.qclass)

structure Record where
  name : Name
  rtype : Nat
  rclass : Nat
  /-- the high half of the time to live, and the low one -/
  ttl : Nat × Nat
  rdata : List UInt8
  rtype_small : rtype < 2 ^ 16
  rdata_small : rdata.length < 2 ^ 16

namespace Record

/-- What stands between the name and the data. -/
def fields (r : Record) : List UInt8 :=
  bigEndian16 r.rtype ++ (bigEndian16 r.rclass ++ (bigEndian16 r.ttl.1 ++ (bigEndian16 r.ttl.2 ++
    bigEndian16 r.rdata.length)))

def bytes (r : Record) : List UInt8 := r.name.bytes ++ (r.fields ++ r.rdata)

def isAddress (r : Record) : Bool := r.rtype = 1 ∧ r.rdata.length = 4

end Record

open Record

/-- A response; the records after its answers can be anything. -/
structure Response where
  id : Nat
  flags : Nat
  questions : List Question
  answers : List Record
  nscount : Nat
  arcount : Nat
  rest : List UInt8
  flags_small : flags < 2 ^ 16
  is_response : flags.testBit 15
  questions_small : questions.length < 2 ^ 16
  answers_small : answers.length < 2 ^ 16

namespace Response

def header (r : Response) : List UInt8 :=
  bigEndian16 r.id ++ (bigEndian16 r.flags ++ (bigEndian16 r.questions.length ++
    (bigEndian16 r.answers.length ++ (bigEndian16 r.nscount ++ bigEndian16 r.arcount))))

def bytes (r : Response) : List UInt8 :=
  r.header ++ (r.questions.flatMap Question.bytes ++ (r.answers.flatMap Record.bytes ++ r.rest))

/-- The data of the first answer that is an address. -/
def address (r : Response) : Option (List UInt8) := (r.answers.find? isAddress).map rdata

end Response

variable {pos : Nat}

lemma Name.length_le (name : Name) : name.labels.length < name.bytes.length := by
  have ending : 0 < (endBytes name.pointer).length := by
    cases name.pointer with
    | none => exact one_pos
    | some p => exact two_pos
  have labels : name.labels.length ≤ (name.labels.flatMap labelBytes).length := by
    induction name.labels with
    | nil => exact le_refl _
    | cons l labels ih =>
      rw [flatMap_cons, length_append, length_cons, labelBytes, length_cons]
      omega
  rw [bytes, length_append]
  omega

lemma Record.length_bytes (r : Record) : r.bytes.length = r.name.bytes.length + (10 + r.rdata.length) := by
  rw [bytes, length_append, length_append]
  rfl

lemma alias_type : 5 < 2 ^ 16 := by decide

lemma address_type : 1 < 2 ^ 16 := by decide

/-- A question and two answers: another name, and an address. -/
def answered : Response where
  id := 0x1337
  flags := 0x8180
  questions := [⟨⟨[[97, 98]], none, by decide, by decide⟩, 1, 1⟩]
  answers :=
    [⟨⟨[], some 12, by decide, by decide⟩, 5, 1, (0, 60), [1, 99, 0], alias_type, by decide⟩,
      ⟨⟨[[99]], none, by decide, by decide⟩, 1, 1, (0, 60), [10, 0, 2, 2], address_type, by decide⟩]
  nscount := 0
  arcount := 0
  rest := []
  flags_small := by decide
  is_response := by decide
  questions_small := by decide
  answers_small := by decide

def refused : Response :=
  { answered with flags := 0x8183, flags_small := by decide, is_response := by decide }

def Response.buffer (r : Response) : Bytes := fun i => r.bytes.getD i 0

def isDigit (c : UInt8) : Bool := 48 ≤ c ∧ c ≤ 57

/-- A loop of `dns_resolve` over digits, with what is left of the text behind them. -/
def scanNumber (n : UInt32) : List UInt8 → UInt32 × List UInt8
  | [] => (n, [])
  | c :: p => if isDigit c then scanNumber (n * 10 + (c - 48).toUInt32) p else (n, c :: p)

/-- The last `k + 1` of these loops, with the dots between them. -/
def scanOctets : Nat → List UInt8 → Option (List UInt8)
  | 0, p => some [(scanNumber 0 p).1.toUInt8]
  | k + 1, p =>
    match (scanNumber 0 p).2 with
    | 46 :: rest => (scanOctets k rest).map ((scanNumber 0 p).1.toUInt8 :: ·)
    | _ => none

/-- `dns_resolve` for a text of digits and dots. -/
def resolveQuad (hostname : List UInt8) : Option (List UInt8) := scanOctets 3 hostname

def value (n : Nat) (digits : List UInt8) : Nat := digits.foldl (fun n c => n * 10 + (c.toNat - 48)) n

def IsOctet (n : List UInt8) : Prop := (∀ c ∈ n, isDigit c) ∧ n ≠ [] ∧ value 0 n ≤ 255

/-- Four numbers with dots between them, and the address they stand for. -/
def IsQuad (text ip : List UInt8) : Prop :=
  ∃ ns, ns.length = 4 ∧ (∀ n ∈ ns, IsOctet n) ∧ text = [46].intercalate ns ∧
    ip = ns.map fun n => ofNat (value 0 n)

variable {digits text : List UInt8}

lemma scanNumber_append (all : ∀ c ∈ digits, isDigit c) (n : Nat) (rest : List UInt8)
    (ends : ∀ c ∈ rest.head?, c = 46) :
    scanNumber (.ofNat n) (digits ++ rest) = (.ofNat (value n digits), rest) := by
  induction digits generalizing n with
  | nil =>
    cases rest with
    | nil => rfl
    | cons c rest =>
      cases ends c rfl
      rfl
  | cons c digits ih =>
    rw [forall_mem_cons] at all
    have next : (c - 48).toUInt32 = .ofNat (c.toNat - 48) := by
      rw [← UInt32.ofNat_uInt8ToNat, UInt8.toNat_sub_of_le _ _ (of_decide_eq_true all.1).1]
      rfl
    rw [cons_append, scanNumber, if_pos all.1, value, foldl_cons, ← value, ← ih all.2, UInt32.ofNat_add,
      UInt32.ofNat_mul, next]
    rfl

lemma scanOctets_intercalate {ns : List (List UInt8)} (octets : ∀ n ∈ ns, IsOctet n) {k : Nat}
    (length : ns.length = k + 1) :
    scanOctets k ([46].intercalate ns) = some (ns.map fun n => ofNat (value 0 n)) := by
  induction k generalizing ns with
  | zero =>
    obtain ⟨n, rfl⟩ := length_eq_one_iff.mp length
    have scan := scanNumber_append (octets n mem_cons_self).1 0 [] (by simp)
    rw [append_nil] at scan
    rw [intercalate_singleton, scanOctets, show (0 : UInt32) = .ofNat 0 from rfl, scan]
    simp
  | succ k ih =>
    rcases ns with _ | ⟨n, _ | ⟨m, ns⟩⟩
    · cases length
    · cases length
    · rw [forall_mem_cons] at octets
      have scan : scanNumber 0 (n ++ 46 :: [46].intercalate (m :: ns)) = (.ofNat (value 0 n), 46 :: _) :=
        scanNumber_append octets.1.1 0 _ (by simp)
      simp [scanOctets, scan, ih octets.2 (succ.inj length)]

/-- Behind the digits there is a dot, or the text is over. -/
lemma scanNumber_rest (plain : ∀ c ∈ text, isDigit c ∨ c = 46) (n : UInt32) :
    (scanNumber n text).2 = [] ∧ text.count 46 = 0 ∨ ∃ rest, (scanNumber n text).2 = 46 :: rest ∧
      text.count 46 = rest.count 46 + 1 ∧ ∀ c ∈ rest, isDigit c ∨ c = 46 := by
  induction text generalizing n with
  | nil => exact .inl ⟨rfl, rfl⟩
  | cons c text ih =>
    rw [forall_mem_cons] at plain
    rw [scanNumber]
    split
    · next digit =>
      have other : c ≠ 46 := by
        rintro rfl
        exact absurd digit (by decide)
      rw [count_cons_of_ne other]
      exact ih plain.2 _
    · next digit =>
      obtain rfl := plain.1.resolve_left digit
      exact .inr ⟨text, rfl, count_cons_self, plain.2⟩

lemma scanOctets_isSome (plain : ∀ c ∈ text, isDigit c ∨ c = 46) (k : Nat) :
    (scanOctets k text).isSome ↔ k ≤ text.count 46 := by
  induction k generalizing text with
  | zero => simp [scanOctets]
  | succ k ih =>
    rw [scanOctets]
    obtain ⟨ended, none⟩ | ⟨rest, dot, count, plain'⟩ := scanNumber_rest plain 0
    · simp [ended, none]
    · simp [dot, ih plain', count]

/-- A text of digits and dots is read as it should be exactly if it has less than three dots or is
    four numbers with dots between them. -/
theorem resolveQuad_iff (text : List UInt8) (plain : ∀ c ∈ text, isDigit c ∨ c = 46) :
    (∀ ip, resolveQuad text = some ip ↔ IsQuad text ip) ↔ text.count 46 < 3 ∨ ∃ ip, IsQuad text ip := by
  have accepted {ip : List UInt8} (quad : IsQuad text ip) : resolveQuad text = some ip := by
    obtain ⟨ns, length, octets, rfl, rfl⟩ := quad
    exact scanOctets_intercalate octets length
  constructor
  · intro agrees
    by_contra! wrong
    obtain ⟨ip, read⟩ := Option.isSome_iff_exists.mp ((scanOctets_isSome plain 3).mpr wrong.1)
    exact wrong.2 ip ((agrees ip).mp read)
  · intro right ip
    refine ⟨fun read => ?_, accepted⟩
    obtain few | ⟨ip', quad⟩ := right
    · have dots := (scanOctets_isSome plain 3).mp (Option.isSome_of_eq_some read)
      omega
    · exact Option.some.inj ((accepted quad).symm.trans read) ▸ quad

theorem plain_address : resolveQuad [49, 46, 50, 46, 51, 46, 52] = some [1, 2, 3, 4] ↔
    IsQuad [49, 46, 50, 46, 51, 46, 52] [1, 2, 3, 4] :=
  (resolveQuad_iff _ (by simp [isDigit])).mpr
    (.inr ⟨[1, 2, 3, 4], [[49], [50], [51], [52]], by simp [IsOctet, value, isDigit]⟩) _

/-- Three dots alone are read as an address. -/
theorem dots_resolved : ¬∀ ip, resolveQuad [46, 46, 46] = some ip ↔ IsQuad [46, 46, 46] ip := by
  intro agrees
  obtain ⟨ns, -, octets, text, -⟩ := (agrees [0, 0, 0, 0]).mp rfl
  rcases ns with _ | ⟨_ | ⟨c, n⟩, ns⟩
  · cases text
  · exact (octets [] mem_cons_self).2.1 rfl
  · have digit := (octets _ mem_cons_self).1 c mem_cons_self
    have first : 46 = c := by cases ns <;> exact (cons.inj text).1
    cases first
    cases digit

end Znu.Net
