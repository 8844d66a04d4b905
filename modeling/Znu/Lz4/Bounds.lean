import Znu.Lz4.Decoder

/-! # What the decoder touches

The decoder is followed access by access. The frame's own fields and its stored blocks are
compared with the limits before anything is read or written. The inside of a compressed block is
not: its lengths and offsets are used as they are. The accesses stay in bounds for exactly the
inputs whose compressed blocks have all their lengths inside the buffers.
-/

namespace Znu.Lz4

open Lib Option List Nat Set

/-! ## Accesses -/

inductive Access where
  | read (addr : Nat)
  | write (addr : Nat)
  /-- the source of a match, `*ref` -/
  | ref (addr : Int)
  deriving DecidableEq

/-- The accesses of `readLength`. -/
def lengthReads (input : Bytes) : Nat → Nat → List Access
  | 0, _ => []
  | fuel + 1, ip => .read ip :: if input ip = 255 then lengthReads input fuel (ip + 1) else []

def lengthTrace (input : Bytes) (fuel ip len : Nat) : List Access :=
  if len = 15 then lengthReads input fuel ip else []

def literalTrace : Nat → Nat → Nat → List Access
  | 0, _, _ => []
  | n + 1, ip, op => .read ip :: .write op :: literalTrace n (ip + 1) (op + 1)

def matchTrace : Nat → Int → Nat → List Access
  | 0, _, _ => []
  | n + 1, ref, op => .ref ref :: .write op :: matchTrace n (ref + 1) (op + 1)

/-- The accesses of a round of `blockLoop` after its literals; `next` is for the rounds to come. -/
def offsetTrace (input : Bytes) (iend fuel token : Nat) (next : Nat → Nat → List Access) (ip op : Nat) :
    List Access :=
  if iend ≤ ip then [] else
  let offset := input.word ip 2
  .read ip :: .read (ip + 1) :: (lengthTrace input fuel (ip + 2) (token % 16) ++
    (lengthFrom input fuel (ip + 2) (token % 16)).elim [] fun mat =>
      matchTrace (mat.2 + 4) (op - offset) op ++ next mat.1 (op + (mat.2 + 4)))

/-- The accesses of `blockLoop`. -/
def blockTrace (input : Bytes) (iend : Nat) : Nat → Nat → Nat → List Access
  | 0, _, _ => []
  | fuel + 1, ip, op =>
    if ip < iend then
      let token := (input ip).toNat
      .read ip :: (lengthTrace input fuel (ip + 1) (token / 16) ++
        (lengthFrom input fuel (ip + 1) (token / 16)).elim [] fun lit =>
          literalTrace lit.2 lit.1 op ++
            offsetTrace input iend fuel token (blockTrace input iend fuel) (lit.1 + lit.2) (op + lit.2))
    else []

def sizeReads (ip : Nat) : List Access := [.read ip, .read (ip + 1), .read (ip + 2), .read (ip + 3)]

/-- The accesses of a loop over blocks, which may allow stored blocks and skip checksums. -/
def blocksTrace (input : Bytes) (iend oend : Nat) (stored : Bool) (checksum : Nat) :
    Nat → Nat → Nat → Bytes → List Access
  | 0, _, _, _ => []
  | fuel + 1, ip, op, output =>
    if ip < iend then
      if iend < ip + 4 then [] else
      let blockSize := input.word ip 4
      sizeReads ip ++
        (let ip := ip + 4
        if blockSize = 0 then [] else
        if stored ∧ blockSize.testBit 31 then
          let realSize := blockSize % 2 ^ 31
          if iend < ip + realSize ∨ oend < op + realSize then [] else
          literalTrace realSize ip op ++
            blocksTrace input iend oend stored checksum fuel (ip + realSize + checksum) (op + realSize)
              (copyLiterals input realSize ip op output)
        else
          if iend < ip + blockSize then [] else
          blockTrace input (ip + blockSize) fuel ip op ++
            (lz4DecompressBlock fuel input ip output op blockSize).elim [] fun block =>
              if oend < block.1 then [] else
              blocksTrace input iend oend stored checksum fuel (ip + blockSize + checksum)
                block.1 block.2)
    else []

/-- The accesses of `legacyLoop`. -/
def legacyTrace (input : Bytes) (iend oend fuel ip op : Nat) (output : Bytes) : List Access :=
  blocksTrace input iend oend false 0 fuel ip op output

/-- The accesses of `frameLoop`. -/
def frameTrace (input : Bytes) (iend oend : Nat) (flg : UInt8) (fuel ip op : Nat) (output : Bytes) :
    List Access :=
  blocksTrace input iend oend true (if flg &&& 16 ≠ 0 then 4 else 0) fuel ip op output

/-- The two buffers. -/
structure Buffers where
  source : Nat
  dest : Nat
  inputSize : Nat
  maxOutput : Nat

namespace Buffers

def iend (b : Buffers) : Nat := b.source + b.inputSize

def oend (b : Buffers) : Nat := b.dest + b.maxOutput

end Buffers

def blocksFrom (input : Bytes) (source : Nat) : Nat :=
  let flg := input (source + 4)
  let ip := source + 6
  let ip := if flg &&& 8 ≠ 0 then ip + 8 else ip
  let ip := if flg &&& 1 ≠ 0 then ip + 4 else ip
  ip + 1

/-- The accesses of `lz4Unframe`. -/
def unframeTrace (fuel : Nat) (input : Bytes) (b : Buffers) (output : Bytes) : List Access :=
  if b.inputSize < 7 then [] else
  sizeReads b.source ++
    (let magic := input.word b.source 4
    if magic = 0x184C2102 then legacyTrace input b.iend b.oend fuel (b.source + 4) b.dest output else
    if magic ≠ 0x184D2204 then [] else
    .read (b.source + 4) :: .read (b.source + 5) ::
      frameTrace input b.iend b.oend (input (b.source + 4)) fuel (blocksFrom input b.source) b.dest
        output)

/-! ## Safe accesses -/

/-- The access is in bounds; `done` is what has been written before. -/
def Access.Allowed (b : Buffers) (done : Set Nat) : Access → Prop
  | .read x => b.source ≤ x ∧ x < b.iend
  | .write x => b.dest ≤ x ∧ x < b.oend
  | .ref x => ∃ y ∈ done, (y : Int) = x

def Access.after (done : Set Nat) : Access → Set Nat
  | .read _ => done
  | .write x => insert x done
  | .ref _ => done

/-- All accesses are in bounds, each after those before it. -/
def Safe (b : Buffers) : Set Nat → List Access → Prop
  | _, [] => True
  | done, a :: rest => a.Allowed b done ∧ Safe b (a.after done) rest

variable {input output output' : Bytes} {b : Buffers} {done : Set Nat} {fuel ip op iend x k : Nat}
  {r : UInt8}

@[simp] lemma safe_nil : Safe b done [] := trivial

variable {rest trace : List Access}

@[simp] lemma safe_read :
    Safe b done (.read x :: rest) ↔ (b.source ≤ x ∧ x < b.iend) ∧ Safe b done rest := Iff.rfl

lemma safe_append {first second : List Access} :
    Safe b done (first ++ second) ↔ Safe b done first ∧ Safe b (first.foldl Access.after done) second := by
  induction first generalizing done with
  | nil => simp
  | cons a first ih =>
    rw [cons_append, Safe, Safe, ih, foldl_cons, and_assoc]

lemma Safe.write (safe : Safe b done trace) (mem : .write x ∈ trace) : b.dest ≤ x ∧ x < b.oend := by
  induction trace generalizing done with
  | nil => cases mem
  | cons a trace ih =>
    obtain ⟨allowed, rest⟩ := safe
    cases mem with
    | head => exact allowed
    | tail _ mem => exact ih rest mem

@[simp] lemma after_lengthTrace (len : Nat) :
    (lengthTrace input fuel ip len).foldl Access.after done = done := by
  unfold lengthTrace
  split
  · induction fuel generalizing ip with
    | zero => rfl
    | succ fuel ih =>
      rw [lengthReads, foldl_cons]
      split
      · exact ih
      · rfl
  · rfl

lemma insert_Ico {low : Nat} (below : low ≤ op) : insert op (Set.Ico low op) = Set.Ico low (op + 1) := by
  ext x
  simp only [Set.mem_insert_iff, Set.mem_Ico]
  omega

lemma after_literalTrace (n : Nat) (below : b.dest ≤ op) :
    (literalTrace n ip op).foldl Access.after (Set.Ico b.dest op) = Set.Ico b.dest (op + n) := by
  induction n generalizing ip op with
  | zero => rfl
  | succ n ih =>
    rw [literalTrace, foldl_cons, foldl_cons, Access.after, Access.after, insert_Ico below,
      ih (by omega), add_right_comm, add_assoc]

lemma after_matchTrace (n : Nat) (ref : Int) (below : b.dest ≤ op) :
    (matchTrace n ref op).foldl Access.after (Set.Ico b.dest op) = Set.Ico b.dest (op + n) := by
  induction n generalizing ref op with
  | zero => rfl
  | succ n ih =>
    rw [matchTrace, foldl_cons, foldl_cons, Access.after, Access.after, insert_Ico below,
      ih _ (by omega), add_right_comm, add_assoc]

variable {least n : Nat}

lemma safe_literalTrace (start : b.source ≤ ip) (below : b.dest ≤ op) :
    Safe b (Ico b.dest op) (literalTrace n ip op) ↔ n = 0 ∨ ip + n ≤ b.iend ∧ op + n ≤ b.oend := by
  induction n generalizing ip op with
  | zero => simp [literalTrace]
  | succ n ih =>
    rw [literalTrace, safe_read, Safe, Access.Allowed, Access.after, insert_Ico below,
      ih (by omega) (by omega)]
    omega

lemma safe_matchTrace {ref : Int} (below : b.dest ≤ op) :
    Safe b (Ico b.dest op) (matchTrace n ref op) ↔ n = 0 ∨ (b.dest ≤ ref ∧ ref < op) ∧ op + n ≤ b.oend := by
  induction n generalizing ref op with
  | zero => simp [matchTrace]
  | succ n ih =>
    have reached : (∃ y ∈ Set.Ico b.dest op, (y : Int) = ref) ↔ b.dest ≤ ref ∧ ref < op := by
      constructor
      · rintro ⟨y, inside, rfl⟩
        exact ⟨Int.ofNat_le.mpr inside.1, Int.ofNat_lt.mpr inside.2⟩
      · intro inside
        exact ⟨ref.toNat, mem_Ico.mpr (by omega), by omega⟩
    rw [matchTrace, Safe, Safe, Access.Allowed, Access.Allowed, Access.after, Access.after,
      insert_Ico below, ih (by omega), reached]
    omega

/-! ## Lengths -/

/-- A length that begins in half a token and goes on at `ip`, in front of the limit. -/
structure Length (input : Bytes) (limit ip half n : Nat) : Prop where
  half_eq : half = nibble n
  holds : Holds input ip (extension n)
  inside : ip + (extension n).length ≤ limit

lemma extension_eq (k : Nat) (ends : r ≠ 255) :
    extension (15 + 255 * k + r.toNat) = replicate k 255 ++ [r] := by
  have small : r.toNat < 255 := by
    have bound := r.toNat_lt
    have distinct : r.toNat ≠ (255 : UInt8).toNat := fun same => ends (UInt8.toNat_inj.mp same)
    have full : (255 : UInt8).toNat = 255 := rfl
    omega
  have quotient : (15 + 255 * k + r.toNat - 15) / 255 = k := by omega
  have remainder : (15 + 255 * k + r.toNat - 15) % 255 = r.toNat := by omega
  rw [extension, if_neg (by omega), quotient, remainder, UInt8.ofNat_toNat]

lemma extension_long (long : ¬n < 15) : ∃ k, ∃ r : UInt8, r ≠ 255 ∧ n = 15 + 255 * k + r.toNat := by
  have value : (UInt8.ofNat ((n - 15) % 255)).toNat = (n - 15) % 255 := by
    rw [UInt8.toNat_ofNat']
    omega
  refine ⟨(n - 15) / 255, UInt8.ofNat ((n - 15) % 255), ?_, ?_⟩
  · intro same
    rw [same] at value
    have full : (255 : UInt8).toNat = 255 := rfl
    omega
  · omega

lemma lengthReads_safe (ends : r ≠ 255)
    (holds : Holds input ip (replicate k 255 ++ [r])) (start : b.source ≤ ip)
    (inside : ip + (k + 1) ≤ b.iend) (fuel : Nat) : Safe b done (lengthReads input fuel ip) := by
  induction fuel generalizing ip k with
  | zero => trivial
  | succ fuel ih =>
    rw [lengthReads, safe_read]
    refine ⟨by omega, ?_⟩
    cases k with
    | zero =>
      obtain ⟨here, -⟩ := holds
      rw [here, if_neg ends]
      trivial
    | succ k =>
      obtain ⟨here, rest⟩ := holds
      rw [here, if_pos rfl]
      apply ih rest
      · omega
      · omega

lemma readLength_none {len : Nat} {bytes : List UInt8}
    (holds : Holds input ip (replicate k 255 ++ bytes)) (few : fuel ≤ k) :
    readLength input fuel ip len = none := by
  induction fuel generalizing ip k len with
  | zero => rfl
  | succ fuel ih =>
    obtain ⟨k, rfl⟩ : ∃ j, k = j + 1 := ⟨k - 1, by omega⟩
    obtain ⟨here, rest⟩ := holds
    rw [readLength, here, if_pos rfl, ih rest (by omega)]

namespace Length

variable {limit half : Nat}

lemma safe (length : Length input b.iend ip half n) (start : b.source ≤ ip) (fuel : Nat) :
    Safe b done (lengthTrace input fuel ip half) := by
  obtain ⟨rfl, holds, inside⟩ := length
  unfold lengthTrace
  by_cases short : n < 15
  · rw [nibble, if_neg (by omega)]
    trivial
  rw [nibble, if_pos (by omega)]
  obtain ⟨k, r, ends, rfl⟩ := extension_long short
  rw [extension_eq k ends] at holds inside
  rw [length_append, length_replicate, length_singleton] at inside
  exact lengthReads_safe ends holds start inside fuel

/-- The loop returns the length, unless the fuel is too short. -/
lemma returns (length : Length input limit ip half n) (fuel : Nat) :
    fuel < (extension n).length ∧ lengthFrom input fuel ip half = none ∨
      lengthFrom input fuel ip half = some (ip + (extension n).length, n) := by
  obtain ⟨rfl, holds, -⟩ := length
  by_cases enough : (extension n).length ≤ fuel
  · exact .inr (lengthFrom_eq holds enough)
  refine .inl ⟨Nat.lt_of_not_le enough, ?_⟩
  have long : ¬n < 15 := by
    intro short
    rw [extension, if_pos short] at enough
    exact enough (zero_le _)
  obtain ⟨k, r, ends, rfl⟩ := extension_long long
  rw [extension_eq k ends] at holds enough
  rw [length_append, length_replicate, length_singleton] at enough
  rw [lengthFrom, nibble, if_pos (by omega)]
  exact readLength_none holds (by omega)

end Length

lemma exists_length_of_reads {ip least : Nat} (start : b.source ≤ ip)
    (safe : ∀ fuel, least ≤ fuel → Safe b done (lengthReads input fuel ip)) :
    ∃ k, ∃ r : UInt8, r ≠ 255 ∧ Holds input ip (replicate k 255 ++ [r]) ∧ ip + (k + 1) ≤ b.iend := by
  have first := safe (least + 1) (le_succ _)
  rw [lengthReads, safe_read] at first
  obtain ⟨here, -⟩ := first
  by_cases full : input ip = 255
  · have later : ∀ fuel, least ≤ fuel → Safe b done (lengthReads input fuel (ip + 1)) := by
      intro fuel enough
      have more := safe (fuel + 1) (by omega)
      rw [lengthReads, safe_read, if_pos full] at more
      exact more.2
    obtain ⟨k, r, ends, holds, inside⟩ := exists_length_of_reads (by omega) later
    exact ⟨k + 1, r, ends, ⟨full, holds⟩, by omega⟩
  · exact ⟨0, input ip, full, ⟨rfl, trivial⟩, here.2⟩
termination_by b.iend - ip
decreasing_by omega

/-- Where the accesses are safe whatever the fuel, the length ends inside the input. -/
lemma exists_length {half : Nat} (small : half < 16) (start : b.source ≤ ip)
    (before : ip ≤ b.iend)
    (safe : ∀ fuel, least ≤ fuel → Safe b done (lengthTrace input fuel ip half)) :
    ∃ n, Length input b.iend ip half n := by
  by_cases long : half = 15
  · subst long
    have reads : ∀ fuel, least ≤ fuel → Safe b done (lengthReads input fuel ip) := by
      intro fuel enough
      have trace := safe fuel enough
      exact trace
    obtain ⟨k, r, ends, holds, inside⟩ := exists_length_of_reads start reads
    refine ⟨15 + 255 * k + r.toNat, ?_, ?_, ?_⟩
    · rw [nibble]
      omega
    · rw [extension_eq k ends]
      exact holds
    · rw [extension_eq k ends, length_append, length_replicate]
      exact inside
  · have none : extension half = [] := if_pos (by omega)
    refine ⟨half, ?_, ?_, ?_⟩
    · rw [nibble]
      omega
    · rw [none]
      trivial
    · rw [none]
      exact before

/-! ## Blocks -/

/-- From `ip` and `op` on, the block is a series of sequences that lie in the input, whose matches
    begin in what has been produced, and whose data fit. At the end the output ends at `final`. -/
inductive Sound (input : Bytes) (b : Buffers) (iend : Nat) : Nat → Nat → Nat → Prop where
  | done {ip op : Nat} (ends : iend ≤ ip) : Sound input b iend ip op op
  | last {ip op p n : Nat} (more : ip < iend)
      (literals : Length input b.iend (ip + 1) ((input ip).toNat / 16) n)
      (place : p = ip + 1 + (extension n).length) (inside : p + n ≤ b.iend) (fits : op + n ≤ b.oend)
      (ends : iend ≤ p + n) : Sound input b iend ip op (op + n)
  | sequence {ip op p n q m final : Nat} (more : ip < iend)
      (literals : Length input b.iend (ip + 1) ((input ip).toNat / 16) n)
      (place : p = ip + 1 + (extension n).length) (fits : op + n ≤ b.oend)
      (again : p + n < iend) (offset : p + n + 2 ≤ b.iend)
      (length : Length input b.iend (p + n + 2) ((input ip).toNat % 16) m)
      (next : q = p + n + 2 + (extension m).length) (back : 0 < input.word (p + n) 2)
      (reaches : b.dest + input.word (p + n) 2 ≤ op + n) (room : op + n + (m + 4) ≤ b.oend)
      (rest : Sound input b iend q (op + n + (m + 4)) final) : Sound input b iend ip op final

variable {final : Nat}

/-- The part of the output that has been written ends where the loop says. -/
lemma after_blockTrace (below : b.dest ≤ op)
    (returned : blockLoop input iend fuel ip op output = some (final, output')) :
    (blockTrace input iend fuel ip op).foldl Access.after (Ico b.dest op) =
        Set.Ico b.dest final ∧ op ≤ final := by
  induction fuel generalizing ip op output with
  | zero => cases returned
  | succ fuel ih =>
    rw [blockLoop] at returned
    rw [blockTrace]
    by_cases more : ip < iend
    · rw [if_pos more] at returned ⊢
      rw [foldl_cons, Access.after, foldl_append, after_lengthTrace]
      obtain ⟨lit, length, returned⟩ := bind_eq_some_iff.mp returned
      rw [length, elim_some, foldl_append, after_literalTrace _ below, offsetTrace]
      by_cases ends : iend ≤ lit.1 + lit.2
      · rw [if_pos ends] at returned ⊢
        cases returned
        exact ⟨rfl, Nat.le_add_right ..⟩
      rw [if_neg ends] at returned ⊢
      rw [foldl_cons, foldl_cons, Access.after, Access.after, foldl_append, after_lengthTrace]
      obtain ⟨mat, length', returned⟩ := bind_eq_some_iff.mp returned
      have later := ih (by omega) returned
      rw [length', elim_some, foldl_append, after_matchTrace _ _ (by omega)]
      exact ⟨later.1, by omega⟩
    · rw [if_neg more] at returned ⊢
      cases returned
      exact ⟨rfl, le_refl _⟩

namespace Sound

/-- The loop returns the end of the output, unless the fuel is too short. -/
lemma returns (sound : Sound input b iend ip op final) :
    ∃ least, ∀ (fuel : Nat) (output : Bytes),
      fuel < least ∧ blockLoop input iend fuel ip op output = none ∨
        ∃ output', blockLoop input iend fuel ip op output = some (final, output') := by
  induction sound with
  | done ends =>
    refine ⟨1, fun fuel output => ?_⟩
    cases fuel with
    | zero => exact .inl ⟨one_pos, rfl⟩
    | succ fuel =>
      rw [blockLoop, if_neg (by omega)]
      exact .inr ⟨output, rfl⟩
  | @last ip op p n more literals place inside fits ends =>
    refine ⟨(extension n).length + 1, fun fuel output => ?_⟩
    cases fuel with
    | zero => exact .inl ⟨succ_pos _, rfl⟩
    | succ fuel =>
      rw [blockLoop, if_pos more]
      dsimp only
      obtain ⟨short, none⟩ | some := literals.returns fuel
      · rw [none]
        exact .inl ⟨succ_lt_succ short, rfl⟩
      · rw [some, bind_eq_bind, bind_some, if_pos (by rw [← place]; exact ends)]
        exact .inr ⟨_, rfl⟩
  | @sequence ip op p n q m final more literals place fits again offset length next back reaches room rest
      ih =>
    obtain ⟨least, later⟩ := ih
    refine ⟨(extension n).length + (extension m).length + least + 1, fun fuel output => ?_⟩
    cases fuel with
    | zero => exact .inl ⟨succ_pos _, rfl⟩
    | succ fuel =>
      rw [blockLoop, if_pos more]
      dsimp only
      obtain ⟨short, none⟩ | some := literals.returns fuel
      · rw [none]
        exact .inl ⟨by omega, rfl⟩
      rw [some, bind_eq_bind, bind_some]
      rw [← place, if_neg (by omega)]
      obtain ⟨short, none⟩ | some := length.returns fuel
      · rw [none]
        exact .inl ⟨by omega, rfl⟩
      rw [some, bind_some]
      rw [← next]
      exact (later fuel _).imp_left fun short => ⟨by omega, short.2⟩

lemma safe (sound : Sound input b iend ip op final) (start : b.source ≤ ip) (below : b.dest ≤ op)
    (limit : iend ≤ b.iend) (fuel : Nat) :
    Safe b (Ico b.dest op) (blockTrace input iend fuel ip op) := by
  induction sound generalizing fuel with
    (rcases fuel with _ | fuel; · trivial)
  | done ends =>
    rw [blockTrace, if_neg (by omega)]
    trivial
  | @last ip op p n more literals place inside fits ends =>
    rw [blockTrace, if_pos more]
    rw [safe_read, safe_append, after_lengthTrace]
    refine ⟨by omega, literals.safe (by omega) fuel, ?_⟩
    obtain ⟨-, none⟩ | some := literals.returns fuel
    · rw [none]
      trivial
    rw [some, elim_some, offsetTrace, if_pos (by rw [← place]; exact ends), append_nil,
      safe_literalTrace (by omega) below]
    exact .inr ⟨by rw [← place]; exact inside, fits⟩
  | @sequence ip op p n q m final more literals place fits again offset length next back reaches room rest
      ih =>
    rw [blockTrace, if_pos more]
    rw [safe_read, safe_append, after_lengthTrace]
    refine ⟨by omega, literals.safe (by omega) fuel, ?_⟩
    obtain ⟨-, none⟩ | some := literals.returns fuel
    · rw [none]
      trivial
    rw [some, elim_some]
    dsimp only
    rw [← place, offsetTrace, if_neg (by omega), safe_append, after_literalTrace _ below,
      safe_literalTrace (by omega) below, safe_read, safe_read, safe_append, after_lengthTrace]
    refine ⟨.inr (by omega), by omega, by omega, length.safe (by omega) fuel, ?_⟩
    obtain ⟨-, none⟩ | some := length.returns fuel
    · rw [none]
      trivial
    rw [some, elim_some]
    rw [← next, safe_append, after_matchTrace _ _ (by omega), safe_matchTrace (by omega)]
    refine ⟨.inr (by omega), ih (by omega) (by omega) fuel⟩

end Sound

/-- What safe accesses say of a round: its literals, and what comes after them. -/
lemma exists_literals (start : b.source ≤ ip) (below : b.dest ≤ op) (room : op ≤ b.oend)
    (limit : iend ≤ b.iend) (more : ip < iend)
    (safe : ∀ fuel, least ≤ fuel → Safe b (Ico b.dest op) (blockTrace input iend fuel ip op)) :
    ∃ n, Length input b.iend (ip + 1) ((input ip).toNat / 16) n ∧
      ip + 1 + (extension n).length + n ≤ b.iend ∧ op + n ≤ b.oend ∧
      ∀ fuel, least + (extension n).length ≤ fuel → Safe b (Ico b.dest (op + n))
        (offsetTrace input iend fuel (input ip).toNat (blockTrace input iend fuel)
          (ip + 1 + (extension n).length + n) (op + n)) := by
  have byte := (input ip).toNat_lt
  have shape : ∀ fuel, least ≤ fuel → _ := fun fuel enough => safe (fuel + 1) (by omega)
  simp only [blockTrace, if_pos more, safe_read, safe_append, after_lengthTrace] at shape
  obtain ⟨n, literals⟩ := exists_length (by omega) (by omega) (by omega)
    fun fuel enough => (shape fuel enough).2.1
  have copied : ∀ fuel, least + (extension n).length ≤ fuel → Safe b (Ico b.dest op)
      (literalTrace n (ip + 1 + (extension n).length) op ++
        offsetTrace input iend fuel (input ip).toNat (blockTrace input iend fuel)
          (ip + 1 + (extension n).length + n) (op + n)) := by
    intro fuel enough
    have round := (shape fuel (by omega)).2.2
    rw [literals.half_eq, lengthFrom_eq literals.holds (by omega), elim_some] at round
    exact round
  simp only [safe_append, after_literalTrace _ below,
    safe_literalTrace (show b.source ≤ ip + 1 + (extension n).length by omega) below] at copied
  have inside := literals.inside
  have first := (copied _ (le_refl _)).1
  refine ⟨n, literals, by omega, by omega, ?_⟩
  intro fuel enough
  exact (copied fuel enough).2

/-- What safe accesses say of the match of a round, and of the rounds after it. -/
lemma exists_match {token : Nat} {next : Nat → Nat → Nat → List Access} (start : b.source ≤ ip)
    (below : b.dest ≤ op) (more : ip < iend)
    (safe : ∀ fuel, least ≤ fuel → Safe b (Ico b.dest op)
      (offsetTrace input iend fuel token (next fuel) ip op)) :
    ∃ m, ip + 2 ≤ b.iend ∧ Length input b.iend (ip + 2) (token % 16) m ∧ 0 < input.word ip 2 ∧
      b.dest + input.word ip 2 ≤ op ∧ op + (m + 4) ≤ b.oend ∧
      ∀ fuel, least + (extension m).length ≤ fuel → Safe b (Ico b.dest (op + (m + 4)))
        (next fuel (ip + 2 + (extension m).length) (op + (m + 4))) := by
  simp only [offsetTrace, if_neg (show ¬iend ≤ ip by omega), safe_read, safe_append,
    after_lengthTrace] at safe
  have offset := (safe _ (le_refl _)).2.1
  obtain ⟨m, length⟩ := exists_length (by omega) (by omega) (by omega)
    fun fuel enough => (safe fuel enough).2.2.1
  have copied : ∀ fuel, least + (extension m).length ≤ fuel → Safe b (Ico b.dest op)
      (matchTrace (m + 4) (op - input.word ip 2) op ++
        next fuel (ip + 2 + (extension m).length) (op + (m + 4))) := by
    intro fuel enough
    have round := (safe fuel (by omega)).2.2.2
    rw [length.half_eq, lengthFrom_eq length.holds (by omega), elim_some] at round
    exact round
  simp only [safe_append, after_matchTrace _ _ below, safe_matchTrace below] at copied
  have first := (copied _ (le_refl _)).1
  refine ⟨m, by omega, length, by omega, by omega, by omega, ?_⟩
  intro fuel enough
  exact (copied fuel enough).2

/-- Where the accesses are safe whatever the fuel, the block is sound. -/
lemma exists_sound {ip op least : Nat} (start : b.source ≤ ip) (below : b.dest ≤ op)
    (room : op ≤ b.oend) (limit : iend ≤ b.iend)
    (safe : ∀ fuel, least ≤ fuel → Safe b (Ico b.dest op) (blockTrace input iend fuel ip op)) :
    ∃ final, Sound input b iend ip op final ∧ op ≤ final ∧ final ≤ b.oend := by
  by_cases more : ip < iend
  · obtain ⟨n, literals, inside, fits, later⟩ := exists_literals start below room limit more safe
    by_cases ends : iend ≤ ip + 1 + (extension n).length + n
    · exact ⟨op + n, .last more literals rfl inside fits ends, Nat.le_add_right .., fits⟩
    obtain ⟨m, offset, length, back, reaches, room', later⟩ :=
      exists_match (by omega) (by omega) (by omega) later
    obtain ⟨final, rest, grows, bounded⟩ := exists_sound (by omega) (by omega) room' limit later
    exact ⟨final, .sequence more literals rfl fits (by omega) offset length rfl back reaches room' rest,
      by omega, bounded⟩
  · exact ⟨op, .done (by omega), le_refl _, room⟩
termination_by iend - ip
decreasing_by omega

/-! ## Frames -/

/-- What a loop over blocks finds at `ip`. -/
inductive Found where
  /-- the loop ends here -/
  | nothing
  | stored (size : Nat)
  | compressed (size : Nat)

def found (input : Bytes) (b : Buffers) (stored : Bool) (ip op : Nat) : Found :=
  let blockSize := input.word ip 4
  if b.iend < ip + 4 ∨ blockSize = 0 then .nothing else
  if stored ∧ blockSize.testBit 31 then
    let realSize := blockSize % 2 ^ 31
    if b.iend < ip + 4 + realSize ∨ b.oend < op + realSize then .nothing else .stored realSize
  else
    if b.iend < ip + 4 + blockSize then .nothing else .compressed blockSize

/-- Every compressed block the loop comes to is sound. -/
inductive SoundBlocks (input : Bytes) (b : Buffers) (stored : Bool) (checksum : Nat) :
    Nat → Nat → Prop where
  | nothing {ip op : Nat} (here : found input b stored ip op = .nothing) :
      SoundBlocks input b stored checksum ip op
  | stored {ip op size : Nat} (here : found input b stored ip op = .stored size)
      (rest : SoundBlocks input b stored checksum (ip + 4 + size + checksum) (op + size)) :
      SoundBlocks input b stored checksum ip op
  | compressed {ip op size final : Nat} (here : found input b stored ip op = .compressed size)
      (sound : Sound input b (ip + 4 + size) (ip + 4) op final)
      (rest : SoundBlocks input b stored checksum (ip + 4 + size + checksum) final) :
      SoundBlocks input b stored checksum ip op

/-- Every compressed block of the frame that the decoder comes to is sound. -/
def SoundFrame (input : Bytes) (b : Buffers) : Prop :=
  let magic := input.word b.source 4
  7 ≤ b.inputSize →
    (magic = 0x184C2102 → SoundBlocks input b false 0 (b.source + 4) b.dest) ∧
    (magic = 0x184D2204 → SoundBlocks input b true (if input (b.source + 4) &&& 16 ≠ 0 then 4 else 0)
      (blocksFrom input b.source) b.dest)

variable {stored : Bool} {checksum size : Nat}

lemma safe_sizeReads (start : b.source ≤ ip) (inside : ip + 4 ≤ b.iend) :
    Safe b done (sizeReads ip ++ rest) ↔ Safe b done rest := by
  simp only [sizeReads, cons_append, nil_append, safe_read]
  constructor
  · intro safe
    exact safe.2.2.2.2
  · intro safe
    exact ⟨by omega, by omega, by omega, by omega, safe⟩

/-- What a round of the loop touches, by what it finds. -/
def roundTrace (input : Bytes) (b : Buffers) (stored : Bool) (checksum fuel ip op : Nat)
    (output : Bytes) : Found → List Access
  | .nothing => []
  | .stored size =>
    literalTrace size (ip + 4) op ++
      blocksTrace input b.iend b.oend stored checksum fuel (ip + 4 + size + checksum) (op + size)
        (copyLiterals input size (ip + 4) op output)
  | .compressed size =>
    blockTrace input (ip + 4 + size) fuel (ip + 4) op ++
      (lz4DecompressBlock fuel input (ip + 4) output op size).elim [] fun block =>
        if b.oend < block.1 then [] else
        blocksTrace input b.iend b.oend stored checksum fuel (ip + 4 + size + checksum) block.1 block.2

lemma safe_blocksTrace (start : b.source ≤ ip) :
    Safe b done (blocksTrace input b.iend b.oend stored checksum (fuel + 1) ip op output) ↔
      Safe b done (roundTrace input b stored checksum fuel ip op output (found input b stored ip op)) := by
  rw [blocksTrace, found]
  by_cases short : b.iend < ip + 4
  · simp [short, roundTrace]
  rw [if_pos (by omega), if_neg short]
  dsimp only
  rw [safe_sizeReads start (by omega)]
  by_cases zero : input.word ip 4 = 0
  · simp [zero, roundTrace]
  rw [if_neg zero, if_neg (not_or.mpr ⟨short, zero⟩)]
  by_cases flag : stored ∧ (input.word ip 4).testBit 31
  · rw [if_pos flag, if_pos flag]
    split
    · rfl
    · rfl
  rw [if_neg flag, if_neg flag]
  split
  · rfl
  · rfl

lemma found_stored (here : found input b stored ip op = .stored size) :
    ip + 4 + size ≤ b.iend ∧ op + size ≤ b.oend := by
  unfold found at here
  grind

lemma found_compressed (here : found input b stored ip op = .compressed size) : ip + 4 + size ≤ b.iend := by
  unfold found at here
  grind

lemma SoundBlocks.safe (sound : SoundBlocks input b stored checksum ip op) (start : b.source ≤ ip)
    (below : b.dest ≤ op) (fuel : Nat) (output : Bytes) :
    Safe b (Ico b.dest op) (blocksTrace input b.iend b.oend stored checksum fuel ip op output) := by
  induction sound generalizing fuel output with
    (rcases fuel with _ | fuel; · trivial)
  | nothing here =>
    rw [safe_blocksTrace start, here]
    trivial
  | stored here rest ih =>
    obtain ⟨inside, fits⟩ := found_stored here
    rw [safe_blocksTrace start, here, roundTrace, safe_append, after_literalTrace _ below,
      safe_literalTrace (by omega) below]
    exact ⟨.inr ⟨inside, fits⟩, ih (by omega) (by omega) fuel _⟩
  | compressed here block rest ih =>
    have inside := found_compressed here
    rw [safe_blocksTrace start, here, roundTrace, safe_append]
    refine ⟨block.safe (by omega) below inside fuel, ?_⟩
    unfold lz4DecompressBlock
    obtain ⟨least, returns⟩ := block.returns
    obtain ⟨-, none⟩ | ⟨output', some⟩ := returns fuel output
    · rw [none]
      trivial
    obtain ⟨filled, grows⟩ := after_blockTrace below some
    rw [some, filled, elim_some]
    split
    · trivial
    · exact ih (by omega) (by omega) fuel output'

/-- Where the accesses are safe whatever the fuel, the blocks are sound. -/
lemma sound_of_safe {ip op least : Nat} (start : b.source ≤ ip) (below : b.dest ≤ op)
    (room : op ≤ b.oend)
    (safe : ∀ fuel, least ≤ fuel → ∃ output, Safe b (Set.Ico b.dest op)
      (blocksTrace input b.iend b.oend stored checksum fuel ip op output)) :
    SoundBlocks input b stored checksum ip op := by
  have shape : ∀ fuel, least ≤ fuel → ∃ output, Safe b (Set.Ico b.dest op)
      (roundTrace input b stored checksum fuel ip op output (found input b stored ip op)) := by
    intro fuel enough
    obtain ⟨output, round⟩ := safe (fuel + 1) (by omega)
    exact ⟨output, (safe_blocksTrace start).mp round⟩
  cases here : found input b stored ip op with
  | nothing => exact .nothing here
  | stored size =>
    obtain ⟨inside, fits⟩ := found_stored here
    have later : ∀ fuel, least ≤ fuel → ∃ output, Safe b (Set.Ico b.dest (op + size))
        (blocksTrace input b.iend b.oend stored checksum fuel (ip + 4 + size + checksum) (op + size)
          output) := by
      intro fuel enough
      obtain ⟨output, round⟩ := shape fuel enough
      rw [here, roundTrace, safe_append, after_literalTrace _ below] at round
      exact ⟨_, round.2⟩
    exact .stored here (sound_of_safe (by omega) (by omega) fits later)
  | compressed size =>
    have inside := found_compressed here
    have block : ∀ fuel, least ≤ fuel → Safe b (Set.Ico b.dest op)
        (blockTrace input (ip + 4 + size) fuel (ip + 4) op) := by
      intro fuel enough
      obtain ⟨output, round⟩ := shape fuel enough
      rw [here, roundTrace, safe_append] at round
      exact round.1
    obtain ⟨final, sound, grows, bounded⟩ := exists_sound (by omega) below room inside block
    obtain ⟨least', returns⟩ := sound.returns
    have later : ∀ fuel, least + least' ≤ fuel → ∃ output, Safe b (Set.Ico b.dest final)
        (blocksTrace input b.iend b.oend stored checksum fuel (ip + 4 + size + checksum) final output) := by
      intro fuel enough
      obtain ⟨output, round⟩ := shape fuel (by omega)
      obtain ⟨output', some⟩ := (returns fuel output).resolve_left (by omega)
      rw [here, roundTrace, safe_append, lz4DecompressBlock, some, (after_blockTrace below some).1,
        elim_some, if_neg (by omega)] at round
      exact ⟨output', round.2⟩
    exact .compressed here sound (sound_of_safe (by omega) (by omega) bounded later)
termination_by b.iend - ip
decreasing_by all_goals omega

lemma safe_blocks_iff (start : b.source ≤ ip) :
    (∀ fuel, Safe b ∅ (blocksTrace input b.iend b.oend stored checksum fuel ip b.dest output)) ↔
      SoundBlocks input b stored checksum ip b.dest := by
  rw [← Ico_self b.dest]
  constructor
  · intro safe
    have room : b.dest ≤ b.oend := Nat.le_add_right ..
    exact sound_of_safe start (le_refl _) room fun fuel (_ : 0 ≤ fuel) => ⟨output, safe fuel⟩
  · intro sound fuel
    exact sound.safe start (le_refl _) fuel output

lemma le_blocksFrom (input : Bytes) (source : Nat) : source ≤ blocksFrom input source := by
  unfold blocksFrom
  grind

/-- The decoder reads the input only, writes the output only, and takes matches from what it has
    written, for exactly the inputs whose compressed blocks are sound. -/
theorem unframe_safe_iff (input : Bytes) (b : Buffers) (output : Bytes) :
    (∀ fuel, Safe b ∅ (unframeTrace fuel input b output)) ↔ SoundFrame input b := by
  unfold unframeTrace SoundFrame
  by_cases short : b.inputSize < 7
  · simp [short]
  have inside : b.source + 7 ≤ b.iend := by
    rw [Buffers.iend]
    omega
  simp only [if_neg short, not_lt.mp short, forall_const,
    safe_sizeReads (le_refl b.source) (show b.source + 4 ≤ b.iend by omega)]
  by_cases legacy : input.word b.source 4 = 0x184C2102
  · simp only [if_pos legacy, legacyTrace, safe_blocks_iff (le_add_right b.source 4)]
    constructor
    · intro sound
      exact ⟨fun _ => sound, fun standard => by omega⟩
    · intro sound
      exact sound.1 legacy
  by_cases standard : input.word b.source 4 = 0x184D2204
  · have header : (b.source ≤ b.source + 4 ∧ b.source + 4 < b.iend) ∧
        b.source ≤ b.source + 5 ∧ b.source + 5 < b.iend := by omega
    simp only [if_neg legacy, if_neg (not_not.mpr standard), frameTrace, safe_read, header, true_and,
      safe_blocks_iff (le_blocksFrom ..)]
    constructor
    · intro sound
      exact ⟨fun old => absurd old legacy, fun _ => sound⟩
    · intro sound
      exact sound.2 standard
  · simp only [if_neg legacy, if_pos standard]
    exact ⟨fun _ => ⟨fun old => absurd old legacy, fun new => absurd new standard⟩, fun _ _ => trivial⟩

/-- A block with five literals, for four bytes of output. -/
def overflowing : Bytes := fun i =>
  [2, 0x21, 0x4C, 0x18, 6, 0, 0, 0, 0x50, 1, 2, 3, 4, 5].getD i 0

theorem overflowing_unsafe :
    ¬Safe ⟨0, 100, 14, 4⟩ ∅ (unframeTrace 3 overflowing ⟨0, 100, 14, 4⟩ fun _ => 0) := by
  intro safe
  have outside : Access.write 104 ∈ unframeTrace 3 overflowing ⟨0, 100, 14, 4⟩ fun _ => 0 := by
    decide +kernel
  exact absurd (safe.write outside).2 (by decide)

end Znu.Lz4
