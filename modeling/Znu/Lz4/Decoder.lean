import Znu.Lz4.Format

/-! # The LZ4 decoder

`lz4_unframe` decodes the compressed initial archive. It reads one buffer and writes another,
and the two do not overlap. For every frame it writes the data the frame is for.
-/

namespace Znu.Lz4

open Lib Option List Standard Nat UInt8 Prod Lz4

/-! ## The functions -/

/-- `do { s = *ip++; len += s; } while (s == 255)`: where `ip` is afterwards, and the length. -/
def readLength (input : Bytes) : Nat → Nat → Nat → Option (Nat × Nat)
  | 0, _, _ => none
  | fuel + 1, ip, len =>
    let s := input ip
    if s = 255 then readLength input fuel (ip + 1) (len + s.toNat)
    else some (ip + 1, len + s.toNat)

def lengthFrom (input : Bytes) (fuel ip len : Nat) : Option (Nat × Nat) :=
  if len = 15 then readLength input fuel ip len else some (ip, len)

/-- `*op++ = *ip++` -/
def copyLiterals (input : Bytes) : Nat → Nat → Nat → Bytes → Bytes
  | 0, _, _, output => output
  | n + 1, ip, op, output =>
    copyLiterals input n (ip + 1) (op + 1) (Function.update output op (input ip))

/-- `*op++ = *ref++` -/
def copyMatch : Nat → Nat → Nat → Bytes → Bytes
  | 0, _, _, output => output
  | n + 1, ref, op, output => copyMatch n (ref + 1) (op + 1) (Function.update output op (output ref))

def blockLoop (input : Bytes) (iend : Nat) : Nat → Nat → Nat → Bytes → Option (Nat × Bytes)
  | 0, _, _, _ => none
  | fuel + 1, ip, op, output =>
    if ip < iend then do
      let token := (input ip).toNat
      let lit ← lengthFrom input fuel (ip + 1) (token / 16)
      let output := copyLiterals input lit.2 lit.1 op output
      let ip := lit.1 + lit.2
      let op := op + lit.2
      if iend ≤ ip then some (op, output) else
      let offset := input.word ip 2
      let mat ← lengthFrom input fuel (ip + 2) (token % 16)
      let matLen := mat.2 + 4
      blockLoop input iend fuel mat.1 (op + matLen) (copyMatch matLen (op - offset) op output)
    else some (op, output)

/-- The end of what has been written, and the buffer. -/
def lz4DecompressBlock (fuel : Nat) (input : Bytes) (source : Nat) (output : Bytes) (dest isize : Nat) :
    Option (Nat × Bytes) :=
  blockLoop input (source + isize) fuel source dest output

/-- `(int)(op - dest)` -/
def written (dest op : Nat) : Int := (BitVec.ofNat 32 (op - dest)).toInt

def legacyLoop (input : Bytes) (iend dest oend : Nat) : Nat → Nat → Nat → Bytes → Option (Int × Bytes)
  | 0, _, _, _ => none
  | fuel + 1, ip, op, output =>
    if ip < iend then
      if iend < ip + 4 then some (written dest op, output) else
      let blockSize := input.word ip 4
      let ip := ip + 4
      if blockSize = 0 then some (written dest op, output) else
      if iend < ip + blockSize then some (-3, output) else do
      let block ← lz4DecompressBlock fuel input ip output op blockSize
      if oend < block.1 then some (-4, block.2) else
      legacyLoop input iend dest oend fuel (ip + blockSize) block.1 block.2
    else some (written dest op, output)

def frameLoop (input : Bytes) (iend dest oend : Nat) (flg : UInt8) :
    Nat → Nat → Nat → Bytes → Option (Int × Bytes)
  | 0, _, _, _ => none
  | fuel + 1, ip, op, output =>
    if ip < iend then
      if iend < ip + 4 then some (written dest op, output) else
      let blockSize := input.word ip 4
      let ip := ip + 4
      let checksum := if flg &&& 16 ≠ 0 then 4 else 0
      if blockSize = 0 then some (written dest op, output) else
      if blockSize.testBit 31 then
        let realSize := blockSize % 2 ^ 31
        if iend < ip + realSize ∨ oend < op + realSize then some (-2, output) else
        frameLoop input iend dest oend flg fuel (ip + realSize + checksum) (op + realSize)
          (copyLiterals input realSize ip op output)
      else
        if iend < ip + blockSize then some (-3, output) else do
        let block ← lz4DecompressBlock fuel input ip output op blockSize
        if oend < block.1 then some (-4, block.2) else
        frameLoop input iend dest oend flg fuel (ip + blockSize + checksum) block.1 block.2
    else some (written dest op, output)

/-- The result, and the buffer. -/
def lz4Unframe (fuel : Nat) (input : Bytes) (source : Nat) (output : Bytes)
    (dest inputSize maxOutput : Nat) : Option (Int × Bytes) :=
  let iend := source + inputSize
  let oend := dest + maxOutput
  if inputSize < 7 then some (-1, output) else
  let magic := input.word source 4
  if magic = 0x184C2102 then legacyLoop input iend dest oend fuel (source + 4) dest output else
  if magic ≠ 0x184D2204 then some (-1, output) else
  let flg := input (source + 4)
  let ip := source + 6
  let ip := if flg &&& 8 ≠ 0 then ip + 8 else ip
  let ip := if flg &&& 1 ≠ 0 then ip + 4 else ip
  frameLoop input iend dest oend flg fuel (ip + 1) dest output

/-! ## Lengths -/

variable {input before output : Bytes} {ip dest fuel : Nat}

variable {f : Standard} {flg r : UInt8} {k : Nat}

lemma readLength_eq {len : Nat} (ends : r ≠ 255)
    (holds : Holds input ip (replicate k 255 ++ [r])) (enough : k < fuel) :
    readLength input fuel ip len = some (ip + (k + 1), len + 255 * k + r.toNat) := by
  induction k generalizing ip len fuel with
    obtain ⟨fuel, rfl⟩ : ∃ n, fuel = n + 1 := ⟨fuel - 1, by omega⟩
  | zero =>
    obtain ⟨here, -⟩ := holds
    rw [readLength, here, if_neg ends]
    rfl
  | succ k ih =>
    obtain ⟨here, rest⟩ := holds
    rw [readLength, here, if_pos rfl, ih rest (by omega)]
    have full : (255 : UInt8).toNat = 255 := rfl
    congr 2
    · omega
    · omega

variable {n : Nat} {out literals rest : List UInt8} {b : Block}

lemma lengthFrom_eq (holds : Holds input ip (extension n)) (enough : (extension n).length ≤ fuel) :
    lengthFrom input fuel ip (nibble n) = some (ip + (extension n).length, n) := by
  unfold lengthFrom nibble
  by_cases short : n < 15
  · have none : extension n = [] := if_pos short
    have small : min n 15 = n := by omega
    rw [small, if_neg (by omega), none]
    rfl
  have bytes : extension n = replicate ((n - 15) / 255) 255 ++ [ofNat ((n - 15) % 255)] :=
    if_neg short
  have value : (ofNat ((n - 15) % 255)).toNat = (n - 15) % 255 := by
    rw [toNat_ofNat']
    omega
  have ends : ofNat ((n - 15) % 255) ≠ 255 := by
    intro same
    rw [same] at value
    have full : (255 : UInt8).toNat = 255 := rfl
    omega
  rw [bytes] at holds enough ⊢
  rw [length_append, length_replicate, length_singleton] at enough ⊢
  have large : min n 15 = 15 := by omega
  rw [large, if_pos rfl, readLength_eq ends holds (by omega), value]
  congr 2
  omega

/-! ## Copies -/

lemma copyLiterals_written (holds : Holds input ip literals)
    (writes : Written before output dest out) :
    Written before (copyLiterals input literals.length ip (dest + out.length) output) dest
      (out ++ literals) := by
  induction literals generalizing ip output out with
  | nil =>
    rw [append_nil]
    exact writes
  | cons b literals ih =>
    obtain ⟨here, rest⟩ := holds
    have later := ih rest (writes.concat b)
    rw [length_append, length_singleton, append_assoc, singleton_append] at later
    rw [length_cons, copyLiterals, here]
    exact later

lemma copyMatch_written {offset : Nat} (positive : 0 < offset) (reaches : offset ≤ out.length)
    (writes : Written before output dest out) (n : Nat) :
    Written before (copyMatch n (dest + out.length - offset) (dest + out.length) output) dest
      (repeated offset n out) := by
  induction n generalizing output out with
  | zero => exact writes
  | succ n ih =>
    have place : dest + out.length - offset = dest + (out.length - offset) := by omega
    have byte : output (dest + out.length - offset) = out.getD (out.length - offset) 0 := by
      rw [place]
      exact writes.holds.get (by omega)
    have later := ih (by rw [length_append]; omega) (writes.concat (out.getD (out.length - offset) 0))
    rw [length_append, length_singleton] at later
    have next : dest + out.length - offset + 1 = dest + (out.length + 1) - offset := by omega
    rw [copyMatch, byte, next, repeated]
    exact later

@[simp] lemma length_repeated (offset n : Nat) (out : List UInt8) :
    (repeated offset n out).length = out.length + n := by
  induction n generalizing out with
  | zero => rfl
  | succ n ih =>
    rw [repeated, ih, length_append, length_singleton]
    omega

/-! ## Blocks -/

lemma token_eq {high low : Nat} (high_lt : high < 16) (low_lt : low < 16) :
    (ofNat (high * 16 + low)).toNat / 16 = high ∧ (ofNat (high * 16 + low)).toNat % 16 = low := by
  rw [toNat_ofNat']
  omega

lemma nibble_lt (n : Nat) : nibble n < 16 := by
  rw [nibble]
  omega

lemma blockLoop_sequence {s : Sequence} {iend : Nat} (holds : Holds input ip s.bytes)
    (inside : ip + s.bytes.length < iend) (reaches : s.offset ≤ (out ++ s.literals).length)
    (writes : Written before output dest out) (enough : s.bytes.length ≤ fuel + 1) :
    ∃ output', blockLoop input iend (fuel + 1) ip (dest + out.length) output =
        blockLoop input iend fuel (ip + s.bytes.length) (dest + (s.append out).length) output' ∧
      Written before output' dest (s.append out) := by
  have size : s.bytes.length = 1 + ((extension s.literals.length).length +
      (s.literals.length + (2 + (extension (s.length - 4)).length))) := by
    simp only [Sequence.bytes, length_cons, length_append, length_littleEndian]
    omega
  obtain ⟨token, rest⟩ := holds
  obtain ⟨first, rest⟩ := holds_append.mp rest
  obtain ⟨literals, rest⟩ := holds_append.mp rest
  obtain ⟨offset, last⟩ := holds_append.mp rest
  rw [length_littleEndian] at last
  obtain ⟨high, low⟩ := token_eq (nibble_lt s.literals.length) (nibble_lt (s.length - 4))
  have more : ¬ iend ≤ ip + 1 + (extension s.literals.length).length + s.literals.length := by omega
  have copied := copyLiterals_written literals writes
  have matched := copyMatch_written s.offset_pos reaches copied s.length
  have whole : s.length - 4 + 4 = s.length := Nat.sub_add_cancel s.length_ge
  have op : dest + out.length + s.literals.length = dest + (out ++ s.literals).length := by
    rw [length_append, add_assoc]
  have ends : dest + (out ++ s.literals).length + s.length = dest + (s.append out).length := by
    rw [Sequence.append, length_repeated, add_assoc]
  have next : ip + 1 + (extension s.literals.length).length + s.literals.length + 2 +
      (extension (s.length - 4)).length = ip + s.bytes.length := by omega
  refine ⟨_, ?_, matched⟩
  rw [blockLoop, if_pos (by omega), token]
  dsimp only
  rw [high, lengthFrom_eq first (by omega), bind_eq_bind, bind_some]
  rw [if_neg more, low, word_of_holds offset s.offset_lt, lengthFrom_eq last (by omega), bind_some]
  rw [whole, op, ends, next]

/-- The last round, with literals only. -/
lemma blockLoop_last (holds : Holds input ip b.lastBytes)
    (writes : Written before output dest out) (enough : b.lastBytes.length ≤ fuel + 1) :
    ∃ output', blockLoop input (ip + b.lastBytes.length) (fuel + 1) ip (dest + out.length) output =
        some (dest + (out ++ b.last).length, output') ∧ Written before output' dest (out ++ b.last) := by
  have size : b.lastBytes.length = 1 + ((extension b.last.length).length + b.last.length) := by
    simp only [Block.lastBytes, length_cons, length_append]
    omega
  obtain ⟨token, rest⟩ := holds
  obtain ⟨first, literals⟩ := holds_append.mp rest
  obtain ⟨high, -⟩ := token_eq (nibble_lt b.last.length) b.unused_lt
  have done : ip + b.lastBytes.length ≤ ip + 1 + (extension b.last.length).length + b.last.length := by
    omega
  refine ⟨_, ?_, copyLiterals_written literals writes⟩
  rw [blockLoop, if_pos (by omega), token]
  dsimp only
  rw [high, lengthFrom_eq first (by omega), bind_eq_bind, bind_some]
  rw [if_pos done, length_append, add_assoc]

lemma blockLoop_block {sequences : List Sequence}
    (holds : Holds input ip (sequences.flatMap Sequence.bytes ++ b.lastBytes))
    (reaching : Reaching out sequences) (writes : Written before output dest out)
    (enough : (sequences.flatMap Sequence.bytes ++ b.lastBytes).length ≤ fuel) :
    ∃ output', blockLoop input (ip + (sequences.flatMap Sequence.bytes ++ b.lastBytes).length) fuel ip
        (dest + out.length) output =
        some (dest + (sequences.foldl Sequence.append out ++ b.last).length, output') ∧
      Written before output' dest (sequences.foldl Sequence.append out ++ b.last) := by
  have token : 0 < b.lastBytes.length := succ_pos _
  induction sequences generalizing ip out output fuel with
  | nil =>
    rw [flatMap_nil, nil_append] at holds enough ⊢
    obtain ⟨fuel, rfl⟩ : ∃ n, fuel = n + 1 := ⟨fuel - 1, by omega⟩
    exact blockLoop_last holds writes enough
  | cons s sequences ih =>
    rw [flatMap_cons, append_assoc] at holds enough ⊢
    obtain ⟨first, rest⟩ := holds_append.mp holds
    obtain ⟨reaches, later⟩ := reaching
    rw [length_append] at enough ⊢
    have token' : 0 < s.bytes.length := succ_pos _
    have inside : ip + s.bytes.length <
        ip + (s.bytes.length + (sequences.flatMap Sequence.bytes ++ b.lastBytes).length) := by
      rw [length_append]
      omega
    obtain ⟨fuel, rfl⟩ : ∃ n, fuel = n + 1 := ⟨fuel - 1, by omega⟩
    have room : s.bytes.length ≤ fuel + 1 := by omega
    obtain ⟨output₁, round, writes₁⟩ := blockLoop_sequence first inside reaches writes room
    have left : (sequences.flatMap Sequence.bytes ++ b.lastBytes).length ≤ fuel := by omega
    obtain ⟨output', loop, writes'⟩ := ih rest later writes₁ left
    refine ⟨output', ?_, writes'⟩
    rw [round, ← add_assoc, loop, foldl_cons]

lemma decompress_block (holds : Holds input ip b.bytes) (reaching : Reaching out b.sequences)
    (writes : Written before output dest out) (enough : b.bytes.length ≤ fuel) :
    ∃ output', lz4DecompressBlock fuel input ip output (dest + out.length) b.bytes.length =
        some (dest + (b.append out).length, output') ∧ Written before output' dest (b.append out) :=
  blockLoop_block holds reaching writes enough

/-! ## Frames -/

lemma length_le_foldl {α : Type} {append : List UInt8 → α → List UInt8}
    (grows : ∀ out b, out.length ≤ (append out b).length) (out : List UInt8) (bs : List α) :
    out.length ≤ (bs.foldl append out).length := by
  induction bs generalizing out with
  | nil => exact le_refl _
  | cons b bs ih => exact (grows out b).trans (ih _)

lemma Sequence.length_le_append (out : List UInt8) (s : Sequence) : out.length ≤ (s.append out).length := by
  rw [append, length_repeated, length_append]
  omega

lemma Block.length_le_append (out : List UInt8) (b : Block) : out.length ≤ (b.append out).length := by
  have sequences := length_le_foldl Sequence.length_le_append out b.sequences
  rw [append, length_append]
  omega

lemma Body.length_le_append (out : List UInt8) (b : Body) : out.length ≤ (b.append out).length := by
  cases b with
  | stored data =>
    rw [append, length_append]
    exact Nat.le_add_right ..
  | compressed block => exact block.length_le_append out

lemma Block.bytes_pos (b : Block) : 0 < b.bytes.length := by
  rw [bytes, length_append]
  exact Nat.lt_of_lt_of_le (Nat.succ_pos _) (Nat.le_add_left ..)

lemma testBit_add_pow (small : n < 2 ^ k) : (n + 2 ^ k).testBit k = true := by
  rw [add_comm, testBit_two_pow_add_eq, testBit_lt_two_pow small]
  rfl

lemma Body.size_pos (b : Body) : 0 < b.size := by
  cases b with
  | stored data => exact Nat.lt_of_lt_of_le (by decide) (Nat.le_add_left ..)
  | compressed block => exact block.bytes_pos

lemma Body.size_lt {b : Body} (valid : b.Valid out) : b.size < 256 ^ 4 := by
  cases b with
  | stored data =>
    have small : data.length < 2 ^ 31 := valid
    change data.length + 2 ^ 31 < _
    omega
  | compressed block =>
    have small : block.bytes.length < 2 ^ 31 := valid.1
    change block.bytes.length < _
    omega

lemma written_eq (small : n < 2 ^ 31) (dest : Nat) : written dest (dest + n) = n := by
  rw [written, Nat.add_sub_cancel_left, BitVec.toInt_eq_toNat_of_lt, BitVec.toNat_ofNat]
  · omega
  · rw [BitVec.toNat_ofNat]
    omega

variable {iend oend : Nat}

lemma legacyLoop_eq {blocks : List Block} (sizes : ∀ b ∈ blocks, b.bytes.length < 2 ^ 32)
    (holds : Holds input ip (blocks.flatMap Legacy.blockBytes))
    (ends : iend = ip + (blocks.flatMap Legacy.blockBytes).length)
    (valid : Legacy.ValidBlocks out blocks) (writes : Written before output dest out)
    (fits : dest + (blocks.foldl (fun out b => b.append out) out).length ≤ oend)
    (enough : (blocks.flatMap Legacy.blockBytes).length < fuel) :
    ∃ output', legacyLoop input iend dest oend fuel ip (dest + out.length) output =
        some (written dest (dest + (blocks.foldl (fun out b => b.append out) out).length), output') ∧
      Written before output' dest (blocks.foldl (fun out b => b.append out) out) := by
  induction blocks generalizing ip out output fuel with
    obtain ⟨fuel, rfl⟩ : ∃ n, fuel = n + 1 := ⟨fuel - 1, by omega⟩
  | nil =>
    refine ⟨output, ?_, writes⟩
    rw [legacyLoop, if_neg (by rw [ends]; exact lt_irrefl _)]
    rfl
  | cons b blocks ih =>
    rw [flatMap_cons, Legacy.blockBytes, append_assoc] at holds ends enough
    obtain ⟨size, rest⟩ := holds_append.mp holds
    obtain ⟨body, later⟩ := holds_append.mp rest
    rw [length_littleEndian] at rest body later
    rw [length_append, length_append, length_littleEndian] at ends enough
    have token := b.bytes_pos
    have word : input.word ip 4 = b.bytes.length := word_of_holds size (sizes b mem_cons_self)
    obtain ⟨output₁, block, writes₁⟩ := decompress_block body valid.1 writes
      (show b.bytes.length ≤ fuel by omega)
    have below := length_le_foldl Block.length_le_append (b.append out) blocks
    rw [foldl_cons] at fits ⊢
    obtain ⟨output', loop, writes'⟩ := ih (forall_mem_cons.mp sizes).2 later
      (by omega) valid.2 writes₁ fits (show _ < fuel by omega)
    refine ⟨output', ?_, writes'⟩
    rw [legacyLoop, if_pos (by omega), if_neg (by omega), word]
    rw [if_neg (by omega), if_neg (by omega), block, bind_eq_bind, bind_some]
    rw [if_neg (by omega), loop]

lemma frameLoop_block {b : Body × List UInt8}
    (checksum : b.2.length = if flg &&& 16 ≠ 0 then 4 else 0)
    (holds : Holds input ip (blockBytes b)) (valid : b.1.Valid out)
    (inside : ip + (blockBytes b).length ≤ iend) (writes : Written before output dest out)
    (fits : dest + (b.1.append out).length ≤ oend) (enough : (blockBytes b).length ≤ fuel) :
    ∃ output', frameLoop input iend dest oend flg (fuel + 1) ip (dest + out.length) output =
        frameLoop input iend dest oend flg fuel (ip + (blockBytes b).length)
          (dest + (b.1.append out).length) output' ∧
      Written before output' dest (b.1.append out) := by
  obtain ⟨body, sum⟩ := b
  obtain ⟨size, rest⟩ := holds_append.mp holds
  obtain ⟨holdsBody, -⟩ := holds_append.mp rest
  rw [length_littleEndian] at holdsBody
  have long : (blockBytes (body, sum)).length = 4 + (body.bytes.length + sum.length) := by
    rw [blockBytes, length_append, length_append, length_littleEndian]
  have word : input.word ip 4 = body.size := word_of_holds size (Body.size_lt valid)
  have nonzero := body.size_pos
  rw [long] at inside enough ⊢
  rw [frameLoop, if_pos (by omega), if_neg (by omega), word]
  rw [if_neg (by omega), ← checksum]
  cases body with
  | stored data =>
    have small : data.length < 2 ^ 31 := valid
    have length : (data.length + 2 ^ 31) % 2 ^ 31 = data.length := by omega
    have flag : (data.length + 2 ^ 31).testBit 31 = true := testBit_add_pow small
    have fits' : dest + out.length + data.length ≤ oend := by
      rw [Body.append, length_append] at fits
      omega
    have room : ¬(iend < ip + 4 + data.length ∨ oend < dest + out.length + data.length) := by
      rw [Body.bytes] at inside
      omega
    refine ⟨_, ?_, copyLiterals_written holdsBody writes⟩
    rw [Body.size, if_pos flag, length, if_neg room, Body.append, length_append, Body.bytes]
    simp only [add_assoc]
  | compressed block =>
    obtain ⟨small, reaching⟩ := valid
    have flag : ¬block.bytes.length.testBit 31 = true := by
      rw [testBit_lt_two_pow small]
      exact Bool.false_ne_true
    rw [Body.bytes] at inside enough
    rw [Body.append] at fits
    obtain ⟨output', decoded, writes'⟩ := decompress_block holdsBody reaching writes
      (show block.bytes.length ≤ fuel by omega)
    refine ⟨output', ?_, writes'⟩
    rw [Body.size, if_neg flag, if_neg (by omega), decoded, bind_eq_bind, bind_some]
    rw [if_neg (by omega), Body.append, Body.bytes]
    simp only [add_assoc]

lemma frameLoop_eq {blocks : List (Body × List UInt8)}
    (checksums : ∀ b ∈ blocks, b.2.length = if flg &&& 16 ≠ 0 then 4 else 0)
    (holds : Holds input ip (blocks.flatMap blockBytes ++ (littleEndian 4 0 ++ rest)))
    (inside : ip + (blocks.flatMap blockBytes).length + 4 ≤ iend)
    (valid : ValidBodies out (blocks.map fst)) (writes : Written before output dest out)
    (fits : dest + ((blocks.map fst).foldl Body.append out).length ≤ oend)
    (enough : (blocks.flatMap blockBytes).length < fuel) :
    ∃ output', frameLoop input iend dest oend flg fuel ip (dest + out.length) output =
        some (written dest (dest + ((blocks.map fst).foldl Body.append out).length), output') ∧
      Written before output' dest ((blocks.map fst).foldl Body.append out) := by
  induction blocks generalizing ip out output fuel with
    obtain ⟨fuel, rfl⟩ : ∃ n, fuel = n + 1 := ⟨fuel - 1, by omega⟩
  | nil =>
    rw [flatMap_nil, nil_append] at holds
    obtain ⟨mark, -⟩ := holds_append.mp holds
    have zero : input.word ip 4 = 0 := word_of_holds mark (by decide)
    refine ⟨output, ?_, writes⟩
    rw [frameLoop, if_pos (by omega), if_neg (by omega), zero]
    rfl
  | cons b blocks ih =>
    rw [flatMap_cons, append_assoc] at holds
    rw [flatMap_cons, length_append] at inside enough
    obtain ⟨first, later⟩ := holds_append.mp holds
    rw [map_cons] at valid fits ⊢
    rw [foldl_cons] at fits ⊢
    have below := length_le_foldl (fun out b => Body.length_le_append out b) (b.1.append out) (blocks.map fst)
    have size : 4 ≤ (blockBytes b).length := by
      rw [blockBytes, length_append, length_littleEndian]
      omega
    obtain ⟨output₁, round, writes₁⟩ := frameLoop_block (checksums b mem_cons_self) first valid.1
      (show _ ≤ iend by omega) writes (show _ ≤ oend by omega) (show _ ≤ fuel by omega)
    have left : (blocks.flatMap blockBytes).length < fuel := by omega
    obtain ⟨output', loop, writes'⟩ := ih (forall_mem_cons.mp checksums).2
      later (by omega) valid.2 writes₁ fits left
    refine ⟨output', ?_, writes'⟩
    rw [round, loop]

section

variable {source maxOutput : Nat} {d : List UInt8}

lemma unframe_legacy {f : Legacy} (encodes : f.Encodes d) (holds : Holds input source f.bytes)
    (fits : d.length ≤ maxOutput) (small : d.length < 2 ^ 31) (enough : f.bytes.length ≤ fuel) :
    ∃ output', lz4Unframe fuel input source output dest f.bytes.length maxOutput =
        some ((d.length : Int), output') ∧ Written output output' dest d := by
  obtain ⟨valid, rfl⟩ := encodes
  obtain ⟨magic, rest⟩ := holds_append.mp holds
  have size : f.bytes.length = 4 + (f.blocks.flatMap Legacy.blockBytes).length := by
    rw [Legacy.bytes, length_append, length_littleEndian]
  have long : 4 < (f.blocks.flatMap Legacy.blockBytes).length := by
    obtain ⟨b, blocks, is⟩ := exists_cons_of_ne_nil f.nonempty
    have token := b.bytes_pos
    rw [is, flatMap_cons, length_append, Legacy.blockBytes, length_append, length_littleEndian]
    omega
  obtain ⟨output', loop, writes⟩ := legacyLoop_eq f.sizes rest rfl valid (Written.nil output dest)
    (Nat.add_le_add_left fits dest) (show _ < fuel by omega)
  refine ⟨output', ?_, writes⟩
  rw [lz4Unframe, if_neg (by omega), word_of_holds magic (by decide), if_pos rfl, size, ← add_assoc]
  rw [written_eq small] at loop
  exact loop

lemma Standard.header_length (ip : Nat) :
    (if f.flg &&& 1 ≠ 0 then (if f.flg &&& 8 ≠ 0 then ip + 8 else ip) + 4
      else if f.flg &&& 8 ≠ 0 then ip + 8 else ip) =
      ip + f.contentSize.length + f.dictionaryId.length := by
  rw [f.content_size, f.dictionary_id]
  split <;> split <;> rfl

lemma unframe_standard (encodes : f.Encodes d) (holds : Holds input source f.bytes)
    (fits : d.length ≤ maxOutput) (small : d.length < 2 ^ 31) (enough : f.bytes.length ≤ fuel) :
    ∃ output', lz4Unframe fuel input source output dest f.bytes.length maxOutput =
        some ((d.length : Int), output') ∧ Written output output' dest d := by
  obtain ⟨valid, rfl⟩ := encodes
  obtain ⟨magic, flg, -, header⟩ := holds_append.mp holds
  obtain ⟨-, header⟩ := holds_append.mp header
  obtain ⟨-, -, blocks⟩ := holds_append.mp header
  rw [length_littleEndian] at flg blocks
  have size : f.bytes.length = 4 + (2 + (f.contentSize.length + (f.dictionaryId.length + (1 +
      ((f.blocks.flatMap blockBytes).length + (4 + f.contentChecksum.length)))))) := by
    simp only [bytes, length_append, length_cons, length_littleEndian]
    omega
  obtain ⟨output', loop, writes⟩ := frameLoop_eq f.block_checksums blocks
    (show _ ≤ source + f.bytes.length by omega) valid (Written.nil output dest)
    (Nat.add_le_add_left fits dest) (show _ < fuel by omega)
  refine ⟨output', ?_, writes⟩
  rw [lz4Unframe, if_neg (by omega), word_of_holds magic (by decide), if_neg (by decide),
    if_neg (by decide), flg]
  dsimp only
  rw [header_length]
  rw [written_eq small] at loop
  exact loop

/-- For every frame and the data it is for, with enough room for them, the decoder returns their
    length, and they are in the buffer. -/
theorem unframe_decodes {f : Frame} (encodes : f.Encodes d) (holds : Holds input source f.bytes)
    (fits : d.length ≤ maxOutput) (small : d.length < 2 ^ 31) (enough : f.bytes.length ≤ fuel)
    (output : Bytes) (dest : Nat) :
    ∃ output', lz4Unframe fuel input source output dest f.bytes.length maxOutput =
        some ((d.length : Int), output') ∧ Written output output' dest d := by
  cases f with
  | standard f => exact unframe_standard encodes holds fits small enough
  | legacy f => exact unframe_legacy encodes holds fits small enough

/-- A stored block, and one whose match begins in it and runs into itself. -/
def linkedFrame : Standard where
  flg := 0x40
  bd := 0x40
  contentSize := []
  dictionaryId := []
  headerChecksum := 0
  blocks := [(.stored [97], []), (.compressed {
    sequences := [{
      literals := [], offset := 1, length := 4
      offset_pos := by decide, offset_lt := by decide, length_ge := by decide }]
    last := [98], unused := 0, unused_lt := by decide }, [])]
  contentChecksum := []
  content_size := rfl
  dictionary_id := rfl
  block_checksums := by decide
  content_checksum := rfl

theorem linked_frame_decodes :
    ∃ output', lz4Unframe 25 (fun a => linkedFrame.bytes.getD a 0) 0 (fun _ => 0) 64 25 6 =
        some (6, output') ∧ Written (fun _ => 0) output' 64 [97, 97, 97, 97, 97, 98] :=
  unframe_decodes (f := .standard linkedFrame)
    ⟨⟨(by decide : 1 < 2 ^ 31), ⟨by decide, by decide, trivial⟩, trivial⟩, rfl⟩ (by decide) (by decide)
    (by decide) (by decide) _ _

end

end Znu.Lz4
