import Znu.Lib.Layout

/-! # The LZ4 format

A block is a list of sequences: literals, and a match that repeats bytes from a place before,
which may run into what it has itself produced. The last sequence has literals only. A frame is
a header and blocks, which are compressed or stored. What the decoder does not read (checksums,
the content size, the dictionary's id, the version) can be anything here.
-/

namespace Znu.Lz4

open Lib UInt8

/-! ## Blocks -/

/-- The half of a token that holds a length, and the bytes that continue it. -/
def nibble (n : Nat) : Nat := min n 15

def extension (n : Nat) : List UInt8 :=
  if n < 15 then [] else List.replicate ((n - 15) / 255) 255 ++ [UInt8.ofNat ((n - 15) % 255)]

structure Sequence where
  literals : List UInt8
  offset : Nat
  /-- the length of the match -/
  length : Nat
  offset_pos : 0 < offset
  offset_lt : offset < 2 ^ 16
  length_ge : 4 ≤ length

namespace Sequence

variable (s : Sequence)

def bytes : List UInt8 :=
  UInt8.ofNat (nibble s.literals.length * 16 + nibble (s.length - 4)) ::
    (extension s.literals.length ++
      (s.literals ++ (littleEndian 2 s.offset ++ extension (s.length - 4))))

end Sequence

/-- The bytes from `offset` before the end, one after the other. -/
def repeated (offset : Nat) : Nat → List UInt8 → List UInt8
  | 0, out => out
  | n + 1, out => repeated offset n (out ++ [out.getD (out.length - offset) 0])

def Sequence.append (out : List UInt8) (s : Sequence) : List UInt8 :=
  repeated s.offset s.length (out ++ s.literals)

structure Block where
  sequences : List Sequence
  /-- the literals of the last sequence -/
  last : List UInt8
  /-- the half of the last token that is not used -/
  unused : Nat
  unused_lt : unused < 16

namespace Block

variable (b : Block)

def lastBytes : List UInt8 :=
  UInt8.ofNat (nibble b.last.length * 16 + b.unused) :: (extension b.last.length ++ b.last)

def bytes : List UInt8 := b.sequences.flatMap Sequence.bytes ++ b.lastBytes

def append (out : List UInt8) : List UInt8 := b.sequences.foldl Sequence.append out ++ b.last

end Block

/-- No match begins before what has been produced. Matches in a linked block may begin in the
    blocks before it. -/
def Reaching : List UInt8 → List Sequence → Prop
  | _, [] => True
  | out, s :: rest => s.offset ≤ (out ++ s.literals).length ∧ Reaching (s.append out) rest

/-! ## Frames -/

inductive Body where
  | stored (data : List UInt8)
  | compressed (block : Block)

namespace Body

def bytes : Body → List UInt8
  | .stored data => data
  | .compressed block => block.bytes

def size : Body → Nat
  | .stored data => data.length + 2 ^ 31
  | .compressed block => block.bytes.length

def append (out : List UInt8) : Body → List UInt8
  | .stored data => out ++ data
  | .compressed block => block.append out

def Valid (out : List UInt8) : Body → Prop
  | .stored data => data.length < 2 ^ 31
  | .compressed block => block.bytes.length < 2 ^ 31 ∧ Reaching out block.sequences

end Body

/-- Blocks that can be decoded one after the other. -/
def ValidBodies : List UInt8 → List Body → Prop
  | _, [] => True
  | out, b :: rest => b.Valid out ∧ ValidBodies (b.append out) rest

/-- A frame with its header and its end mark. -/
structure Standard where
  flg : UInt8
  bd : UInt8
  contentSize : List UInt8
  dictionaryId : List UInt8
  headerChecksum : UInt8
  /-- the blocks, each with its checksum -/
  blocks : List (Body × List UInt8)
  contentChecksum : List UInt8
  content_size : contentSize.length = if flg &&& 8 ≠ 0 then 8 else 0
  dictionary_id : dictionaryId.length = if flg &&& 1 ≠ 0 then 4 else 0
  block_checksums : ∀ b ∈ blocks, b.2.length = if flg &&& 16 ≠ 0 then 4 else 0
  content_checksum : contentChecksum.length = if flg &&& 4 ≠ 0 then 4 else 0

namespace Standard

def blockBytes (b : Body × List UInt8) : List UInt8 :=
  littleEndian 4 b.1.size ++ (b.1.bytes ++ b.2)

variable (f : Standard)

def bytes : List UInt8 :=
  littleEndian 4 0x184D2204 ++ (f.flg :: f.bd :: (f.contentSize ++ (f.dictionaryId ++
    f.headerChecksum :: (f.blocks.flatMap blockBytes ++ (littleEndian 4 0 ++ f.contentChecksum)))))

/-- The frame is for these data. -/
structure Encodes (d : List UInt8) : Prop where
  valid : ValidBodies [] (f.blocks.map Prod.fst)
  data : (f.blocks.map Prod.fst).foldl Body.append [] = d

end Standard

/-- The older frame: blocks up to the end of the input, all of them compressed. -/
structure Legacy where
  blocks : List Block
  nonempty : blocks ≠ []
  sizes : ∀ b ∈ blocks, b.bytes.length < 2 ^ 32

namespace Legacy

def blockBytes (b : Block) : List UInt8 := littleEndian 4 b.bytes.length ++ b.bytes

variable (f : Legacy)

def bytes : List UInt8 := littleEndian 4 0x184C2102 ++ f.blocks.flatMap blockBytes

/-- Blocks that can be decoded one after the other. -/
def ValidBlocks : List UInt8 → List Block → Prop
  | _, [] => True
  | out, b :: rest => Reaching out b.sequences ∧ ValidBlocks (b.append out) rest

structure Encodes (d : List UInt8) : Prop where
  valid : ValidBlocks [] f.blocks
  data : f.blocks.foldl (fun out b => b.append out) [] = d

end Legacy

inductive Frame where
  | standard (f : Standard)
  | legacy (f : Legacy)

namespace Frame

def bytes : Frame → List UInt8
  | .standard f => f.bytes
  | .legacy f => f.bytes

def Encodes (d : List UInt8) : Frame → Prop
  | .standard f => f.Encodes d
  | .legacy f => f.Encodes d

end Frame

end Znu.Lz4
