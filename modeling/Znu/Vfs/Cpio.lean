import Znu.Vfs.Register
import Znu.Vfs.Paths
import Znu.Lib.Layout

/-! # The initial archive

`cpio_parse` reads an archive in the newc format and enters its files into the tree. The
format is given by its bytes, a record for each file, and the parser comes through the
records one by one.
-/

namespace Znu.Vfs

open Lib List Nat
open Files

/-! ## The parser -/

def hexDigit (c : UInt8) : Nat :=
  if 48 ≤ c ∧ c ≤ 57 then c.toNat - 48
  else if 65 ≤ c ∧ c ≤ 70 then c.toNat - 65 + 10
  else if 97 ≤ c ∧ c ≤ 102 then c.toNat - 97 + 10
  else 0

def hex8ToU32 (s : List UInt8) : Nat := s.foldl (fun res c => (res * 16 + hexDigit c) % 2 ^ 32) 0

/-- `"070701"` -/
def magic : List UInt8 := [48, 55, 48, 55, 48, 49]

/-- `"TRAILER!!!"` -/
def trailerName : List UInt8 := [84, 82, 65, 73, 76, 69, 82, 33, 33, 33]

def dot : UInt8 := 46

/-- `while (src[0] == '.' && src[1] == '/') src += 2` -/
def skipDots : List UInt8 → List UInt8
  | b :: c :: src => if b = dot ∧ c = slash then skipDots src else b :: c :: src
  | src => src

def pathBuf (filename : List UInt8) : List UInt8 :=
  let src := skipDots filename
  if src.head? = some slash then src.take 255 else slash :: src.take 254

def Info.described (info : Info) (type : NodeType) (mode uid gid : Nat) : Info :=
  { info with type := type, mode := mode &&& 0xFFF, uid := uid, gid := gid }

namespace Fs

variable {Volume : Type} (fat : FatFs Volume) (fs : Fs Volume)

/-- The target is kept in a field that nothing reads. -/
def vfseSymlink (cwd linkpath : List UInt8) : Fs Volume :=
  match vfseResolvePath cwd linkpath with
  | none => fs
  | some abspath =>
    match splitPath abspath with
    | none => fs
    | some (dir, name) =>
      let found := fs.vfsPathToNode fat (parentPath dir)
      match found.1 with
      | none => found.2
      | some parent =>
        if (found.2.tree.info parent).type ≠ .directory then found.2 else
        match found.2.tree.vfsCreateNode name .symlink with
        | none => found.2
        | some (node, tree) => { found.2 with tree := tree.vfsAddChild parent node }

/-- What is done with the node if there is one. -/
def describe (found : Option Nat × Fs Volume) (type : NodeType) (mode uid gid : Nat) : Fs Volume :=
  match found with
  | (none, fs) => fs
  | (some node, fs) =>
    { fs with tree := fs.tree.setInfo node ((fs.tree.info node).described type mode uid gid) }

/-- The body of the loop once the header has been read. The working directory is the root
    as long as no process runs. -/
def cpioEntry (path : List UInt8) (mode uid gid data filesize : Nat) : Fs Volume :=
  let fileType := mode &&& 0xF000
  if fileType = 0x8000 then
    let fs := { fs with tree := fs.tree.vfsRegisterFile path data filesize }
    describe (fs.vfsPathToNode fat path) .file mode uid gid
  else if fileType = 0xA000 then
    let fs := fs.vfseSymlink fat [slash] path
    describe (fs.vfsPathToNode fat path) .symlink mode uid gid
  else if fileType = 0x4000 then
    let fs := { fs with tree := fs.tree.vfsRegisterFile path 0 0 }
    describe (fs.vfsPathToNode fat path) .directory mode uid gid
  else fs

/-- The header has 110 bytes, and no name is as long as four gigabytes. -/
def cpioParse (memory : Lib.Bytes) : Nat → Fs Volume → Nat → Fs Volume
  | 0, fs, _ => fs
  | fuel + 1, fs, ptr =>
    if bytesAt memory ptr 6 ≠ magic then fs else
    let filesize := hex8ToU32 (bytesAt memory (ptr + 54) 8)
    let namesize := hex8ToU32 (bytesAt memory (ptr + 94) 8)
    let mode := hex8ToU32 (bytesAt memory (ptr + 14) 8)
    let uid := hex8ToU32 (bytesAt memory (ptr + 22) 8)
    let gid := hex8ToU32 (bytesAt memory (ptr + 30) 8)
    let filename := text memory (ptr + 110) (2 ^ 32)
    if filename.take 10 = trailerName then fs else
    let data := ptr + (110 + namesize + 3) / 4 * 4
    cpioParse memory fuel (fs.cpioEntry fat (pathBuf filename) mode uid gid data filesize)
      (data + (filesize + 3) % 2 ^ 32 / 4 * 4)

end Fs

/-! ## The format -/

def isHex (c : UInt8) : Bool := 48 ≤ c && c ≤ 57 || 65 ≤ c && c ≤ 70 || 97 ≤ c && c ≤ 102

def hexValue (field : List UInt8) : Nat := field.foldl (fun value c => value * 16 + hexDigit c) 0

/-- The bytes of one file in an archive. -/
structure Record where
  /-- `ino`, `mode`, `uid`, `gid`, `nlink`, `mtime`, `filesize`, `devmajor`, `devminor`,
      `rdevmajor`, `rdevminor`, `namesize`, `check` -/
  numbers : List (List UInt8)
  name : List UInt8
  data : List UInt8
  /-- the bytes that align the data, and those that align the next header -/
  gap : List UInt8
  rest : List UInt8
  thirteen : numbers.length = 13 := by decide +kernel
  eight : ∀ field ∈ numbers, field.length = 8 := by decide +kernel
  hex : ∀ field ∈ numbers, ∀ c ∈ field, isHex c = true := by decide +kernel
  string : 0 ∉ name := by decide +kernel
  filesize : hexValue (numbers.getD 6 []) = data.length := by decide +kernel
  namesize : hexValue (numbers.getD 11 []) = name.length + 1 := by decide +kernel
  gap_short : gap.length < 4 := by decide +kernel
  gap_aligns : (110 + (name.length + 1) + gap.length) % 4 = 0 := by decide +kernel
  rest_short : rest.length < 4 := by decide +kernel
  rest_aligns : (data.length + rest.length) % 4 = 0 := by decide +kernel

namespace Record

variable (r : Record)

def mode : Nat := hexValue (r.numbers.getD 1 [])

def uid : Nat := hexValue (r.numbers.getD 2 [])

def gid : Nat := hexValue (r.numbers.getD 3 [])

def bytes : List UInt8 :=
  magic ++ (r.numbers.flatten ++ (r.name ++ 0 :: (r.gap ++ (r.data ++ r.rest))))

def offset : Nat := 110 + (r.name.length + 1) + r.gap.length

def path : List UInt8 :=
  let src := skipDots r.name
  if src.head? = some slash then src else slash :: src

def names : List (List UInt8) := components r.path

def type : Option NodeType :=
  if r.mode &&& 0xF000 = 0x8000 then some .file
  else if r.mode &&& 0xF000 = 0xA000 then some .symlink
  else if r.mode &&& 0xF000 = 0x4000 then some .directory
  else none

/-- The parser does not take the record for the last one, and the rounded size of the data
    is below four gigabytes. -/
structure Readable : Prop where
  name : r.name.take 10 ≠ trailerName
  data : r.data.length + 3 < 2 ^ 32

/-- The path ends in a slash. -/
def slashed : Bool := r.path.getLast? = some slash

/-- The path is in the buffer as it is, its components are names of nodes, and only that of a
    directory ends in a slash. -/
structure Fits : Prop where
  path : r.path.length ≤ 255
  parts : ∀ part ∈ r.names, part.length ≤ 127
  leaf : r.type ≠ some .directory → r.slashed = false

end Record

/-- A record with its place in memory. -/
structure Entry where
  ptr : Nat
  record : Record

/-- The records of an archive one after the other. -/
def entries : Nat → List Record → List Entry
  | _, [] => []
  | ptr, r :: rs => ⟨ptr, r⟩ :: entries (ptr + r.bytes.length) rs

def Fs.enter {Volume : Type} (fat : FatFs Volume) (fs : Fs Volume) (e : Entry) : Fs Volume :=
  fs.cpioEntry fat (pathBuf e.record.name) e.record.mode e.record.uid e.record.gid
    (e.ptr + e.record.offset) e.record.data.length

/-! ## Reading a record -/

variable {addr : Nat} {memory : Bytes}

lemma stringAt_of_holds {name : List UInt8} (string : 0 ∉ name)
    (holds : Holds memory addr (name ++ [0])) : stringAt memory addr name := by
  induction name generalizing addr with
  | nil => exact holds.1
  | cons b name ih =>
    obtain ⟨first, rest⟩ := holds
    refine ⟨first, fun zero => string (by simp [zero]), ih ?_ rest⟩
    exact fun member => string (mem_cons_of_mem _ member)

lemma holds_number {numbers : List (List UInt8)}
    (eight : ∀ field ∈ numbers, field.length = 8) (holds : Holds memory addr numbers.flatten)
    {k : Nat} (inside : k < numbers.length) :
    bytesAt memory (addr + 8 * k) 8 = numbers.getD k [] := by
  induction numbers generalizing addr k with
  | nil => cases inside
  | cons field numbers ih =>
    obtain ⟨width, others⟩ := forall_mem_cons.mp eight
    rw [flatten_cons, holds_append, width] at holds
    cases k with
    | zero =>
      have there := bytesAt_of_holds holds.1
      rw [width] at there
      simpa using there
    | succ k =>
      have later := ih others holds.2 (lt_of_succ_lt_succ inside)
      rw [getD_cons_succ, ← later]
      congr 1
      omega

lemma hexDigit_lt (c : UInt8) : hexDigit c < 16 := by
  have small : ∀ x y : UInt8, x ≤ y → x.toNat ≤ y.toNat := fun x y le => UInt8.le_iff_toNat_le.mp le
  unfold hexDigit
  split
  next digit =>
    have := small _ _ digit.2
    have : (57 : UInt8).toNat = 57 := rfl
    omega
  · split
    next upper =>
      have := small _ _ upper.2
      have : (70 : UInt8).toNat = 70 := rfl
      omega
    · split
      next lower =>
        have := small _ _ lower.2
        have : (102 : UInt8).toNat = 102 := rfl
        omega
      · omega

lemma hexValue_concat (field : List UInt8) (c : UInt8) :
    hexValue (field ++ [c]) = hexValue field * 16 + hexDigit c := by
  simp [hexValue]

lemma hexValue_lt (field : List UInt8) : hexValue field < 16 ^ field.length := by
  induction field using reverseRecOn with
  | nil => exact one_pos
  | append_singleton field c ih =>
    have digit := hexDigit_lt c
    rw [hexValue_concat, length_append, length_singleton, pow_succ]
    omega

lemma hex8ToU32_eq {field : List UInt8} (eight : field.length ≤ 8) : hex8ToU32 field = hexValue field := by
  induction field using reverseRecOn with
  | nil => rfl
  | append_singleton field c ih =>
    have bound := hexValue_lt (field ++ [c])
    have wide : 16 ^ (field ++ [c]).length ≤ 2 ^ 32 := Nat.pow_le_pow_right (by omega) eight
    rw [length_append, length_singleton] at eight
    have before := ih (by omega)
    have last : hex8ToU32 (field ++ [c]) = (hex8ToU32 field * 16 + hexDigit c) % 2 ^ 32 := by
      simp [hex8ToU32]
    rw [last, before, ← hexValue_concat]
    exact mod_eq_of_lt (bound.trans_le wide)

namespace Record

variable {ptr : Nat} {r : Record}

lemma length_numbers (r : Record) : r.numbers.flatten.length = 104 := by
  rw [length_flatten, map_congr_left (g := fun _ => 8) r.eight, map_const', sum_replicate, r.thirteen]
  rfl

lemma length_bytes (r : Record) : r.bytes.length = r.offset + (r.data.length + r.rest.length) := by
  have numbers := r.length_numbers
  simp only [bytes, offset, magic, length_append, length_cons, length_nil, numbers]
  omega

/-- What the parser reads of a record. -/
structure Read (memory : Lib.Bytes) (ptr : Nat) (r : Record) : Prop where
  magic : bytesAt memory ptr 6 = magic
  number : ∀ k < 13, hex8ToU32 (bytesAt memory (ptr + 6 + 8 * k) 8) = hexValue (r.numbers.getD k [])
  name : text memory (ptr + 110) (2 ^ 32) = r.name
  data : Holds memory (ptr + r.offset) r.data

lemma read (holds : Holds memory ptr r.bytes) : Read memory ptr r := by
  rw [bytes, holds_append, holds_append, holds_append] at holds
  obtain ⟨first, numbers, name, zero, rest⟩ := holds
  have start : ptr + Vfs.magic.length + r.numbers.flatten.length = ptr + 110 := by
    rw [r.length_numbers]
    rfl
  rw [start] at name zero rest
  rw [holds_append, holds_append] at rest
  constructor
  · exact bytesAt_of_holds first
  · intro k inside
    have there := holds_number r.eight numbers (k := k) (by rw [r.thirteen]; exact inside)
    have eight : (r.numbers.getD k []).length ≤ 8 := by
      have inside' : k < r.numbers.length := by rw [r.thirteen]; exact inside
      rw [getD_eq_getElem _ _ inside']
      exact le_of_eq (r.eight _ (getElem_mem inside'))
    rw [← hex8ToU32_eq eight, ← there]
    rfl
  · have string : stringAt memory (ptr + 110) r.name :=
      stringAt_of_holds r.string (holds_append.mpr ⟨name, zero, trivial⟩)
    have bound := hexValue_lt (r.numbers.getD 11 [])
    have inside : 11 < r.numbers.length := by
      rw [r.thirteen]
      omega
    rw [r.namesize, getD_eq_getElem _ _ inside, r.eight _ (getElem_mem inside)] at bound
    rw [text_of_stringAt string]
    exact take_of_length_le (by omega)
  · have there := rest.2.1
    have shift : ptr + 110 + r.name.length + 1 + r.gap.length = ptr + r.offset := by
      rw [offset]
      omega
    rwa [shift] at there

lemma offset_eq (r : Record) : (110 + (r.name.length + 1) + 3) / 4 * 4 = r.offset := by
  have short := r.gap_short
  have aligns := r.gap_aligns
  rw [offset]
  omega

lemma size_eq (readable : r.Readable) :
    (r.data.length + 3) % 2 ^ 32 / 4 * 4 = r.data.length + r.rest.length := by
  have short := r.rest_short
  have aligns := r.rest_aligns
  rw [mod_eq_of_lt readable.data]
  omega

end Record

/-- The parser enters the records one by one and stops at the trailer. -/
lemma Fs.cpioParse_eq {Volume : Type} {fat : FatFs Volume} {fs : Fs Volume}
    {ptr fuel : Nat} {records : List Record} {trailer : Record}
    (readable : ∀ r ∈ records, r.Readable) (last : trailer.name = trailerName)
    (holds : Holds memory ptr (records.flatMap Record.bytes ++ trailer.bytes))
    (enough : records.length < fuel) :
    fs.cpioParse fat memory fuel ptr = (entries ptr records).foldl (Fs.enter fat) fs := by
  induction records generalizing fs ptr fuel with
    obtain ⟨fuel, rfl⟩ : ∃ n, fuel = n + 1 := ⟨fuel - 1, by simp at enough; omega⟩
  | nil =>
    have read := Record.read holds
    have ends : (text memory (ptr + 110) (2 ^ 32)).take 10 = trailerName := by
      rw [read.name, last]
      rfl
    rw [cpioParse, if_neg (not_not.mpr read.magic), if_pos ends]
    rfl
  | cons r records ih =>
    rw [flatMap_cons, append_assoc, holds_append] at holds
    obtain ⟨here, others⟩ := forall_mem_cons.mp readable
    have read := Record.read holds.1
    have more : ¬ (text memory (ptr + 110) (2 ^ 32)).take 10 = trailerName := by
      rw [read.name]
      exact here.name
    have mode := read.number 1 (by omega)
    have uid := read.number 2 (by omega)
    have gid := read.number 3 (by omega)
    have filesize := (read.number 6 (by omega)).trans r.filesize
    have namesize := (read.number 11 (by omega)).trans r.namesize
    rw [cpioParse, if_neg (not_not.mpr read.magic), if_neg more]
    dsimp only
    rw [filesize, namesize, mode, uid, gid, read.name, r.offset_eq, Record.size_eq here]
    have next : ptr + r.offset + (r.data.length + r.rest.length) = ptr + r.bytes.length := by
      rw [r.length_bytes, add_assoc]
    rw [next]
    exact ih others holds.2 (lt_of_succ_lt_succ enough)

end Znu.Vfs
