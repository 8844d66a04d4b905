import Znu.Lib.Program
import Znu.Lib.Layout
import Znu.Modl.Table

/-! # The loader

`load_kernel_module` up to the init function, byte by byte. The image and the block into which it is
loaded lie in the same memory, addresses wrap around at 2^64, and every access says whether it is made
through a pointer into the image or into the block. What the loader keeps in its own tables is a value
here. Printing a string of the image reads it; what is printed of the block or the tables is left out.
-/

namespace Znu.Modl.Elf

open Lib

inductive Via where
  /-- a pointer made from `elf_data` -/
  | buffer
  /-- a pointer made from `mod->base` -/
  | block

abbrev Loading := Program Via

/-- What the loader is given, and what it finds around it. -/
structure Env where
  /-- `elf_data` -/
  file : Nat
  len : Nat
  args : Option Text
  /-- no slot of the table is left -/
  full : Bool
  /-- both tables of `calc_alloc_size` can be allocated -/
  tables : Bool
  /-- the block for an image of this size -/
  alloc : Nat → Option Nat
  /-- a copy of a string of this size -/
  copies : Nat → Option Nat
  /-- what `resolve_dependencies` returns -/
  dependencies : Bool
  /-- `sym_table` -/
  kernel : List (Text × Nat)
  /-- the exports of the live modules, one module after the other -/
  exports : List (Text × Nat)

/-! ## Memory -/

def get (via : Via) (a : Nat) : Loading UInt8 := .read via (a % 2 ^ 64) .done

def put (a : Nat) (byte : UInt8) : Loading Unit := .write (a % 2 ^ 64) byte (.done ())

/-- A number of so many bytes. -/
def field (via : Via) (a : Nat) : Nat → Loading Nat
  | 0 => pure 0
  | n + 1 => do
      let low ← get via a
      let high ← field via (a + 1) n
      pure (low.toNat + 256 * high)

def many (via : Via) (a : Nat) : Nat → Loading (List UInt8)
  | 0 => pure []
  | n + 1 => do
      let byte ← get via a
      let rest ← many via (a + 1) n
      pure (byte :: rest)

def putMany (a : Nat) : List UInt8 → Loading Unit
  | [] => pure ()
  | byte :: bytes => do
      put a byte
      putMany (a + 1) bytes

/-- `memset` with zero. -/
def clear (a : Nat) : Nat → Loading Unit
  | 0 => pure ()
  | n + 1 => do
      put a 0
      clear (a + 1) n

/-- `memcpy` from the image. -/
def copy (dest src : Nat) : Nat → Loading Unit
  | 0 => pure ()
  | n + 1 => do
      let byte ← get .buffer src
      put dest byte
      copy (dest + 1) (src + 1) n

/-- `memcmp`, or `strncmp` with all of a string: do the bytes start so? -/
def startsWith (a : Nat) : Text → Loading Bool
  | [] => pure true
  | c :: text => do
      let byte ← get .buffer a
      if byte = c then startsWith (a + 1) text else pure false

/-- `strcmp` of a string of the image with another one: are they the same? -/
def strcmp (a : Nat) : Text → Loading Bool
  | [] => do
      let byte ← get .buffer a
      pure (byte == 0)
  | c :: text => do
      let byte ← get .buffer a
      if byte = c then strcmp (a + 1) text else pure false

/-- `%s` counts the characters in an `int`. -/
def countPrinted (a : Nat) : Nat → Loading Unit
  | 0 => pure ()
  | rounds + 1 => do
      let byte ← get .buffer a
      if byte = 0 then pure () else countPrinted (a + 1) rounds

def printed (a : Nat) : Loading Unit := if a % 2 ^ 64 = 0 then pure () else countPrinted a (2 ^ 31)

/-! ## Headers -/

def eShoff (file : Nat) : Loading Nat := field .buffer (file + 40) 8
def eShnum (file : Nat) : Loading Nat := field .buffer (file + 60) 2
def eShstrndx (file : Nat) : Loading Nat := field .buffer (file + 62) 2

def shName (shdr i : Nat) : Loading Nat := field .buffer (shdr + 64 * i) 4
def shType (shdr i : Nat) : Loading Nat := field .buffer (shdr + 64 * i + 4) 4
def shFlags (shdr i : Nat) : Loading Nat := field .buffer (shdr + 64 * i + 8) 8
def shOffset (shdr i : Nat) : Loading Nat := field .buffer (shdr + 64 * i + 24) 8
def shSize (shdr i : Nat) : Loading Nat := field .buffer (shdr + 64 * i + 32) 8
def shLink (shdr i : Nat) : Loading Nat := field .buffer (shdr + 64 * i + 40) 4
def shInfo (shdr i : Nat) : Loading Nat := field .buffer (shdr + 64 * i + 44) 4
def shAddralign (shdr i : Nat) : Loading Nat := field .buffer (shdr + 64 * i + 48) 8

def stName (sym : Nat) : Loading Nat := field .buffer sym 4
def stShndx (sym : Nat) : Loading Nat := field .buffer (sym + 6) 2
def stValue (sym : Nat) : Loading Nat := field .buffer (sym + 8) 8

def rOffset (rela : Nat) : Loading Nat := field .buffer rela 8
def rInfo (rela : Nat) : Loading Nat := field .buffer (rela + 8) 8
def rAddend (rela : Nat) : Loading Nat := field .buffer (rela + 16) 8

def shnUndef : Nat := 0
def shnAbs : Nat := 0xfff1
def shnCommon : Nat := 0xfff2

def shtProgbits : Nat := 1
def shtSymtab : Nat := 2
def shtRela : Nat := 4
def shtNobits : Nat := 8

/-- `hdr + hdr->e_shoff` -/
def sectionHeaders (file : Nat) : Loading Nat := do
  let shoff ← eShoff file
  pure (file + shoff)

/-- `for (uint16_t i = 0; i < hdr->e_shnum; i++)`, which the body may leave. -/
def sectionLoop {σ : Type} (file : Nat) (body : Nat → σ → Loading (ForInStep σ)) : Nat → Nat → σ → Loading σ
  | 0, _, s => pure s
  | rounds + 1, i, s => do
      let shnum ← eShnum file
      if i < shnum then
        match ← body i s with
        | .yield s => sectionLoop file body rounds (i + 1) s
        | .done s => pure s
      else pure s

def overSections {σ : Type} (file : Nat) (s : σ) (body : Nat → σ → Loading (ForInStep σ)) : Loading σ :=
  sectionLoop file body (2 ^ 16) 0 s

def elfValidateReloc (file : Nat) : Loading Bool := do
  if ← startsWith file [0x7f, 0x45, 0x4c, 0x46] then
    let cls ← field .buffer (file + 4) 1
    if cls ≠ 2 then pure false else
    let order ← field .buffer (file + 5) 1
    if order ≠ 1 then pure false else
    let machine ← field .buffer (file + 18) 2
    if machine ≠ 62 then pure false else
    let type ← field .buffer (file + 16) 2
    pure (type == 1)
  else pure false

/-! ## Placing the sections -/

def shAlloc (shdr i : Nat) : Loading Bool := do
  let flags ← shFlags shdr i
  pure (flags.testBit 1)

/-- `(total + align - 1) & ~(align - 1)` -/
def roundUp (total align : Nat) : Nat := (total + align - 1) % 2 ^ 64 &&& (2 ^ 64 - align)

/-- The indices of the sections that are loaded, and their offsets in the block. -/
abbrev Placed := List (Nat × Nat)

/-- The offset of a section, 0 if it is not loaded. -/
def Placed.offset (placed : Placed) (i : Nat) : Nat := (placed.lookup i).getD 0

def countSection (shdr i nalloc : Nat) : Loading (ForInStep Nat) := do
  let alloc ← shAlloc shdr i
  pure (.yield (if alloc then nalloc + 1 else nalloc))

/-- The size so far, and what has been placed. -/
def placeSection (shdr i : Nat) (state : Nat × Placed) : Loading (ForInStep (Nat × Placed)) := do
  if ← shAlloc shdr i then
    let align ← shAddralign shdr i
    let offset := roundUp state.1 (max align 1)
    let size ← shSize shdr i
    pure (.yield ((offset + size) % 2 ^ 64, state.2 ++ [(i, offset)]))
  else pure (.yield state)

def calcAllocSize (file : Nat) (tables : Bool) : Loading (Nat × Placed) := do
  let shdr ← sectionHeaders file
  let nalloc ← overSections file 0 (countSection shdr)
  if nalloc = 0 ∨ !tables then pure (0, []) else overSections file (0, []) (placeSection shdr)

/-- The loop that copies the sections into the block. -/
def copySections (file shdr base : Nat) : Placed → Loading Unit
  | [] => pure ()
  | (i, offset) :: placed => do
      let type ← shType shdr i
      if type = shtNobits then copySections file shdr base placed else
      let size ← shSize shdr i
      if size = 0 then copySections file shdr base placed else
      let place ← shOffset shdr i
      copy (base + offset) (file + place) size
      copySections file shdr base placed

/-! ## `parse_modinfo` -/

structure Info where
  name : Text
  desc : Text
  author : Text
  license : Text
  version : Text
  depends : List Text
  aliases : List Text

/-- A section with contents that has this name. -/
def isNamed (file shdr : Nat) (text : Text) (i : Nat) : Loading Bool := do
  let type ← shType shdr i
  if type ≠ shtProgbits then pure false else
  let shstrndx ← eShstrndx file
  let shnum ← eShnum file
  if shstrndx ≠ shnUndef ∧ shstrndx < shnum then
    let shstrtab ← shOffset shdr shstrndx
    let name ← shName shdr i
    strcmp (file + shstrtab + name) text
  else pure false

/-- The first section of this name. -/
def findSection (file shdr : Nat) (text : Text) : Loading (Option Nat) :=
  overSections file none fun i _ => do
    let named ← isNamed file shdr text i
    pure (if named then .done (some i) else .yield none)

/-- A loop that goes on while the bytes pass a test and the end has not been reached. -/
def advance (test : UInt8 → Bool) (stop : Nat) : Nat → Nat → Loading Nat
  | 0, d => pure d
  | rounds + 1, d => do
      let byte ← get .buffer d
      if test byte ∧ d < stop then advance test stop rounds (d + 1) else pure d

/-- The loop that finds the end of a line. -/
def lineEnd (stop : Nat) : Nat → Nat → Loading Nat
  | 0, p => pure p
  | rounds + 1, p =>
    if p < stop then do
      let byte ← get .buffer p
      if byte = 0 then pure p else lineEnd stop rounds (p + 1)
    else pure p

/-- The position of `=` among the bytes that are left. -/
def findEq (p : Nat) : Nat → Nat → Loading (Option Nat)
  | 0, _ => pure none
  | left + 1, k => do
      let byte ← get .buffer (p + k)
      if byte = 0x3d then pure (some k) else findEq p left (k + 1)

/-- The loop over the names of `depends=`: where it has stopped, and the names. -/
def parseDepends (copies : Nat → Option Nat) (stop : Nat) :
    Nat → Nat → List Text → Loading (Nat × List Text)
  | 0, d, depends => pure (d, depends)
  | rounds + 1, d, depends => do
      let byte ← get .buffer d
      if byte ≠ 0 ∧ d < stop ∧ depends.length < 4 then
        let start ← advance (fun c => c == 0x20 || c == 0x2c) stop (stop - d + 1) d
        let d ← advance (fun c => c != 0 && c != 0x2c) stop (stop - start + 1) start
        if 0 < d - start ∧ d - start < 64 ∧ (copies (d - start + 1)).isSome then
          let dep ← many .buffer start (d - start)
          parseDepends copies stop rounds d (depends ++ [dep])
        else parseDepends copies stop rounds d depends
      else pure (d, depends)

/-- A key that is as long as this one, and the same. -/
def isKey (p keyLen : Nat) (key : Text) : Loading Bool :=
  if keyLen = key.length then startsWith p key else pure false

/-- One line of `.modinfo`, from `p` to `stop`. -/
def parseLine (copies : Nat → Option Nat) (p stop : Nat) (info : Info) : Loading Info := do
  match ← findEq p (stop - p) 0 with
  | none => pure info
  | some keyLen =>
    let val := p + keyLen + 1
    let valLen := stop - p - keyLen - 1
    if ← isKey p keyLen [0x6e, 0x61, 0x6d, 0x65] then -- name
      let text ← many .buffer val (min valLen 63)
      pure { info with name := text }
    else if ← isKey p keyLen [0x64, 0x65, 0x73, 0x63, 0x72, 0x69, 0x70, 0x74, 0x69, 0x6f, 0x6e] then
      let text ← many .buffer val (min valLen 127)
      pure { info with desc := text }
    else if ← isKey p keyLen [0x61, 0x75, 0x74, 0x68, 0x6f, 0x72] then -- author
      let text ← many .buffer val (min valLen 63)
      pure { info with author := text }
    else if ← isKey p keyLen [0x6c, 0x69, 0x63, 0x65, 0x6e, 0x73, 0x65] then -- license
      let text ← many .buffer val (min valLen 31)
      pure { info with license := text }
    else if ← isKey p keyLen [0x76, 0x65, 0x72, 0x73, 0x69, 0x6f, 0x6e] then -- version
      let text ← many .buffer val (min valLen 31)
      pure { info with version := text }
    else if ← isKey p keyLen [0x64, 0x65, 0x70, 0x65, 0x6e, 0x64, 0x73] then -- depends
      let parsed ← parseDepends copies (val + valLen) (valLen + 1) val info.depends
      pure { info with depends := parsed.2 }
    else if ← isKey p keyLen [0x61, 0x6c, 0x69, 0x61, 0x73] then -- alias
      if info.aliases.length < 4 ∧ (copies (valLen + 1)).isSome then
        let text ← many .buffer val valLen
        pure { info with aliases := info.aliases ++ [text] }
      else pure info
    else pure info

def parseLines (copies : Nat → Option Nat) (stop : Nat) : Nat → Nat → Info → Loading Info
  | 0, _, info => pure info
  | rounds + 1, p, info =>
    if p < stop then do
      let lineStop ← lineEnd stop (stop - p) p
      let info ← parseLine copies p lineStop info
      parseLines copies stop rounds ((lineStop + 1) % 2 ^ 64) info
    else pure info

def parseModinfo (env : Env) (info : Info) : Loading Info := do
  let shdr ← sectionHeaders env.file
  match ← findSection env.file shdr [0x2e, 0x6d, 0x6f, 0x64, 0x69, 0x6e, 0x66, 0x6f] with -- .modinfo
  | none => pure info
  | some i =>
    let place ← shOffset shdr i
    let size ← shSize shdr i
    let data := (env.file + place) % 2 ^ 64
    parseLines env.copies ((data + size) % 2 ^ 64) (2 ^ 64) data info

/-! ## Relocations -/

inductive Kind where
  | abs64
  | pc32
  | plt32
  | abs32
  | abs32s
  deriving DecidableEq

/-- The types `apply_rela` knows. -/
def Kind.ofType (type : Nat) : Option Kind :=
  if type = 1 then some .abs64 else
  if type = 2 then some .pc32 else
  if type = 4 then some .plt32 else
  if type = 10 then some .abs32 else
  if type = 11 then some .abs32s else none

def Kind.width : Kind → Nat
  | .abs64 => 8
  | .pc32 => 4
  | .plt32 => 4
  | .abs32 => 4
  | .abs32s => 4

/-- A relocation that has been applied, with P, S and A. -/
structure Applied where
  kind : Kind
  place : Nat
  symbol : Nat
  addend : Nat
  deriving DecidableEq

/-- S + A, or S + A - P, in 64 bits. -/
def Applied.value (r : Applied) : Nat :=
  match r.kind with
  | .abs64 => (r.symbol + r.addend) % 2 ^ 64
  | .pc32 => (r.symbol + r.addend + (2 ^ 64 - r.place)) % 2 ^ 64
  | .plt32 => (r.symbol + r.addend + (2 ^ 64 - r.place)) % 2 ^ 64
  | .abs32 => (r.symbol + r.addend) % 2 ^ 64
  | .abs32s => (r.symbol + r.addend) % 2 ^ 64

def applyRela (base rela symval offset : Nat) : Loading (Option Applied) := do
  let place ← rOffset rela
  let addend ← rAddend rela
  let info ← rInfo rela
  match Kind.ofType (info % 2 ^ 32) with
  | none => pure none
  | some kind =>
    let applied : Applied := ⟨kind, (base + offset + place) % 2 ^ 64, symval, addend⟩
    putMany applied.place (littleEndian kind.width applied.value)
    pure (some applied)

/-- The value of the first symbol of this name, 0 if there is none. -/
def symGetAddr (name : Nat) : List (Text × Nat) → Loading Nat
  | [] => pure 0
  | (text, value) :: symbols => do
      if ← strcmp name text then pure value else symGetAddr name symbols

def modResolveSymbol (env : Env) (name : Nat) : Loading Nat := do
  let kaddr ← symGetAddr name env.kernel
  if kaddr ≠ 0 then pure kaddr else symGetAddr name env.exports

/-- The value of a symbol; nothing if it cannot be used. -/
def symbolValue (env : Env) (base : Nat) (placed : Placed) (strtab sym : Nat) : Loading (Option Nat) := do
  let name ← stName sym
  let shndx ← stShndx sym
  if shndx = shnUndef then
    let symval ← modResolveSymbol env (strtab + name)
    if symval = 0 then
      printed (strtab + name)
      pure none
    else pure (some symval)
  else if shndx = shnAbs then
    let value ← stValue sym
    pure (some value)
  else if shndx = shnCommon then
    printed (strtab + name)
    pure none
  else
    let shnum ← eShnum env.file
    if shndx < shnum then
      let value ← stValue sym
      pure (some ((base + placed.offset shndx + value) % 2 ^ 64))
    else pure none

/-- The tables that go with a section of relocations. -/
structure Tables where
  symtab : Nat
  strtab : Nat
  /-- the offset of the section whose fields are relocated -/
  offset : Nat
  rela : Nat
  count : Nat

/-- The tables of section `i`; nothing if there is nothing to be done. -/
def relocationTables (file : Nat) (placed : Placed) (shdr i : Nat) : Loading (Option Tables) := do
  let type ← shType shdr i
  if type ≠ shtRela then pure none else
  let info ← shInfo shdr i
  let target := info % 2 ^ 16
  let shnum ← eShnum file
  if shnum ≤ target then pure none else
  if ← shAlloc shdr target then
    let link ← shLink shdr i
    let symtabIdx := link % 2 ^ 16
    let shnum ← eShnum file
    if shnum ≤ symtabIdx then pure none else
    let symtab ← shOffset shdr symtabIdx
    let strtabIdx ← shLink shdr symtabIdx
    let strtab ← shOffset shdr strtabIdx
    let rela ← shOffset shdr i
    let size ← shSize shdr i
    pure (some ⟨file + symtab, file + strtab, placed.offset target, file + rela, size / 24⟩)
  else pure none

def relocate (env : Env) (base : Nat) (placed : Placed) (tables : Tables) (rela : Nat) :
    Loading (Option Applied) := do
  let info ← rInfo rela
  match ← symbolValue env base placed tables.strtab (tables.symtab + 24 * (info / 2 ^ 32)) with
  | none => pure none
  | some symval => applyRela base rela symval tables.offset

/-- The relocations of one section. What has been applied comes with whether all could be. -/
def relocateSection (env : Env) (base : Nat) (placed : Placed) (tables : Tables) :
    Nat → Nat → List Applied → Loading (List Applied × Bool)
  | 0, _, applied => pure (applied, true)
  | left + 1, rela, applied => do
      match ← relocate env base placed tables rela with
      | none => pure (applied, false)
      | some r => relocateSection env base placed tables left (rela + 24) (applied ++ [r])

def processSection (env : Env) (base : Nat) (placed : Placed) (shdr i : Nat)
    (state : List Applied × Bool) : Loading (ForInStep (List Applied × Bool)) := do
  match ← relocationTables env.file placed shdr i with
  | none => pure (.yield state)
  | some tables =>
    let state ← relocateSection env base placed tables tables.count tables.rela state.1
    pure (if state.2 then .yield state else .done state)

def processRelocations (env : Env) (base : Nat) (placed : Placed) : Loading (List Applied × Bool) := do
  let shdr ← sectionHeaders env.file
  overSections env.file ([], true) (processSection env base placed shdr)

/-! ## The module's own symbols -/

/-- The symbol table, its number of symbols and its strings. -/
structure Symbols where
  symtab : Nat
  count : Nat
  strtab : Nat

def symbolsOf (file shdr i : Nat) (symbols : Symbols) : Loading (ForInStep Symbols) := do
  let type ← shType shdr i
  if type ≠ shtSymtab then pure (.yield symbols) else
  let place ← shOffset shdr i
  let size ← shSize shdr i
  let link ← shLink shdr i
  let shnum ← eShnum file
  if link % 2 ^ 16 < shnum then
    let strings ← shOffset shdr (link % 2 ^ 16)
    pure (.done ⟨(file + place) % 2 ^ 64, size / 24 % 2 ^ 32, (file + strings) % 2 ^ 64⟩)
  else pure (.done ⟨(file + place) % 2 ^ 64, size / 24 % 2 ^ 32, 0⟩)

/-- The loop of `load_kernel_module` that finds the symbol table. -/
def findSymbols (file shdr : Nat) : Loading Symbols := overSections file ⟨0, 0, 0⟩ (symbolsOf file shdr)

/-! ## `load_kernel_module` -/

/-- The module when its relocations have been processed. -/
structure Relocated where
  base : Nat
  total : Nat
  placed : Placed
  info : Info
  symbols : Symbols
  applied : List Applied

/-- The relocations of a module whose sections have been copied. -/
def relocateModule (env : Env) (base total : Nat) (placed : Placed) (info : Info) (symbols : Symbols) :
    Loading (Option Relocated) := do
  let relocated ← processRelocations env base placed
  pure (if relocated.2 then some ⟨base, total, placed, info, symbols, relocated.1⟩ else none)

/-- The part that works on the new block. -/
def fillBlock (env : Env) (name : Text) (base total : Nat) (placed : Placed) :
    Loading (Option Relocated) := do
  clear base total
  let shdr ← sectionHeaders env.file
  copySections env.file shdr base placed
  let info ← parseModinfo env ⟨name.take 63, [], [], [], [], [], []⟩
  if !env.dependencies then pure none else
  let symbols ← findSymbols env.file shdr
  relocateModule env base total placed info symbols

/-- `load_kernel_module` as far as the relocations. -/
def loadRelocated (env : Env) (name : Text) : Loading (Option Relocated) :=
  if env.file = 0 ∨ env.len < 64 ∨ env.full then pure none else do
  if ← elfValidateReloc env.file then
    let sized ← calcAllocSize env.file env.tables
    if sized.1 = 0 then pure none else
    match env.alloc sized.1 with
    | none => pure none
    | some base => fillBlock env name base sized.1 sized.2
  else pure none

end Znu.Modl.Elf
