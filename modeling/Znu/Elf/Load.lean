import Znu.Elf.Image
import Znu.Mm.Space

/-! # Loading segments

`elf_load_segments` and what it calls. The functions that allocate return `none`
when the allocator runs dry and the machine stops; `elf_load_segments` returns
`none` in its second component where the source returns -1.
-/

namespace Znu.Elf

open Lib Mm

section

variable (nxSupported : Bool)

def elfFlagsToPte (pflags : Nat) : Nat :=
  ptePresent ||| pteUser ||| (if pfW pflags then pteWritable else 0) |||
    (if nxSupported && !pfX pflags then pteNx else 0)

def hhdmWrite64 (s : Phys) (pml4 uva val : Nat) : Phys :=
  s.write64 (vmmVirtToPhys s.mem pml4 uva) val

/-- `chunk` of `hhdm_copy_to_user` -/
def chunkLen (uva len : Nat) : Nat := min (4096 - uva % 4096) len

lemma chunkLen_pos (uva : Nat) {len : Nat} (more : len ≠ 0) : 0 < chunkLen uva len := by
  unfold chunkLen
  omega

def hhdmCopyToUser (s : Phys) (pml4 uva : Nat) (src : Nat → UInt8) (len : Nat) : Phys :=
  if more : len = 0 then s else
    let phys := vmmVirtToPhys s.mem pml4 uva
    let chunk := chunkLen uva len
    have : len - chunk < len := by
      have := chunkLen_pos uva more
      omega
    hhdmCopyToUser (s.store (phys + uva % 4096) chunk src) pml4 ((uva + chunk) % 2 ^ 64)
      (fun i => src (chunk + i)) (len - chunk)
termination_by len

/-- An empty copy does nothing, so the callers' test for one makes no difference. -/
lemma hhdmCopyToUser_if (s : Phys) (pml4 uva : Nat) (src : Nat → UInt8) (len : Nat) :
    (if 0 < len then hhdmCopyToUser s pml4 uva src len else s) = hhdmCopyToUser s pml4 uva src len := by
  by_cases more : 0 < len
  · rw [if_pos more]
  · rw [if_neg more, hhdmCopyToUser, dif_pos (by omega)]

/-- The loop of `map_user_range`, with the number of pages left. -/
def mapPages (pml4 flags : Nat) : Nat → Nat → Phys → Option Phys
  | 0, _, s => some s
  | n + 1, page, s =>
    if vmmVirtToPhys s.mem pml4 page = 0 then do
      let (s, phys) ← s.pallocZero
      let s ← mapPage nxSupported s pml4 page phys flags
      mapPages pml4 flags n (page + 4096) s
    else mapPages pml4 flags n (page + 4096) s

/-- `(a + 0xFFF) & ~0xFFF` -/
def pageUp (a : Nat) : Nat := pageDown ((a + 0xFFF) % 2 ^ 64)

/-- The number of pages `for (page = start; page < stop; page += 0x1000)` visits. -/
def pageCount (start stop : Nat) : Nat := (stop - start) / 4096

def mapUserRange (s : Phys) (pml4 start stop flags : Nat) : Option Phys :=
  mapPages nxSupported pml4 flags (pageCount (pageDown start) (pageUp stop)) (pageDown start) s

/-- The loop of `remap_user_range`. -/
def remapPages (pml4 flags : Nat) : Nat → Nat → Phys → Option Phys
  | 0, _, s => some s
  | n + 1, page, s =>
    let phys := vmmVirtToPhys s.mem pml4 page
    if phys ≠ 0 then do
      let s ← mapPage nxSupported s pml4 page phys flags
      remapPages pml4 flags n (page + 4096) s
    else remapPages pml4 flags n (page + 4096) s

def remapUserRange (s : Phys) (pml4 start stop flags : Nat) : Option Phys :=
  remapPages nxSupported pml4 flags (pageCount (pageDown start) (pageUp stop)) (pageDown start) s

def tlsUserBase : Nat := 0x7FFF00000000
def tcbSize : Nat := 16

/-- Map `n` fresh pages, as `elf_setup_tls` and `alloc_user_stack` do. -/
def mapFreshPages (pml4 flags : Nat) : Nat → Nat → Phys → Option Phys
  | 0, _, s => some s
  | n + 1, page, s => do
      let (s, phys) ← s.pallocZero
      let s ← mapPage nxSupported s pml4 page phys flags
      mapFreshPages pml4 flags n ((page + 4096) % 2 ^ 64) s

def tlsFlags : Nat :=
  ptePresent ||| pteWritable ||| pteUser ||| (if nxSupported then pteNx else 0)

/-- `total_pages` of `elf_setup_tls` -/
def tlsPages (memsz : Nat) : Nat := pageUp ((memsz + tcbSize) % 2 ^ 64)

/-- Returns the address of the thread control block. -/
def elfSetupTls (s : Phys) (pml4 : Nat) (image : Nat → UInt8) (filesz memsz : Nat) :
    Option (Phys × Nat) := do
  let s ← mapFreshPages nxSupported pml4 (tlsFlags nxSupported) (tlsPages memsz / 4096) tlsUserBase s
  let tcb := (tlsUserBase + memsz) % 2 ^ 64
  let s := if 0 < filesz then hhdmCopyToUser s pml4 tlsUserBase image filesz else s
  let s := hhdmWrite64 s pml4 tcb tcb
  let s := hhdmWrite64 s pml4 ((tcb + 8) % 2 ^ 64) 0
  some (s, tcb)

/-- What `elf_load_segments` stores through its `out_` parameters. -/
structure Loaded where
  loadBase : Nat
  maxVaddr : Nat
  tlsBase : Nat
  stackExec : Bool
  deriving Repr, DecidableEq

/-- The values before the first header: `load_base` starts as `UINTPTR_MAX`. -/
def Loaded.start : Loaded := ⟨2 ^ 64 - 1, 0, 0, false⟩

def Loaded.track (l : Loaded) (p : Phdr) : Loaded :=
  { l with
    loadBase := if p.pVaddr < l.loadBase then p.pVaddr else l.loadBase
    maxVaddr := max l.maxVaddr ((p.pVaddr + p.pMemsz) % 2 ^ 64) }

def Loaded.finish (l : Loaded) : Loaded :=
  if l.loadBase = 2 ^ 64 - 1 then { l with loadBase := 0 } else l

/-- The `PT_LOAD` case of the second pass, for a segment that is not empty. -/
def loadSegment (s : Phys) (pml4 : Nat) (image : Bytes) (p : Phdr) : Option Phys := do
  let start := pageDown p.pVaddr
  let stop := pageUp ((p.pVaddr + p.pMemsz) % 2 ^ 64)
  let s ← mapUserRange nxSupported s pml4 start stop (elfFlagsToPte nxSupported p.pFlags)
  some (if 0 < p.pFilesz then
    hhdmCopyToUser s pml4 p.pVaddr (fun i => image (p.pOffset + i)) p.pFilesz else s)

/-- The second pass of `elf_load_segments`. -/
def loadHeaders (pml4 : Nat) (image : Bytes) :
    List Phdr → Phys → Loaded → Option (Phys × Option Loaded)
  | [], s, l => some (s, some l)
  | p :: ps, s, l =>
    if p.pType = ptLoad then
      if p.pMemsz = 0 then loadHeaders pml4 image ps s l else do
        let s ← loadSegment nxSupported s pml4 image p
        loadHeaders pml4 image ps s (l.track p)
    else if p.pType = ptTls then do
      let (s, tls) ← elfSetupTls nxSupported s pml4 (fun i => image (p.pOffset + i)) p.pFilesz
        p.pMemsz
      if tls = 0 then some (s, none) else loadHeaders pml4 image ps s { l with tlsBase := tls }
    else if p.pType = ptGnuStack then
      loadHeaders pml4 image ps s { l with stackExec := pfX p.pFlags }
    else loadHeaders pml4 image ps s l

def relroFlags : Nat := ptePresent ||| pteUser ||| (if nxSupported then pteNx else 0)

def relroHeaders (pml4 : Nat) : List Phdr → Phys → Option Phys
  | [], s => some s
  | p :: ps, s =>
    if p.pType = ptGnuRelro then do
      let s ← remapUserRange nxSupported s pml4 p.pVaddr ((p.pVaddr + p.pMemsz) % 2 ^ 64)
        (relroFlags nxSupported)
      relroHeaders pml4 ps s
    else relroHeaders pml4 ps s

def elfLoadSegments (s : Phys) (pml4 : Nat) (image : Bytes) : Option (Phys × Option Loaded) :=
  if (phdrs image).any (·.pType == ptInterp) then some (s, none) else do
    match ← loadHeaders nxSupported pml4 image (phdrs image) s .start with
    | (s, none) => some (s, none)
    | (s, some l) =>
      let s ← relroHeaders nxSupported pml4 (phdrs image) s
      some (s, some l.finish)

end

/-- A zeroed table with entries 256 to 511 of the kernel's. -/
def vmmCreateUserPml4 (s : Phys) (kernelPml4 : Nat) : Option (Phys × Nat) := do
  let (s, pml4) ← s.pallocZero
  some (s.store (pml4 + 2048) 2048 (fun i => s.mem (kernelPml4 + 2048 + i)), pml4)

end Znu.Elf
