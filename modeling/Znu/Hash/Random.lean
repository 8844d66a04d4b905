import Znu.Hash.Sha256

/-! # `sys_getrandom`

The generator of `entropy.c` is seeded by the first call of a random function of the kernel, in
`ensure_initialized`. `sys_getrandom` does not call it, and `secure_random_bytes` returns nothing: without
a seed its loop would leave the buffer as it is. `earlykmain` seeds the generator before there is a process,
and a seeded generator writes every byte, also when it has to be seeded again.
-/

namespace Znu.Hash

open List Sha256Ctx

abbrev Octets := List UInt8

/-! ## The generator -/

/-- The bytes are hashed piece by piece. -/
def hashOf (pieces : List Octets) : Octets :=
  (pieces.foldl Sha256Ctx.sha256Update
    (Sha256Ctx.sha256Init ⟨fun _ => 0, 0, 0, ⟨0, 0, 0, 0, 0, 0, 0, 0⟩⟩)).sha256Final

lemma length_hashOf (pieces : List Octets) : (hashOf pieces).length = 32 := by
  simp [hashOf, sha256Final, storeWord]

attribute [irreducible] hashOf

/-- The loops `for (i = …; i >= 0; i--)` that add with a carry. -/
def addLoop (carry : Nat) : List (UInt8 × UInt8) → Octets × Nat
  | [] => ([], carry)
  | (v, x) :: rest =>
    let (out, carry) := addLoop carry rest
    let sum := v.toNat + x.toNat + carry
    (UInt8.ofNat sum :: out, sum / 256)

/-- The carry out of the highest byte is lost. -/
def add (v xs : Octets) : Octets := (addLoop 0 (v.zip xs)).1

def drbgVLen : Nat := 55

/-- A number as so many bytes. -/
def bigEndian (n value : Nat) : Octets :=
  (range n).map fun i => UInt8.ofNat (value / 256 ^ (n - 1 - i))

def hashDfLoop (input lenBytes : Octets) (counter : UInt8) (left : Nat) : Octets :=
  if left = 0 then []
  else (hashOf [[counter], lenBytes, input]).take (min left 32) ++
    hashDfLoop input lenBytes (counter + 1) (left - min left 32)
termination_by left

def hashDf (input : Octets) (outLen : Nat) : Octets :=
  hashDfLoop input (bigEndian 4 (outLen * 8)) 1 outLen

def hashgen (data : Octets) (left : Nat) : Octets :=
  if left = 0 then []
  else (hashOf [data]).take (min left 32) ++
    hashgen (addLoop 1 (data.map (·, 0))).1 (left - min left 32)
termination_by left

structure DrbgCtx where
  v : Octets
  c : Octets
  reseedCounter : Nat
  seeded : Bool

/-- An input is left out if it is longer than the limit. -/
def limited (input : Octets) (limit : Nat) : Octets :=
  if 0 < input.length ∧ input.length ≤ limit then input else []

/-- The end of `drbg_instantiate` and of `drbg_reseed`. -/
def DrbgCtx.seed (material : Octets) : DrbgCtx where
  v := hashDf material drbgVLen
  c := hashDf (hashDf material drbgVLen ++ [0]) drbgVLen
  reseedCounter := 1
  seeded := true

def drbgInstantiate (entropy nonce pers : Octets) : DrbgCtx :=
  .seed (limited entropy 128 ++ limited nonce 64 ++ limited pers 256)

namespace DrbgCtx

def drbgReseed (ctx : DrbgCtx) (entropy addin : Octets) : DrbgCtx :=
  if ctx.seeded then .seed (1 :: ctx.v ++ limited entropy 128 ++ limited addin 256) else ctx

/-- `w[i % 32]` for all places of `V` -/
def spread (w : Octets) : Octets := (range drbgVLen).map fun i => w.getD (i % 32) 0

/-- `V + H + C + reseed_counter`, where the bytes of the counter are added from the highest on. -/
def updateV (v c : Octets) (reseedCounter : Nat) : Octets :=
  let v := add v (spread (hashOf [3 :: v]))
  let v := add v c
  let low := addLoop 0 ((v.drop (drbgVLen - 8)).zip (bigEndian 8 reseedCounter).reverse)
  (addLoop low.2 ((v.take (drbgVLen - 8)).map (·, 0))).1 ++ low.1

/-- `V` with the additional input. -/
def withInput (ctx : DrbgCtx) (addin : Octets) : Octets :=
  if 0 < addin.length then add ctx.v (spread (hashOf [ctx.v, addin])) else ctx.v

def drbgMaxBytesPerReq : Nat := 65536

def drbgReseedInterval : Nat := 2 ^ 48

/-- With the bytes it writes; `none` is -1. -/
def drbgGenerate (ctx : DrbgCtx) (outLen : Nat) (addin : Octets) : Option (DrbgCtx × Octets) :=
  if ctx.seeded = false then none
  else if drbgMaxBytesPerReq < outLen then none
  else if drbgReseedInterval < ctx.reseedCounter then none
  else
    let v := ctx.withInput addin
    some ({ ctx with
      v := updateV v ctx.c ctx.reseedCounter
      reseedCounter := ctx.reseedCounter + 1 }, hashgen v outLen)

end DrbgCtx

/-! ## The calls -/

open DrbgCtx

/-- `k_drbg` and `k_initialized`. -/
structure Rng where
  drbg : DrbgCtx
  initialized : Bool

/-- What the entropy pool and the hardware give to a call. -/
structure Source where
  seed : Octets
  nonce : Octets
  fresh : Octets
  hardware : Nat → Octets

inductive Call where
  | rand
  | randomBytes (len : Nat)
  | seedFromText
  | seedFromHardware
  | getrandom (len : Nat)

/-- What becomes of the buffer; `none` is a byte that nobody has written. -/
abbrev Buffer := List (Option UInt8)

/-- One turn of the loop of `secure_random_bytes`. -/
def DrbgCtx.fillChunk (ctx : DrbgCtx) (entropy : Octets) (chunk : Nat) : DrbgCtx × Buffer :=
  match ctx.drbgGenerate chunk [] with
  | some (ctx, out) => (ctx, out.map some)
  | none =>
    match (ctx.drbgReseed entropy []).drbgGenerate chunk [] with
    | some (ctx, out) => (ctx, out.map some)
    | none => (ctx.drbgReseed entropy [], replicate chunk none)

def DrbgCtx.secureRandomBytes (ctx : DrbgCtx) (hardware : Nat → Octets) (left : Nat) : DrbgCtx × Buffer :=
  if left = 0 then (ctx, [])
  else
    let chunk := min left drbgMaxBytesPerReq
    let (ctx, first) := ctx.fillChunk (hardware left) chunk
    let (ctx, rest) := ctx.secureRandomBytes hardware (left - chunk)
    (ctx, first ++ rest)
termination_by left
decreasing_by
  simp only [drbgMaxBytesPerReq]
  omega

namespace Rng

/-- The string and the byte after it. -/
def personalization : Octets := "znu_kernel_rng_v1".toUTF8.toList ++ [0]

def ensureInitialized (r : Rng) (source : Source) : Rng :=
  if r.initialized then r else ⟨drbgInstantiate source.seed source.nonce personalization, true⟩

/-- What a call does to the generator. -/
def call (r : Rng) (source : Source) : Call → Rng
  | .rand =>
    let r := r.ensureInitialized source
    { r with drbg := (r.drbg.secureRandomBytes source.hardware 4).1 }
  | .randomBytes len =>
    let r := r.ensureInitialized source
    { r with drbg := (r.drbg.secureRandomBytes source.hardware len).1 }
  | .seedFromText | .seedFromHardware =>
    let r := r.ensureInitialized source
    { r with drbg := r.drbg.drbgReseed source.fresh [] }
  | .getrandom len => { r with drbg := (r.drbg.secureRandomBytes source.hardware len).1 }

/-- What `sys_getrandom` does to the buffer. -/
def sysGetrandom (r : Rng) (source : Source) (len : Nat) : Buffer :=
  (r.drbg.secureRandomBytes source.hardware len).2

/-- The static variables are zero. -/
def unseeded : Rng :=
  ⟨⟨replicate 55 0, replicate 55 0, 0, false⟩, false⟩

/-- `earlykmain` calls `seed_from_hardware` and draws the two halves of `__stack_chk_guard`. -/
def boot (hardware high low : Source) : Rng :=
  ((unseeded.call hardware .seedFromHardware).call high .rand).call low .rand

def run (r : Rng) (history : List (Call × Source)) : Rng := history.foldl (fun r e => r.call e.2 e.1) r

end Rng

lemma length_hashgen (data : Octets) (left : Nat) : (hashgen data left).length = left := by
  induction left using Nat.strong_induction_on generalizing data with
  | _ left ih =>
    rw [hashgen]
    split
    · simp [*]
    rw [length_append, ih _ (by omega), length_take, length_hashOf]
    omega

/-- All of so many bytes are written. -/
structure Written (buffer : Buffer) (len : Nat) : Prop where
  length : buffer.length = len
  bytes : ∀ b ∈ buffer, b ≠ none

section

variable {ctx ctx' : DrbgCtx} {n : Nat}

lemma drbgGenerate_spec {addin out : Octets}
    (generated : ctx.drbgGenerate n addin = some (ctx', out)) :
    ctx'.seeded = ctx.seeded ∧ Written (out.map some) n := by
  rw [drbgGenerate] at generated
  split at generated
  · cases generated
  split at generated
  · cases generated
  split at generated <;> cases generated
  exact ⟨rfl, by rw [length_map, length_hashgen], by simp⟩

lemma drbgReseed_seeded (entropy addin : Octets) : (ctx.drbgReseed entropy addin).seeded = ctx.seeded := by
  rw [drbgReseed]
  split
  · exact (‹ctx.seeded = true›).symm
  · rfl

/-- A generator that has just been seeded serves every request that is not too long. -/
lemma drbgGenerate_reseeded (seeded : ctx.seeded = true) (entropy : Octets)
    (short : n ≤ drbgMaxBytesPerReq) : ((ctx.drbgReseed entropy []).drbgGenerate n []).isSome := by
  rw [drbgReseed, if_pos seeded, drbgGenerate, if_neg (by simp [seed]),
    if_neg (by omega), if_neg (by simp [seed, drbgReseedInterval])]
  rfl

lemma fillChunk_spec (seeded : ctx.seeded = true) (entropy : Octets) (short : n ≤ drbgMaxBytesPerReq) :
    (ctx.fillChunk entropy n).1.seeded = true ∧ Written (ctx.fillChunk entropy n).2 n := by
  rw [fillChunk]
  cases first : ctx.drbgGenerate n [] with
  | some result =>
    obtain ⟨kept, written⟩ := drbgGenerate_spec first
    exact ⟨kept.trans seeded, written⟩
  | none =>
    obtain ⟨⟨ctx', out⟩, second⟩ :=
      Option.isSome_iff_exists.mp (drbgGenerate_reseeded seeded entropy short)
    obtain ⟨kept, written⟩ := drbgGenerate_spec second
    simp only [second]
    exact ⟨kept.trans ((drbgReseed_seeded ..).trans seeded), written⟩

lemma secureRandomBytes_spec (seeded : ctx.seeded = true) (hardware : Nat → Octets) (left : Nat) :
    (ctx.secureRandomBytes hardware left).1.seeded = true ∧
      Written (ctx.secureRandomBytes hardware left).2 left := by
  induction left using Nat.strong_induction_on generalizing ctx with
  | _ left ih =>
    rw [secureRandomBytes]
    split
    · rename_i none
      exact ⟨seeded, none.symm, nofun⟩
    have smaller : left - min left drbgMaxBytesPerReq < left := by
      rw [drbgMaxBytesPerReq]
      omega
    obtain ⟨kept, first⟩ :=
      fillChunk_spec seeded (hardware left) (Nat.min_le_right left drbgMaxBytesPerReq)
    obtain ⟨kept', rest⟩ := ih _ smaller kept
    refine ⟨kept', ?_, fun b listed => ?_⟩
    · rw [length_append, first.length, rest.length]
      omega
    · obtain early | late := mem_append.mp listed
      · exact first.bytes b early
      · exact rest.bytes b late

end

namespace Rng

/-- The generator has its seed. -/
structure Ready (r : Rng) : Prop where
  seeded : r.drbg.seeded = true
  initialized : r.initialized = true

lemma Ready.call {r : Rng} (ready : r.Ready) (source : Source) (c : Call) : (r.call source c).Ready := by
  have kept : r.ensureInitialized source = r := if_pos ready.initialized
  cases c with
  | getrandom len => exact ⟨(secureRandomBytes_spec ready.seeded _ _).1, ready.initialized⟩
  | rand | randomBytes _ =>
    rw [Rng.call, kept]
    exact ⟨(secureRandomBytes_spec ready.seeded _ _).1, ready.initialized⟩
  | seedFromText | seedFromHardware =>
    rw [Rng.call, kept]
    exact ⟨(drbgReseed_seeded ..).trans ready.seeded, ready.initialized⟩

lemma Ready.run {r : Rng} (ready : r.Ready) (history : List (Call × Source)) : (r.run history).Ready := by
  induction history generalizing r with
  | nil => exact ready
  | cons e history ih => exact ih (ready.call e.2 e.1)

end Rng

end Znu.Hash
