import Znu.Hash.Fips

/-! # The hash of the entropy pool

`sha256_update` takes a message in pieces of any length. It collects bytes and compresses each
block when it is full, and `sha256_final` pads what is left over. The digest is the one of the
standard for the whole message, however it was cut.
-/

namespace Znu.Hash

open Function Nat

open Fips Function List

/-! ## The functions -/

def rotright (word : Word) (bits : Nat) : Word := word >>> bits ||| word <<< (32 - bits)

def ch (x y z : Word) : Word := (x &&& y) ^^^ (~~~x &&& z)

def maj (x y z : Word) : Word := (x &&& y) ^^^ (x &&& z) ^^^ (y &&& z)

def ep0 (x : Word) : Word := rotright x 2 ^^^ rotright x 13 ^^^ rotright x 22

def ep1 (x : Word) : Word := rotright x 6 ^^^ rotright x 11 ^^^ rotright x 25

def sig0 (x : Word) : Word := rotright x 7 ^^^ rotright x 18 ^^^ x >>> 3

def sig1 (x : Word) : Word := rotright x 17 ^^^ rotright x 19 ^^^ x >>> 10

def k : List Word := [
  0x428a2f98, 0x71374491, 0xb5c0fbcf, 0xe9b5dba5, 0x3956c25b, 0x59f111f1, 0x923f82a4, 0xab1c5ed5,
  0xd807aa98, 0x12835b01, 0x243185be, 0x550c7dc3, 0x72be5d74, 0x80deb1fe, 0x9bdc06a7, 0xc19bf174,
  0xe49b69c1, 0xefbe4786, 0x0fc19dc6, 0x240ca1cc, 0x2de92c6f, 0x4a7484aa, 0x5cb0a9dc, 0x76f988da,
  0x983e5152, 0xa831c66d, 0xb00327c8, 0xbf597fc7, 0xc6e00bf3, 0xd5a79147, 0x06ca6351, 0x14292967,
  0x27b70a85, 0x2e1b2138, 0x4d2c6dfc, 0x53380d13, 0x650a7354, 0x766a0abb, 0x81c2c92e, 0x92722c85,
  0xa2bfe8a1, 0xa81a664b, 0xc24b8b70, 0xc76c51a3, 0xd192e819, 0xd6990624, 0xf40e3585, 0x106aa070,
  0x19a4c116, 0x1e376c08, 0x2748774c, 0x34b0bcb5, 0x391c0cb3, 0x4ed8aa4a, 0x5b9cca4f, 0x682e6ff3,
  0x748f82ee, 0x78a5636f, 0x84c87814, 0x8cc70208, 0x90befffa, 0xa4506ceb, 0xbef9a3f7, 0xc67178f2]

structure Sha256Ctx where
  data : Nat → UInt8
  datalen : Nat
  bitlen : BitVec 64
  state : Words

/-- Four bytes from `j` on. -/
def loadWord (data : Nat → UInt8) (j : Nat) : Word :=
  (data j).toBitVec.setWidth 32 <<< 24 ||| (data (j + 1)).toBitVec.setWidth 32 <<< 16 |||
    (data (j + 2)).toBitVec.setWidth 32 <<< 8 ||| (data (j + 3)).toBitVec.setWidth 32

/-- The array `m` after both loops. -/
def expand (data : Nat → UInt8) : Nat → Word :=
  let m : Nat → Word := (range 16).foldl
    (fun m i => update m i (loadWord data (4 * i))) fun _ => 0
  (range' 16 48).foldl (fun m i =>
    update m i (sig1 (m (i - 2)) + m (i - 7) + sig0 (m (i - 15)) + m (i - 16))) m

def transformRound (m : Nat → Word) (v : Words) (i : Nat) : Words :=
  let t1 := v.h + ep1 v.e + ch v.e v.f v.g + k.getD i 0 + m i
  let t2 := ep0 v.a + maj v.a v.b v.c
  ⟨t1 + t2, v.a, v.b, v.c, v.d + t1, v.e, v.f, v.g⟩

namespace Sha256Ctx

def sha256Transform (ctx : Sha256Ctx) (data : Nat → UInt8) : Sha256Ctx :=
  let s := ctx.state
  let v := (range 64).foldl (transformRound (expand data)) s
  { ctx with state := ⟨s.a + v.a, s.b + v.b, s.c + v.c, s.d + v.d, s.e + v.e, s.f + v.f, s.g + v.g,
      s.h + v.h⟩ }

/-- The bytes of `data` stay as they are. -/
def sha256Init (ctx : Sha256Ctx) : Sha256Ctx :=
  { ctx with
    datalen := 0
    bitlen := 0
    state := ⟨0x6a09e667, 0xbb67ae85, 0x3c6ef372, 0xa54ff53a, 0x510e527f, 0x9b05688c, 0x1f83d9ab,
      0x5be0cd19⟩ }

def updateByte (ctx : Sha256Ctx) (b : UInt8) : Sha256Ctx :=
  let ctx := { ctx with data := update ctx.data ctx.datalen b, datalen := ctx.datalen + 1 }
  if ctx.datalen = 64 then
    let ctx := ctx.sha256Transform ctx.data
    { ctx with bitlen := ctx.bitlen + 512, datalen := 0 }
  else ctx

def sha256Update (ctx : Sha256Ctx) (data : List UInt8) : Sha256Ctx := data.foldl updateByte ctx

end Sha256Ctx

open Sha256Ctx

/-- `while (i < stop) data[i++] = 0x00;` -/
def zeroFill (data : Nat → UInt8) (i stop : Nat) : Nat → UInt8 :=
  (range' i (stop - i)).foldl (fun data i => update data i 0) data

/-- The eight bytes of the length, the highest in `data[56]`. -/
def storeLength (data : Nat → UInt8) (bitlen : BitVec 64) : Nat → UInt8 :=
  (range 8).foldl (fun data i =>
    update data (63 - i) (UInt8.ofNat (bitlen >>> (8 * i)).toNat)) data

/-- `hash[4 * j + i]` for the word `j` -/
def storeWord (x : Word) : List UInt8 :=
  (range 4).map fun i => UInt8.ofNat (x >>> (24 - i * 8) &&& 0xff).toNat

namespace Sha256Ctx

/-- `0x80` and zeros, up to where the length goes. -/
def padData (ctx : Sha256Ctx) : Sha256Ctx :=
  let i := ctx.datalen
  let marked := update ctx.data i 0x80
  if ctx.datalen < 56 then { ctx with data := zeroFill marked (i + 1) 56 }
  else
    let ctx := { ctx with data := zeroFill marked (i + 1) 64 }
    let ctx := ctx.sha256Transform ctx.data
    { ctx with data := zeroFill ctx.data 0 56 }

def lastBlock (ctx : Sha256Ctx) : Sha256Ctx :=
  let bitlen := ctx.bitlen + BitVec.ofNat 64 (ctx.datalen * 8)
  let ctx := { ctx with bitlen := bitlen, data := storeLength ctx.data bitlen }
  ctx.sha256Transform ctx.data

/-- The 32 bytes of `hash`. -/
def sha256Final (ctx : Sha256Ctx) : List UInt8 :=
  let s := ctx.padData.lastBlock.state
  [s.a, s.b, s.c, s.d, s.e, s.f, s.g, s.h].flatMap storeWord

end Sha256Ctx

/-! ## The compression function -/

variable {n t : Nat} {msg bytes : List UInt8}

lemma rotright_eq {x : Word} (small : n < 32) : rotright x n = x.rotateRight n := by
  rw [BitVec.rotateRight_def, mod_eq_of_lt small]
  rfl

lemma constants_eq (inside : t < 64) : k.getD t 0 = fraction 3 t := by
  have all : ∀ t < 64, k.getD t 0 = fraction 3 t := by decide +kernel
  exact all t inside

lemma initial_eq (ctx : Sha256Ctx) : ctx.sha256Init.state = initial := by
  have words : (⟨0x6a09e667, 0xbb67ae85, 0x3c6ef372, 0xa54ff53a, 0x510e527f, 0x9b05688c, 0x1f83d9ab,
      0x5be0cd19⟩ : Words) = initial := by decide +kernel
  exact words

/-- A loop that stores one value after the other. -/
lemma foldl_update {α : Type} (places : List Nat) (value : Nat → α) (m : Nat → α) (t : Nat) :
    places.foldl (fun m i => update m i (value i)) m t =
      if t ∈ places then value t else m t := by
  induction places generalizing m with
  | nil => simp
  | cons i places ih =>
    rw [foldl_cons, ih]
    by_cases later : t ∈ places
    · simp [later]
    · by_cases here : t = i <;> simp [later, here]

variable {data data' : Nat → UInt8}

lemma loadWord_congr {j j' : Nat}
    (same : ∀ i < 4, data (j + i) = data' (j' + i)) : loadWord data j = loadWord data' j' := by
  have first := same 0 (by decide)
  have second := same 1 (by decide)
  have third := same 2 (by decide)
  have fourth := same 3 (by decide)
  rw [add_zero, add_zero] at first
  rw [loadWord, loadWord, first, second, third, fourth]

lemma sig0_eq (x : Word) : sig0 x = sigma0 x := by
  rw [sig0, rotright_eq (by decide), rotright_eq (by decide)]
  rfl

lemma sig1_eq (x : Word) : sig1 x = sigma1 x := by
  rw [sig1, rotright_eq (by decide), rotright_eq (by decide)]
  rfl

lemma expand_eq (data : Nat → UInt8) (inside : t < 64) :
    expand data t = schedule (fun t => loadWord data (4 * t)) t := by
  have steps : ∀ n, ∀ t < 16 + n, (range' 16 n).foldl (fun m i =>
      update m i (sig1 (m (i - 2)) + m (i - 7) + sig0 (m (i - 15)) + m (i - 16)))
      ((range 16).foldl (fun m i => update m i (loadWord data (4 * i))) fun _ => 0) t =
      schedule (fun t => loadWord data (4 * t)) t := by
    intro n
    induction n with
    | zero =>
      intro t first
      rw [range'_zero, foldl_nil, foldl_update, if_pos (mem_range.mpr first), schedule_first first]
    | succ n ih =>
      intro t before
      rw [range'_concat, foldl_append, foldl_cons, foldl_nil, one_mul]
      by_cases last : t = 16 + n
      · subst last
        rw [update_self, ih _ (by omega), ih _ (by omega), ih _ (by omega),
          ih _ (by omega), sig0_eq, sig1_eq, ← schedule_later (by omega)]
      · rw [update_of_ne last, ih t (by omega)]
  exact steps 48 t inside

lemma transformRound_eq (data : Nat → UInt8) (v : Words) (inside : t < 64) :
    transformRound (expand data) v t = round (schedule fun t => loadWord data (4 * t)) v t := by
  have one : ep1 v.e = bigSigma1 v.e := by
    rw [ep1, rotright_eq (by decide), rotright_eq (by decide), rotright_eq (by decide)]
    rfl
  have zero : ep0 v.a = bigSigma0 v.a := by
    rw [ep0, rotright_eq (by decide), rotright_eq (by decide), rotright_eq (by decide)]
    rfl
  rw [transformRound, Fips.round, expand_eq data inside, constants_eq inside, one, zero]
  rfl

lemma transform_eq (ctx : Sha256Ctx) (data : Nat → UInt8) :
    (ctx.sha256Transform data).state = compress ctx.state fun t => loadWord data (4 * t) := by
  have rounds := foldl_ext (transformRound (expand data))
    (round (schedule fun t => loadWord data (4 * t))) ctx.state
    fun v t member => transformRound_eq data v (mem_range.mp member)
  simp only [sha256Transform, compress, rounds, BitVec.add_comm]

/-! ## Whole messages -/

/-- The words after the first `n` blocks. -/
def absorbed (n : Nat) (msg : List UInt8) : Words :=
  (range n).foldl
    (fun h i => compress h fun t => loadWord (fun j => msg.getD j 0) (64 * i + 4 * t)) initial

lemma absorbed_append (inside : 64 * n ≤ msg.length) (rest : List UInt8) :
    absorbed n (msg ++ rest) = absorbed n msg := by
  apply foldl_ext
  intro h i member
  apply compress_congr
  intro t small
  apply loadWord_congr
  intro j inWord
  have before := mem_range.mp member
  exact getD_append _ _ _ _ (by omega)

variable {ctx : Sha256Ctx}

/-- A block that is in `data` is the next one. -/
lemma absorbed_succ (state : ctx.state = absorbed n msg)
    (same : ∀ i < 64, data i = msg.getD (64 * n + i) 0) :
    (ctx.sha256Transform data).state = absorbed (n + 1) msg := by
  rw [transform_eq, state, absorbed, absorbed, range_succ, foldl_append, foldl_cons, foldl_nil]
  apply compress_congr
  intro t small
  apply loadWord_congr
  intro i inWord
  rw [same (4 * t + i) (by omega), add_assoc]

/-- What the context holds of a message. -/
structure Absorbs (ctx : Sha256Ctx) (msg : List UInt8) : Prop where
  datalen : ctx.datalen = msg.length % 64
  data : ∀ i < msg.length % 64, ctx.data i = msg.getD (64 * (msg.length / 64) + i) 0
  bitlen : ctx.bitlen = BitVec.ofNat 64 (512 * (msg.length / 64))
  state : ctx.state = absorbed (msg.length / 64) msg

lemma init_absorbs (ctx : Sha256Ctx) : Absorbs ctx.sha256Init [] := by
  constructor
  · rfl
  · intro i inside
    cases inside
  · rfl
  · exact initial_eq ctx

lemma updateByte_absorbs (absorbs : Absorbs ctx msg) (b : UInt8) :
    Absorbs (ctx.updateByte b) (msg ++ [b]) := by
  obtain ⟨datalen, data, bitlen, state⟩ := absorbs
  have length : (msg ++ [b]).length = msg.length + 1 := by simp
  have stored : ∀ i ≤ msg.length % 64, update ctx.data ctx.datalen b i =
      (msg ++ [b]).getD (64 * (msg.length / 64) + i) 0 := by
    intro i inside
    by_cases last : i = msg.length % 64
    · have place : 64 * (msg.length / 64) + i = msg.length := by omega
      rw [place, datalen, last, update_self, getD_append_right _ _ _ _ (Nat.le_refl _), Nat.sub_self]
      rfl
    · rw [datalen, update_of_ne last, data i (by omega), getD_append _ _ _ _ (by omega)]
  have kept : ctx.state = absorbed (msg.length / 64) (msg ++ [b]) := by
    rw [absorbed_append (by omega), state]
  unfold updateByte
  dsimp only
  split
  · have blocks : (msg.length + 1) / 64 = msg.length / 64 + 1 := by omega
    constructor
    · dsimp only
      omega
    · intro i inside
      omega
    · dsimp only [sha256Transform]
      rw [bitlen, length, blocks, mul_add, BitVec.ofNat_add]
      rfl
    · rw [length, blocks]
      exact absorbed_succ kept fun i inside => stored i (by omega)
  have blocks : (msg.length + 1) / 64 = msg.length / 64 := by omega
  constructor
  · dsimp only
    omega
  · intro i inside
    rw [length, blocks]
    exact stored i (by omega)
  · rw [length, blocks]
    exact bitlen
  · rw [length, blocks]
    exact kept

lemma update_absorbs (absorbs : Absorbs ctx msg) (piece : List UInt8) :
    Absorbs (ctx.sha256Update piece) (msg ++ piece) := by
  induction piece generalizing ctx msg with
  | nil => rwa [append_nil]
  | cons b piece ih =>
    rw [append_cons]
    exact ih (updateByte_absorbs absorbs b)

lemma updates_absorb (absorbs : Absorbs ctx msg) (pieces : List (List UInt8)) :
    Absorbs (pieces.foldl sha256Update ctx) (msg ++ pieces.flatten) := by
  induction pieces generalizing ctx msg with
  | nil => rwa [flatten_nil, append_nil]
  | cons piece pieces ih =>
    rw [flatten_cons, ← append_assoc]
    exact ih (update_absorbs absorbs piece)

/-! ## Padding -/

def lengthBytes (bitlen : Nat) : List UInt8 :=
  (range 8).map fun i => UInt8.ofNat (bitlen >>> (56 - 8 * i))

/-- The padded message in bytes. -/
def padBytes (msg : List UInt8) : List UInt8 :=
  msg ++ 0x80 :: (replicate ((119 - msg.length % 64) % 64) 0 ++ lengthBytes (8 * msg.length))

section

variable {i : Nat}

lemma length_padBytes (msg : List UInt8) :
    (padBytes msg).length = msg.length + (119 - msg.length % 64) % 64 + 9 := by
  simp only [padBytes, lengthBytes, length_append, length_cons, length_replicate, length_map, length_range]
  omega

lemma padBytes_message (inside : i < msg.length) : (padBytes msg).getD i 0 = msg.getD i 0 :=
  getD_append _ _ _ _ inside

lemma padBytes_mark : (padBytes msg).getD msg.length 0 = 0x80 := by
  rw [padBytes, getD_append_right _ _ _ _ (Nat.le_refl _), Nat.sub_self]
  rfl

lemma padBytes_zero (past : msg.length < i)
    (before : i < msg.length + 1 + (119 - msg.length % 64) % 64) : (padBytes msg).getD i 0 = 0 := by
  obtain ⟨j, rfl⟩ : ∃ j, i = msg.length + (j + 1) := ⟨i - msg.length - 1, by omega⟩
  have inside : j < (replicate ((119 - msg.length % 64) % 64) (0 : UInt8)).length := by
    rw [length_replicate]
    omega
  rw [padBytes, getD_append_right _ _ _ _ (by omega), Nat.add_sub_cancel_left,
    getD_cons_succ, getD_append _ _ _ _ inside]
  simp

lemma padBytes_length (inside : i < 8) :
    (padBytes msg).getD (msg.length + 1 + (119 - msg.length % 64) % 64 + i) 0 =
      UInt8.ofNat ((8 * msg.length) >>> (56 - 8 * i)) := by
  have place : msg.length + 1 + (119 - msg.length % 64) % 64 + i =
      msg.length + ((119 - msg.length % 64) % 64 + i + 1) := by omega
  rw [padBytes, place, getD_append_right _ _ _ _ (by omega), Nat.add_sub_cancel_left,
    getD_cons_succ, getD_append_right _ _ _ _ (by simp), length_replicate,
    Nat.add_sub_cancel_left, lengthBytes, getD_eq_getElem _ _ (by simpa using inside),
    getElem_map, getElem_range]

lemma zeroFill_eq (data : Nat → UInt8) (i stop t : Nat) :
    zeroFill data i stop t = if i ≤ t ∧ t < stop then 0 else data t := by
  rw [zeroFill, foldl_update]
  by_cases inside : i ≤ t ∧ t < stop
  · rw [if_pos inside, if_pos (mem_range'_1.mpr (by omega))]
  · rw [if_neg inside, if_neg (fun listed => inside (by have := mem_range'_1.mp listed; omega))]

lemma storeLength_low (data : Nat → UInt8) (bitlen : BitVec 64) (low : i < 56) :
    storeLength data bitlen i = data i := by
  simp only [storeLength, range, range.loop, foldl_cons, foldl_nil]
  repeat rw [update_of_ne (by omega)]

lemma storeLength_high (data : Nat → UInt8) (bitlen : BitVec 64) (inside : i < 8) :
    storeLength data bitlen (56 + i) = UInt8.ofNat (bitlen.toNat >>> (56 - 8 * i)) := by
  simp only [storeLength, range, range.loop, foldl_cons, foldl_nil]
  interval_cases i <;> simp [update]

lemma lengthByte_eq (n : Nat) (inside : i < 8) :
    UInt8.ofNat ((BitVec.ofNat 64 n).toNat >>> (56 - 8 * i)) = UInt8.ofNat (n >>> (56 - 8 * i)) := by
  apply UInt8.toNat_inj.mp
  rw [UInt8.toNat_ofNat', UInt8.toNat_ofNat', BitVec.toNat_ofNat, shiftRight_eq_div_pow,
    shiftRight_eq_div_pow]
  interval_cases i <;> omega

/-- The last block, with the length. -/
lemma lastBlock_eq
    (place : msg.length + 1 + (119 - msg.length % 64) % 64 = 64 * n + 56)
    (same : ∀ i < 56, data i = (padBytes msg).getD (64 * n + i) 0) :
    ∀ i < 64, storeLength data (BitVec.ofNat 64 (8 * msg.length)) i = (padBytes msg).getD (64 * n + i) 0 := by
  intro i inside
  by_cases low : i < 56
  · rw [storeLength_low data _ low, same i low]
  obtain ⟨j, rfl⟩ : ∃ j, i = 56 + j := ⟨i - 56, by omega⟩
  rw [storeLength_high data _ (by omega), lengthByte_eq _ (by omega), ← add_assoc, ← place,
    padBytes_length (by omega)]

lemma lastBlock_state (state : ctx.state = absorbed n (padBytes msg))
    (total : ctx.bitlen + BitVec.ofNat 64 (ctx.datalen * 8) = BitVec.ofNat 64 (8 * msg.length))
    (place : msg.length + 1 + (119 - msg.length % 64) % 64 = 64 * n + 56)
    (same : ∀ i < 56, ctx.data i = (padBytes msg).getD (64 * n + i) 0) :
    ctx.lastBlock.state = absorbed ((padBytes msg).length / 64) (padBytes msg) := by
  have length := length_padBytes msg
  have blocks : (padBytes msg).length / 64 = n + 1 := by omega
  rw [lastBlock, total, blocks]
  exact absorbed_succ state (lastBlock_eq place same)

lemma filled_eq (absorbs : Absorbs ctx msg) {stop : Nat}
    (room : 64 * (msg.length / 64) + stop ≤ msg.length + 1 + (119 - msg.length % 64) % 64)
    (inside : i < stop) :
    zeroFill (update ctx.data ctx.datalen 0x80) (ctx.datalen + 1) stop i =
      (padBytes msg).getD (64 * (msg.length / 64) + i) 0 := by
  rw [zeroFill_eq, absorbs.datalen, update_apply]
  rcases lt_trichotomy i (msg.length % 64) with before | here | past
  · rw [if_neg (by omega), if_neg (by omega), absorbs.data i before, padBytes_message (by omega)]
  · have place : 64 * (msg.length / 64) + i = msg.length := by omega
    rw [if_neg (by omega), if_pos here, place, padBytes_mark]
  · rw [if_pos (by omega), padBytes_zero (by omega) (by omega)]

lemma padData_state (absorbs : Absorbs ctx msg) :
    ctx.padData.lastBlock.state = absorbed ((padBytes msg).length / 64) (padBytes msg) := by
  have datalen := absorbs.datalen
  have total : ctx.bitlen + BitVec.ofNat 64 (ctx.datalen * 8) = BitVec.ofNat 64 (8 * msg.length) := by
    rw [absorbs.bitlen, ← BitVec.ofNat_add, datalen]
    congr 1
    omega
  have kept : ctx.state = absorbed (msg.length / 64) (padBytes msg) := by
    rw [padBytes, absorbed_append (by omega), absorbs.state]
  unfold padData
  split
  · apply lastBlock_state (n := msg.length / 64)
    · exact kept
    · exact total
    · omega
    · intro i low
      exact filled_eq absorbs (by omega) low
  · apply lastBlock_state (n := msg.length / 64 + 1)
    · exact absorbed_succ kept fun i inside => filled_eq absorbs (by omega) inside
    · exact total
    · omega
    · intro i low
      dsimp only
      rw [zeroFill_eq, if_pos ⟨zero_le i, low⟩, padBytes_zero (by omega) (by omega)]

end

/-! ## Bits -/

def byteBits (b : UInt8) : List Bool := (range 8).map fun i => b.toNat.testBit (7 - i)

def bits (bytes : List UInt8) : List Bool := bytes.flatMap byteBits

lemma bits_append (first second : List UInt8) : bits (first ++ second) = bits first ++ bits second :=
  flatMap_append

lemma bits_cons (b : UInt8) (bytes : List UInt8) : bits (b :: bytes) = byteBits b ++ bits bytes :=
  flatMap_cons

lemma length_bits (bytes : List UInt8) : (bits bytes).length = 8 * bytes.length := by
  induction bytes with
  | nil => rfl
  | cons b bytes ih =>
    rw [bits_cons, length_append, ih, length_cons, byteBits, length_map, length_range]
    omega

lemma drop_bits (n : Nat) (bytes : List UInt8) : (bits bytes).drop (8 * n) = bits (bytes.drop n) := by
  induction n generalizing bytes with
  | zero => rfl
  | succ n ih =>
    cases bytes with
    | nil => rw [drop_nil, bits, flatMap_nil, drop_nil]
    | cons b bytes =>
      rw [drop_succ_cons, ← ih, mul_succ, add_comm, ← drop_drop]
      rfl

lemma take_bits (n : Nat) (bytes : List UInt8) : (bits bytes).take (8 * n) = bits (bytes.take n) := by
  by_cases inside : n ≤ bytes.length
  · have whole : bits bytes = bits (bytes.take n) ++ bits (bytes.drop n) := by
      rw [← bits_append, take_append_drop]
    have length : (bits (bytes.take n)).length = 8 * n := by
      rw [length_bits, length_take, min_eq_left inside]
    rw [whole, ← length, take_left]
  · rw [take_of_length_le (by rw [length_bits]; omega), take_of_length_le (by omega)]

lemma foldl_byteBits (n : Nat) (b : UInt8) :
    (byteBits b).foldl (fun n b => 2 * n + b.toNat) n = 256 * n + b.toNat := by
  have all : ∀ v < 256, (range 8).foldl (fun s i => 2 * s + (v.testBit (7 - i)).toNat) 0 = v := by
    decide +kernel
  have value := all b.toNat b.toNat_lt
  rw [byteBits, foldl_map]
  simp only [range, range.loop, foldl_cons, foldl_nil] at value ⊢
  omega

lemma or_bytes {a b c d : Nat} (b_lt : b < 256) (c_lt : c < 256) (d_lt : d < 256) :
    a <<< 24 ||| b <<< 16 ||| c <<< 8 ||| d = 256 * (256 * (256 * a + b) + c) + d := by
  have first : a <<< 24 ||| b <<< 16 = (256 * a + b) <<< 16 := by
    rw [← shiftLeft_add_eq_or_of_lt (by rw [shiftLeft_eq]; omega)]
    simp only [shiftLeft_eq]
    ring
  have second : (256 * a + b) <<< 16 ||| c <<< 8 = (256 * (256 * a + b) + c) <<< 8 := by
    rw [← shiftLeft_add_eq_or_of_lt (by rw [shiftLeft_eq]; omega)]
    simp only [shiftLeft_eq]
    ring
  rw [first, second, ← shiftLeft_add_eq_or_of_lt (by omega), shiftLeft_eq]
  ring

lemma loadWord_eq (data : Nat → UInt8) (j : Nat) :
    loadWord data j = word (bits [data j, data (j + 1), data (j + 2), data (j + 3)]) := by
  have widen : ∀ (b : UInt8) (n : Nat), n ≤ 24 → (b.toBitVec.setWidth 32 <<< n).toNat = b.toNat <<< n := by
    intro b n small
    have byte := b.toNat_lt
    have bound : b.toNat * 2 ^ n < 2 ^ 32 := by
      calc b.toNat * 2 ^ n < 256 * 2 ^ n := Nat.mul_lt_mul_of_pos_right byte (Nat.two_pow_pos n)
        _ ≤ 256 * 2 ^ 24 := Nat.mul_le_mul_left _ (Nat.pow_le_pow_right (by decide) small)
        _ = 2 ^ 32 := by decide
    rw [BitVec.toNat_shiftLeft, BitVec.toNat_setWidth, UInt8.toNat_toBitVec, shiftLeft_eq,
      mod_eq_of_lt (show b.toNat < 2 ^ 32 by omega), mod_eq_of_lt bound, shiftLeft_eq]
  have last : ((data (j + 3)).toBitVec.setWidth 32).toNat = (data (j + 3)).toNat := by
    have whole := widen (data (j + 3)) 0 (by decide)
    rwa [BitVec.shiftLeft_zero, shiftLeft_zero] at whole
  have a := (data j).toNat_lt
  have b := (data (j + 1)).toNat_lt
  have c := (data (j + 2)).toNat_lt
  have d := (data (j + 3)).toNat_lt
  have small : 256 * (256 * (256 * (256 * 0 + (data j).toNat) + (data (j + 1)).toNat) +
      (data (j + 2)).toNat) + (data (j + 3)).toNat < 2 ^ 32 := by omega
  simp only [word, bits, flatMap_cons, flatMap_nil, append_nil, foldl_append, foldl_byteBits]
  apply BitVec.eq_of_toNat_eq
  rw [loadWord, BitVec.toNat_or, BitVec.toNat_or, BitVec.toNat_or, widen _ _ (by decide),
    widen _ _ (by decide), widen _ _ (by decide), last,
    or_bytes b c d, BitVec.toNat_ofNat, mod_eq_of_lt small, mul_zero, zero_add]

lemma zeros_eq {l : Nat} (small : n < 512) (sum : (l + 1 + n) % 512 = 448) : zeros l = n := by
  unfold zeros
  generalize_proofs exists_zeros
  have found := Nat.find_spec exists_zeros
  have least := Nat.find_min' exists_zeros sum
  omega

lemma byteBits_shift (n k : Nat) :
    byteBits (UInt8.ofNat (n >>> k)) = (range 8).map fun i => n.testBit (k + (7 - i)) := by
  apply map_congr_left
  intro i _
  have low : 7 - i < 8 := by omega
  rw [UInt8.toNat_ofNat', testBit_mod_two_pow, testBit_shiftRight, decide_eq_true low, Bool.true_and]

lemma lengthBits_eq (n : Nat) : bits (lengthBytes n) = lengthBits n := by
  simp only [bits, lengthBytes, flatMap_map, byteBits_shift]
  rfl

lemma bits_zero (n : Nat) : bits (replicate n 0) = replicate (8 * n) false := by
  induction n with
  | zero => rfl
  | succ n ih =>
    rw [replicate_succ, bits_cons, ih, mul_succ, add_comm, replicate_add]
    rfl

lemma pad_bits (msg : List UInt8) : pad (bits msg) = bits (padBytes msg) := by
  have count : zeros (bits msg).length = 7 + 8 * ((119 - msg.length % 64) % 64) := by
    apply zeros_eq
    · omega
    · rw [length_bits]
      omega
  have mark : byteBits 0x80 = true :: replicate 7 false := by decide
  have bytes : bits (padBytes msg) = bits msg ++ (byteBits 0x80 ++
      (bits (replicate ((119 - msg.length % 64) % 64) 0) ++ bits (lengthBytes (8 * msg.length)))) := by
    rw [padBytes, bits_append, bits_cons, bits_append]
  rw [pad, count, bytes, mark, bits_zero, lengthBits_eq, length_bits, replicate_add,
    cons_append, append_assoc]

lemma blockWord_bits {i : Nat} (inside : 64 * i + 4 * t + 4 ≤ bytes.length) :
    blockWord (bits bytes) i t = loadWord (fun j => bytes.getD j 0) (64 * i + 4 * t) := by
  have place : 512 * i + 32 * t = 8 * (64 * i + 4 * t) := by omega
  have four : ∀ p, p + 4 ≤ bytes.length → (bytes.drop p).take 4 =
      [bytes.getD p 0, bytes.getD (p + 1) 0, bytes.getD (p + 2) 0, bytes.getD (p + 3) 0] := by
    intro p room
    apply ext_getElem
    · simp
      omega
    intro n short _
    have small : n < 4 := by
      omega
    rw [getElem_take, getElem_drop]
    interval_cases n
    · exact (getD_eq_getElem _ _ (by omega)).symm
    · exact (getD_eq_getElem _ _ (by omega)).symm
    · exact (getD_eq_getElem _ _ (by omega)).symm
    · exact (getD_eq_getElem _ _ (by omega)).symm
  rw [loadWord_eq, blockWord, place, drop_bits, show 32 = 8 * 4 from rfl, take_bits, four _ inside]

lemma storeWord_bits (x : Word) : bits (storeWord x) = wordBits x := by
  have low : ∀ n, UInt8.ofNat (x >>> n &&& 0xff).toNat = UInt8.ofNat (x.toNat >>> n) := by
    intro n
    apply UInt8.toNat_inj.mp
    rw [UInt8.toNat_ofNat', UInt8.toNat_ofNat', BitVec.toNat_and, BitVec.toNat_ushiftRight]
    exact (congrArg (· % 256) (and_two_pow_sub_one_eq_mod _ 8)).trans (mod_mod ..)
  simp only [bits, storeWord, flatMap_map, low, byteBits_shift]
  rfl

/-- However a message is cut into pieces, its digest is the one of the standard. -/
theorem sha256_digest (ctx : Sha256Ctx) (pieces : List (List UInt8)) :
    bits (pieces.foldl sha256Update ctx.sha256Init).sha256Final =
      digest (bits pieces.flatten) := by
  have absorbs := updates_absorb (init_absorbs ctx) pieces
  rw [nil_append] at absorbs
  generalize pieces.foldl sha256Update ctx.sha256Init = ctx at absorbs
  generalize pieces.flatten = msg at absorbs
  have blocks : absorbed ((padBytes msg).length / 64) (padBytes msg) = Fips.hash (bits msg) := by
    have count : (bits (padBytes msg)).length / 512 = (padBytes msg).length / 64 := by
      rw [length_bits]
      omega
    rw [Fips.hash, pad_bits, count]
    apply foldl_ext
    intro h i member
    apply compress_congr
    intro t small
    have before := mem_range.mp member
    rw [blockWord_bits (by omega)]
  rw [sha256Final, padData_state absorbs, blocks]
  rw [bits, flatMap_assoc]
  exact congrArg (fun f => flatMap f _) (funext storeWord_bits)

end Znu.Hash
