import Znu.Lib.Bytes

/-! # Formatted output into a buffer -/

namespace Znu.Libc

open Lib List

structure SnprintfCtx where
  buf : Bytes
  size : Nat
  written : Nat

def snPutc (ctx : SnprintfCtx) (c : UInt8) : SnprintfCtx :=
  { ctx with
    buf := if ctx.written < ctx.size - 1 then Function.update ctx.buf ctx.written c else ctx.buf
    written := ctx.written + 1 }

/-- The bytes from `str` on and the result, when `base_vprintf` emits these characters. -/
def vsnprintf (str : Bytes) (size : Nat) (emitted : List UInt8) : Bytes × Int32 :=
  if size = 0 then (str, 0)
  else
    let ctx := emitted.foldl snPutc ⟨str, size, 0⟩
    let last := if ctx.written < ctx.size then ctx.written else ctx.size - 1
    (Function.update ctx.buf last 0, Int32.ofNat ctx.written)

lemma foldl_snPutc (str : Bytes) (size : Nat) (emitted : List UInt8) :
    emitted.foldl snPutc ⟨str, size, 0⟩ =
      { buf := str.store 0 (min emitted.length (size - 1)) (emitted.getD · 0)
        size
        written := emitted.length } := by
  induction emitted using reverseRecOn with
  | nil => congr 1
  | append_singleton emitted c ih =>
    rw [foldl_append, ih]
    simp only [foldl_cons, foldl_nil, snPutc, length_append, length_singleton]
    congr 1
    funext x
    grind [Bytes.store]

/-- The characters that fit are stored with a zero behind them, nothing else is written, and the
    result is the number of all characters. -/
theorem vsnprintf_spec (str : Bytes) (size : Nat) (room : 0 < size) (emitted : List UInt8)
    (short : emitted.length < 2 ^ 31) :
    (vsnprintf str size emitted).1 = str.store 0 (min emitted.length (size - 1) + 1)
        ((emitted.take (size - 1) ++ [0]).getD · 0) ∧
      (vsnprintf str size emitted).2.toInt = emitted.length := by
  rw [vsnprintf, if_neg (by omega), foldl_snPutc]
  refine ⟨funext fun x => ?_, Int32.toInt_ofNat_of_lt short⟩
  grind [Bytes.store]

/-- Three of four characters fit. -/
theorem vsnprintf_cut : (vsnprintf (fun _ => 7) 4 [65, 66, 67, 68]).2.toInt = 4 :=
  (vsnprintf_spec _ 4 (by decide) [65, 66, 67, 68] (by decide)).2

end Znu.Libc
