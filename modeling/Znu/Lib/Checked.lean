import Znu.Lib.Layout

/-! # Checked reads

A read of a buffer stops the run when it is outside. A run that ends without a fault has read
nothing but the buffer.
-/

namespace Znu.Lib

/-- Why a run stops before its end. -/
inductive Fault where
  | outside
  | fuel
  deriving DecidableEq

namespace Bytes

variable {m : Bytes} {limit i n : Nat}

def get (m : Bytes) (limit i : Nat) : Except Fault UInt8 :=
  if i < limit then .ok (m i) else .error .outside

end Bytes

/-- The two bytes of a number, the high one first. -/
def bigEndian16 (n : Nat) : List UInt8 := [UInt8.ofNat (n / 256), UInt8.ofNat n]

end Znu.Lib
