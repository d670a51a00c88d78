/-! # Doubles as exact numbers

A finite double is a natural number times a power of two. The functions here take a double apart
by its bits, so that its decimal forms can be found in exact arithmetic. -/

namespace SourceMetrics

set_option autoImplicit false

/-- The size of a finite double, `mantissa * 2 ^ exponent`. -/
structure Binary where
  mantissa : Nat
  /-- The power of two by which they are scaled. -/
  exponent : Int
  /-- Whether the next smaller double is only half as far away as the next greater one. -/
  narrowBelow : Bool
deriving DecidableEq, Repr

namespace Binary

/-- The size of the finite double with the given bits; the sign bit is passed over. -/
def ofBits (bits : UInt64) : Binary :=
  let exponent := ((bits >>> 52) &&& 0x7FF).toNat
  let fraction := (bits &&& 0xFFFFFFFFFFFFF).toNat
  if exponent = 0 then ⟨fraction, -1074, false⟩
  else ⟨Nat.pow 2 52 + fraction, exponent - 1075, fraction == 0 && 1 < exponent⟩

/-- The numerator of the size as a fraction. -/
def numerator (x : Binary) : Nat :=
  x.mantissa * Nat.pow 2 x.exponent.toNat

/-- The denominator of the size as a fraction. -/
def denominator (x : Binary) : Nat :=
  Nat.pow 2 (-x.exponent).toNat

end Binary

/-- Whether the sign bit of a double is set, which it is for the negative zero as well. -/
def hasSign (x : Float) : Bool :=
  x.toBits >>> 63 == 1

end SourceMetrics
