import SourceMetrics.Decimal.Binary

/-! # Shortest decimals

`Decimal.shortest` finds the decimal with the fewest digits that reads back as a given double; of
several it takes the one nearest to the double, and of two equally near the even one. The real
numbers that round to a double form an interval around it, whose ends belong to it exactly when the
mantissa is even. For one, two, … seventeen digits the two decimals next to the value are tried. -/

namespace SourceMetrics

set_option autoImplicit false

/-- The decimal number `digits * 10 ^ exponent`. -/
structure Decimal where
  digits : Nat
  /-- The power of ten by which they are scaled. -/
  exponent : Int
deriving DecidableEq, Repr

namespace Decimal

/-- How `digits * 10 ^ exponent` compares with `mantissa * 2 ^ scale`. -/
def compareBinary (d : Decimal) (mantissa : Nat) (scale : Int) : Ordering :=
  compare (d.digits * Nat.pow 10 d.exponent.toNat * Nat.pow 2 (-scale).toNat)
    (mantissa * Nat.pow 2 scale.toNat * Nat.pow 10 (-d.exponent).toNat)

/-- Whether a decimal lies among the real numbers that round to `x`. -/
def readsBack (x : Binary) (d : Decimal) : Bool :=
  let closed := x.mantissa % 2 == 0
  let low := 4 * x.mantissa - (if x.narrowBelow then 1 else 2)
  let above := d.compareBinary low (x.exponent - 2)
  let below := d.compareBinary (4 * x.mantissa + 2) (x.exponent - 2)
  (above == .gt || closed && above == .eq) && (below == .lt || closed && below == .eq)

/-- The number of decimal digits of a natural number; zero has one. -/
def digitCount (n : Nat) : Nat :=
  (Nat.toDigits 10 n).length

/-- The number of digits of a positive value before its decimal point, negative if zeros follow the
point. -/
def scale (x : Binary) : Int :=
  if x.denominator ≤ x.numerator then digitCount (x.numerator / x.denominator)
  else 1 - (digitCount ((x.denominator - 1) / x.numerator) : Int)

/-- The better of the two multiples of `10 ^ exponent` next to the value, if one reads back. -/
def nearest? (x : Binary) (exponent : Int) : Option Decimal :=
  let numerator := x.numerator * Nat.pow 10 (-exponent).toNat
  let denominator := x.denominator * Nat.pow 10 exponent.toNat
  let below : Decimal := ⟨numerator / denominator, exponent⟩
  let above : Decimal := ⟨numerator / denominator + 1, exponent⟩
  match readsBack x below, readsBack x above with
  | false, false => none
  | true, false => some below
  | false, true => some above
  | true, true =>
    match compare (2 * (numerator % denominator)) denominator with
    | .lt => some below
    | .gt => some above
    | .eq => some (if below.digits % 2 = 0 then below else above)

/-- The decimal with `zeros` fewer zeros at the end of its digits, or as many fewer as it has. -/
def dropZeros : (zeros : Nat) → Decimal → Decimal
  | 0, d => d
  | zeros + 1, d =>
    if d.digits % 10 = 0 then dropZeros zeros ⟨d.digits / 10, d.exponent + 1⟩ else d

/-- The value itself as a decimal. -/
def exactly (x : Binary) : Decimal :=
  ⟨x.mantissa * Nat.pow 2 x.exponent.toNat * Nat.pow 5 (-x.exponent).toNat, -(-x.exponent).toNat⟩

/-- The shortest decimal for a positive value. -/
def shortest (x : Binary) : Decimal :=
  let found := (List.range 17).findSome? fun places : Nat => nearest? x (scale x - 1 - places)
  dropZeros 17 (found.getD (exactly x))

end Decimal

end SourceMetrics
