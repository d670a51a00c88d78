import SourceMetrics.Decimal.Binary

/-! # Decimals with a fixed number of places

The exact value of a double, rounded to a given number of decimal places. A value halfway between
two decimals goes to the one with the even last digit. -/

namespace SourceMetrics.Decimal

set_option autoImplicit false

/-- The quotient rounded to the nearest natural number, and to the even one of two equally near. -/
def roundQuotient (numerator denominator : Nat) : Nat :=
  let below := numerator / denominator
  match compare (2 * (numerator % denominator)) denominator with
  | .lt => below
  | .gt => below + 1
  | .eq => if below % 2 = 0 then below else below + 1

/-- A natural number of units of the last place, written with a decimal point. -/
def placesText (places units : Nat) : String :=
  let fraction := toString (units % Nat.pow 10 places)
  let zeros := "".pushn '0' (places - fraction.length)
  toString (units / Nat.pow 10 places) ++ "." ++ zeros ++ fraction

/-- A double with a fixed, positive number of decimal places. -/
def withPlaces (places : Nat) (x : Float) : String :=
  if x.isNaN then "NaN"
  else
    let sign := if hasSign x then "-" else ""
    if x.isInf then sign ++ "inf"
    else
      let size := Binary.ofBits x.toBits
      sign ++ placesText places
        (roundQuotient (size.numerator * Nat.pow 10 places) size.denominator)

end SourceMetrics.Decimal
