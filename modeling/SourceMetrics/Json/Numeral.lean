import SourceMetrics.Decimal.Shortest

/-! # JSON numerals

A number as a JSON text spells it. Counts are written in plain digits. A double is written with
its shortest digits, always with a fraction or an exponent: in positions from 10⁻⁵ up to below
10¹⁶, with an exponent outside that range.

A double is read in two steps: the leading digits that fit in 64 bits are rounded to a double,
which is then multiplied or divided by a power of ten. -/

namespace SourceMetrics.Json

set_option autoImplicit false

structure Numeral where
  negative : Bool
  /-- The digits before the point, at least one. -/
  whole : List Char
  /-- The digits behind the point. No point is written if there are none. -/
  fraction : List Char
  /-- The exponent, if one is written. -/
  exponent : Option Int
deriving DecidableEq, Repr, Inhabited

namespace Numeral

/-! ## Writing -/

def ofNat (n : Nat) : Numeral :=
  ⟨false, Nat.toDigits 10 n, [], none⟩

/-- A decimal, with its digits laid out as numerals of doubles are. -/
def ofDecimal (negative : Bool) (d : Decimal) : Numeral :=
  let digits := Nat.toDigits 10 d.digits
  let leading : Int := d.exponent + digits.length - 1
  if 0 ≤ leading ∧ leading < 16 then
    let whole := digits.take (leading.toNat + 1)
    let fraction := digits.drop (leading.toNat + 1)
    ⟨negative, whole ++ List.replicate (leading.toNat + 1 - digits.length) '0',
      if fraction.isEmpty then ['0'] else fraction, none⟩
  else if -5 ≤ leading ∧ leading < 0 then
    ⟨negative, ['0'], List.replicate ((-leading).toNat - 1) '0' ++ digits, none⟩
  else
    ⟨negative, digits.take 1, digits.drop 1, some leading⟩

/-- The numeral of a finite double. -/
def ofFloat (x : Float) : Numeral :=
  let size := Binary.ofBits x.toBits
  if size.mantissa = 0 then ⟨hasSign x, ['0'], ['0'], none⟩
  else ofDecimal (hasSign x) (Decimal.shortest size)

/-- The text of an exponent, always with a sign. -/
def exponentText (exponent : Int) : List Char :=
  'e' :: (if exponent < 0 then '-' else '+') :: Nat.toDigits 10 exponent.natAbs

def text (n : Numeral) : List Char :=
  (if n.negative then ['-'] else []) ++ n.whole
    ++ (if n.fraction.isEmpty then [] else '.' :: n.fraction)
    ++ (n.exponent.map exponentText).getD []

/-! ## Values -/

def digitValue (c : Char) : Nat :=
  c.toNat - '0'.toNat

/-- The natural number that the numeral spells, if it has no sign, no fraction and no exponent. -/
def toNat? (n : Numeral) : Option Nat :=
  if !n.negative && n.fraction.isEmpty && n.exponent.isNone then
    some (n.whole.foldl (fun value c => 10 * value + digitValue c) 0)
  else none

/-- Appends digits to a number for as long as it fits in 64 bits. Answers with the number and the
digits left over. -/
def appendDigits (value : Nat) : List Char → Nat × List Char
  | [] => (value, [])
  | c :: rest =>
    if 10 * value + digitValue c < Nat.pow 2 64 then appendDigits (10 * value + digitValue c) rest
    else (value, c :: rest)

/-- The greatest power of ten that is a double. -/
def greatestPower : Nat := 308

def power (exponent : Nat) : Float :=
  Float.ofScientific 1 false exponent

/-- A double divided by a power of ten, in several steps if the power itself is no double. -/
def divide (x : Float) (exponent : Nat) : Float :=
  if exponent ≤ greatestPower then x / power exponent
  else if x == 0.0 then x
  else divide (x / power greatestPower) (exponent - greatestPower)
termination_by exponent
decreasing_by simp [greatestPower] at *; omega

/-- A double multiplied by a power of ten, unless the product is too large. -/
def multiply? (x : Float) (exponent : Nat) : Option Float :=
  if exponent ≤ greatestPower then
    let product := x * power exponent
    if product.isInf then none else some product
  else if x == 0.0 then some x
  else none

/-- The double that the numeral is read as, unless it is too large. -/
def toFloat? (n : Numeral) : Option Float := do
  let (whole, wholeRest) := appendDigits 0 n.whole
  let (value, fractionRest) := appendDigits whole n.fraction
  let places : Int := n.fraction.length - fractionRest.length
  let exponent : Int := wholeRest.length - places + n.exponent.getD 0
  let size ←
    if exponent < 0 then some (divide (Float.ofNat value) (-exponent).toNat)
    else multiply? (Float.ofNat value) exponent.toNat
  return if n.negative then -size else size

end Numeral

end SourceMetrics.Json
