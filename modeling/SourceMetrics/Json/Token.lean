import SourceMetrics.Json.Value

/-! # JSON tokens

A JSON text as a row of marks, words, numerals and strings. Spaces, tabs, line feeds and carriage
returns between tokens carry no meaning. -/

namespace SourceMetrics.Json

set_option autoImplicit false

/-- A token of a JSON text. -/
inductive Token where
  | openArray
  | closeArray
  /-- The mark that begins an object. -/
  | openObject
  /-- The mark that ends an object. -/
  | closeObject
  | comma
  | colon
  /-- One of the words `null`, `true`, `false`, a numeral or a string, as the value it stands for. -/
  | scalar (value : Json)

namespace Token

/-- Whether a character may stand between tokens. -/
def isSpace (c : Char) : Bool :=
  c == ' ' || c == '\t' || c == '\n' || c == '\r'

/-! ## Numerals -/

/-- The digits at the front of a text, if there are any. -/
def digits? (text : List Char) : Option (List Char) :=
  match text.takeWhile Char.isDigit with
  | [] => none
  | digits => some digits

/-- The digits before the point: `0`, or digits that do not begin with it. -/
def whole? : List Char → Option (List Char)
  | '0' :: _ => some ['0']
  | text => digits? text

/-- The digits behind the point, if there is a point, and what follows. -/
def fraction? : List Char → Option (List Char × List Char)
  | '.' :: rest => do
    let digits ← digits? rest
    return (digits, rest.drop digits.length)
  | text => some ([], text)

/-- The exponent, if there is one, and what follows. -/
def exponent? : List Char → Option (Option Int × List Char)
  | mark :: rest =>
    if mark = 'e' ∨ mark = 'E' then do
      let (negative, rest) := match rest with
        | '-' :: rest => (true, rest)
        | '+' :: rest => (false, rest)
        | rest => (false, rest)
      let digits ← digits? rest
      let size : Int := digits.foldl (fun value c => 10 * value + Numeral.digitValue c) 0
      return (some (if negative then -size else size), rest.drop digits.length)
    else some (none, mark :: rest)
  | [] => some (none, [])

/-- The numeral at the front of a text, and what follows. -/
def numeral? (text : List Char) : Option (Numeral × List Char) := do
  let (negative, rest) := match text with
    | '-' :: rest => (true, rest)
    | rest => (false, rest)
  let whole ← whole? rest
  let (fraction, rest) ← fraction? (rest.drop whole.length)
  let (exponent, rest) ← exponent? rest
  return (⟨negative, whole, fraction, exponent⟩, rest)

/-! ## Strings -/

/-- The value of a hexadecimal digit of either case. -/
def hexValue? (c : Char) : Option Nat :=
  if c.isDigit then some (c.toNat - '0'.toNat)
  else if 'a' ≤ c ∧ c ≤ 'f' then some (c.toNat - 'a'.toNat + 10)
  else if 'A' ≤ c ∧ c ≤ 'F' then some (c.toNat - 'A'.toNat + 10)
  else none

/-- The code of the character that a backslash and a letter stand for. -/
def escapedCode? (c : Char) : Option Nat :=
  if c = '"' ∨ c = '\\' ∨ c = '/' then some c.toNat
  else if c = 'b' then some 0x08
  else if c = 'f' then some 0x0C
  else if c = 'n' then some 0x0A
  else if c = 'r' then some 0x0D
  else if c = 't' then some 0x09
  else none

/-- The codes in a string behind its opening quote, and what follows the closing one. -/
def codes? : List Char → Option (List Nat × List Char)
  | [] => none
  | '"' :: rest => some ([], rest)
  | '\\' :: 'u' :: a :: b :: c :: d :: rest => do
    let upper := (← hexValue? a) * 16 + (← hexValue? b)
    let lower := (← hexValue? c) * 16 + (← hexValue? d)
    let (codes, rest) ← codes? rest
    return ((upper * 256 + lower) :: codes, rest)
  | '\\' :: c :: rest => do
    let code ← escapedCode? c
    let (codes, rest) ← codes? rest
    return (code :: codes, rest)
  | c :: rest =>
    if c.toNat < 0x20 then none
    else do
      let (codes, rest) ← codes? rest
      return (c.toNat :: codes, rest)

/-- The characters that codes stand for. A high and a low half of a surrogate pair make one
character together; a half that stands by itself makes none. -/
def chars? : List Nat → Option (List Char)
  | [] => some []
  | high :: low :: rest =>
    if 0xD800 ≤ high ∧ high < 0xDC00 then
      if 0xDC00 ≤ low ∧ low < 0xE000 then
        (chars? rest).map (Char.ofNat (0x10000 + (high - 0xD800) * 0x400 + (low - 0xDC00)) :: ·)
      else none
    else if 0xDC00 ≤ high ∧ high < 0xE000 then none
    else (chars? (low :: rest)).map (Char.ofNat high :: ·)
  | [code] => if 0xD800 ≤ code ∧ code < 0xE000 then none else some [Char.ofNat code]

/-! ## Texts -/

/-- The word `word` at the front of a text stands for `value`. -/
def word? (word : String) (value : Json) (text : List Char) : Option (Token × List Char) :=
  if word.toList.isPrefixOf text then some (.scalar value, text.drop word.length) else none

/-- The token at the front of a text, and what follows. -/
def next? (text : List Char) : Option (Token × List Char) :=
  match text with
  | '[' :: rest => some (.openArray, rest)
  | ']' :: rest => some (.closeArray, rest)
  | '{' :: rest => some (.openObject, rest)
  | '}' :: rest => some (.closeObject, rest)
  | ',' :: rest => some (.comma, rest)
  | ':' :: rest => some (.colon, rest)
  | 'n' :: _ => word? "null" .null text
  | 't' :: _ => word? "true" (.bool true) text
  | 'f' :: _ => word? "false" (.bool false) text
  | '"' :: rest => (codes? rest).map fun found =>
    (.scalar (.string ((chars? found.1).map String.ofList)), found.2)
  | _ => (numeral? text).map fun found => (.scalar (.number found.1), found.2)

/-- The tokens of a text, read in at most `fuel` steps. -/
def readFrom? : (fuel : Nat) → List Char → Option (List Token)
  | _, [] => some []
  | 0, _ :: _ => none
  | fuel + 1, c :: text =>
    if isSpace c then readFrom? fuel text
    else do
      let (token, rest) ← next? (c :: text)
      return token :: (← readFrom? fuel rest)

/-- The tokens of a text. Each step takes up a character at least. -/
def read? (text : List Char) : Option (List Token) :=
  readFrom? text.length text

end Token

end SourceMetrics.Json
