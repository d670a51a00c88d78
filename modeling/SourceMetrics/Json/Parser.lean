import SourceMetrics.Json.Token

/-! # Reading JSON

A text is read token by token: exactly one value, and nothing behind it. Nesting may be as deep as
the text is long. -/

namespace SourceMetrics.Json

set_option autoImplicit false

open Token

mutual

/-- The value at the front of a row of tokens, and what follows. Takes at most `fuel` steps. -/
def value? : (fuel : Nat) → List Token → Option (Json × List Token)
  | 0, _ => none
  | fuel + 1, tokens =>
    match tokens with
    | scalar value :: rest => some (value, rest)
    | openArray :: closeArray :: rest => some (.array [], rest)
    | openArray :: rest => (items? fuel rest).map fun found => (.array found.1, found.2)
    | openObject :: closeObject :: rest => some (.object [], rest)
    | openObject :: rest => (members? fuel rest).map fun found => (.object found.1, found.2)
    | _ => none

/-- The items of a list up to its end, and what follows. -/
def items? : (fuel : Nat) → List Token → Option (List Json × List Token)
  | 0, _ => none
  | fuel + 1, tokens => do
    let (item, rest) ← value? fuel tokens
    match rest with
    | closeArray :: rest => some ([item], rest)
    | comma :: rest => do
      let (items, rest) ← items? fuel rest
      return (item :: items, rest)
    | _ => none

/-- The members of an object up to its end, and what follows. -/
def members? : (fuel : Nat) → List Token → Option (List (Option String × Json) × List Token)
  | 0, _ => none
  | fuel + 1, tokens =>
    match tokens with
    | scalar (.string name) :: colon :: rest => do
      let (value, rest) ← value? fuel rest
      match rest with
      | closeObject :: rest => some ([(name, value)], rest)
      | comma :: rest => do
        let (members, rest) ← members? fuel rest
        return ((name, value) :: members, rest)
      | _ => none
    | _ => none

end

/-- The value that a text spells. -/
def parse? (text : List Char) : Option Json := do
  let tokens ← Token.read? text
  match ← value? (tokens.length + 1) tokens with
  | (value, []) => some value
  | _ => none

end SourceMetrics.Json
