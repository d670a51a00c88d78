import SourceMetrics.Json.Value

/-! # Structures in JSON

A structure is an object with its fields by name, in any order, next to members of other names, or
a list of exactly its fields in their order. A field that is given twice is refused. -/

namespace SourceMetrics.Json

set_option autoImplicit false

/-- The value of the member with the given name, `none` inside if there is no such member. Fails
if there are several. -/
def member? (members : List (Option String × Json)) (name : String) : Option (Option Json) :=
  match members.filter fun entry => entry.1 == some name with
  | [] => some none
  | [entry] => some (some entry.2)
  | _ => none

/-- The fields of a structure in the order of `names`, each `none` if it is not given. -/
def fields? (names : List String) : Json → Option (List (Option Json))
  | .array items => if items.length = names.length then some (items.map some) else none
  | .object members =>
    if members.all fun entry => entry.1.isSome then names.mapM (member? members) else none
  | _ => none

/-- A natural number below `bound`. -/
def toNat? (bound : Nat) : Json → Option Nat
  | .number numeral => numeral.toNat?.filter (· < bound)
  | _ => none

/-- A natural number of 64 bits. -/
def toCount? : Json → Option Nat :=
  toNat? (Nat.pow 2 64)

def toFloat? : Json → Option Float
  | .number numeral => numeral.toFloat?
  | _ => none

def toText? : Json → Option String
  | .string text => text
  | _ => none

def toTexts? : Json → Option (List String)
  | .array items => items.mapM toText?
  | _ => none

/-- The value of a field that may be missing or `null`. -/
def optional? {α : Type} (read? : Json → Option α) : Option Json → Option (Option α)
  | none => some none
  | some .null => some none
  | some value => (read? value).map some

end SourceMetrics.Json
