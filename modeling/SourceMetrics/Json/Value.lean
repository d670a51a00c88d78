import SourceMetrics.Json.Numeral

/-! # JSON values

A JSON value as a tree. Strings may name code units that belong to no character: an escape can
spell half of a surrogate pair. Such a string denotes no text. -/

namespace SourceMetrics

set_option autoImplicit false

/-- A JSON value. The text of a string, also of a member's name, is `none` when an escape in it
spells half of a surrogate pair. -/
inductive Json where
  | null
  | bool (value : Bool)
  /-- A number, as it is spelt. -/
  | number (numeral : Json.Numeral)
  | string (text : Option String)
  | array (items : List Json)
  /-- A list of named values. Names may be repeated. -/
  | object (members : List (Option String × Json))

namespace Json

def ofString (text : String) : Json :=
  .string (some text)

/-- The number that counts something. -/
def ofNat (n : Nat) : Json :=
  .number (.ofNat n)

/-- The number with the value of a double, or `null` if the double is not finite. -/
def ofFloat (x : Float) : Json :=
  if x.isFinite then .number (.ofFloat x) else .null

def ofStrings (texts : List String) : Json :=
  .array (texts.map ofString)

/-- The value, or `null` if there is none. -/
def ofOption (value : Option Json) : Json :=
  value.getD .null

def ofMembers (members : List (String × Json)) : Json :=
  .object (members.map fun entry => (some entry.1, entry.2))

end Json

end SourceMetrics
