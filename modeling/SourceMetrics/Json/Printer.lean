import SourceMetrics.Json.Value

/-! # Printing JSON

Values are laid out over several lines, two spaces deeper inside each list and object; an empty
list or object stays on its line. In strings the quote, the backslash and the control characters
below U+0020 are escaped and every other character stands for itself. -/

namespace SourceMetrics.Json

set_option autoImplicit false

/-- The hexadecimal digit, in lower case, of a number below sixteen. -/
def hexDigit (n : Nat) : Char :=
  "0123456789abcdef".toList.getD n '0'

/-- A character as it is spelt inside a string. -/
def escape (c : Char) : List Char :=
  if c = '"' then ['\\', '"']
  else if c = '\\' then ['\\', '\\']
  else if 0x20 ≤ c.toNat then [c]
  else if c = '\n' then ['\\', 'n']
  else if c = '\r' then ['\\', 'r']
  else if c = '\t' then ['\\', 't']
  else if c.toNat = 0x08 then ['\\', 'b']
  else if c.toNat = 0x0C then ['\\', 'f']
  else ['\\', 'u', '0', '0', hexDigit (c.toNat / 16), hexDigit (c.toNat % 16)]

def quote (text : String) : List Char :=
  '"' :: text.toList.flatMap escape ++ ['"']

/-- A string in quotes. One that denotes no text is written with the replacement character. -/
def quote? (text : Option String) : List Char :=
  quote (text.getD (String.singleton (Char.ofNat 0xFFFD)))

/-- The start of a new line at a given depth. -/
def newLine (depth : Nat) : List Char :=
  '\n' :: List.replicate (2 * depth) ' '

mutual

/-- The text of a value that stands at a given depth. -/
def print (depth : Nat) : Json → List Char
  | .null => "null".toList
  | .bool true => "true".toList
  | .bool false => "false".toList
  | .number numeral => numeral.text
  | .string text => quote? text
  | .array [] => ['[', ']']
  | .array (item :: items) =>
    '[' :: newLine (depth + 1) ++ print (depth + 1) item ++ printItems (depth + 1) items
      ++ newLine depth ++ [']']
  | .object [] => ['{', '}']
  | .object (member :: members) =>
    '{' :: newLine (depth + 1) ++ printMember (depth + 1) member
      ++ printMembers (depth + 1) members ++ newLine depth ++ ['}']

/-- The text of the items behind the first one. -/
def printItems (depth : Nat) : List Json → List Char
  | [] => []
  | item :: items => ',' :: newLine depth ++ print depth item ++ printItems depth items

def printMember (depth : Nat) : Option String × Json → List Char
  | (name, value) => quote? name ++ [':', ' '] ++ print depth value

/-- The text of the members behind the first one. -/
def printMembers (depth : Nat) : List (Option String × Json) → List Char
  | [] => []
  | member :: members =>
    ',' :: newLine depth ++ printMember depth member ++ printMembers depth members

end

def render (value : Json) : String :=
  String.ofList (print 0 value)

end SourceMetrics.Json
