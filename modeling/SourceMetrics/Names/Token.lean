import SourceMetrics.Phrase.Scan

/-! # Name tokens

Names are runs of ASCII letters, digits, `_` and `$` that do not begin with a digit. A token is a
name between two edges, so dollar signs that end a name are no part of its token, and one that
begins a name belongs to its token only right behind a word character. -/

namespace SourceMetrics.Names

set_option autoImplicit false

open Text

/-- Whether a character can stand in a name. -/
def inName (c : Char) : Bool :=
  isWord c || c == '$'

/-- Whether a character can begin a name. -/
def beginsName (c : Char) : Bool :=
  inName c && !c.isDigit

/-- The name at the front of a text, if there is one. -/
def name? (text : List Char) : Option (List Char) :=
  if text.head?.any beginsName then some (text.takeWhile inName) else none

/-- A name without the dollar signs that end it. -/
def dropDollars (name : List Char) : List Char :=
  (name.reverse.dropWhile (· == '$')).reverse

def tokenReader : Reader (List Char) := fun before text =>
  if isEdge before text then
    match (name? text).map dropDollars with
    | some (c :: rest) => some (c :: rest, rest.length + 1)
    | _ => none
  else none

/-- The tokens of a text, from left to right. -/
def tokens (text : List Char) : List (List Char) :=
  tokenReader.scan text

/-- Each token of a text once, by first occurrence, with the number of its occurrences. -/
def counts (text : List Char) : List (List Char × Nat) :=
  let found := tokens text
  found.eraseDups.map fun token => (token, found.count token)

end SourceMetrics.Names
