import SourceMetrics.Text.Character

/-! # Phrases

A phrase describes a short stretch of source text as a row of parts: fixed words, runs of blank
characters, names, edges. Each part takes as much text as it can and never gives any back, so a
phrase stands at a place in at most one way. -/

namespace SourceMetrics

set_option autoImplicit false

open Text

/-- One part of a phrase. -/
inductive Phrase.Part where
  /-- An edge between a word character and anything else. Takes no text. -/
  | edge
  | exact (text : String)
  /-- All blank characters that follow, perhaps none. -/
  | blanks
  /-- All blank characters that follow, at least one. -/
  | gap
  /-- All word characters that follow, at least one. -/
  | word
  /-- All characters up to the next `stop` or the end of the text, perhaps none. -/
  | upTo (stop : Char)
deriving DecidableEq, Repr

/-- A row of parts, to be found one right after the other. -/
abbrev Phrase := List Phrase.Part

namespace Phrase

/-- The run of characters in `allowed` at the front of a text, if there is one. -/
def run? (allowed : Char → Bool) (text : List Char) : Option (List Char) :=
  match text.takeWhile allowed with
  | [] => none
  | front => some front

/-- The front of `text` that a part takes, given the character before the text, if any. -/
def Part.front? (before : Option Char) (text : List Char) : Part → Option (List Char)
  | .edge => if isEdge before text then some [] else none
  | .exact fixed => if fixed.toList.isPrefixOf text then some fixed.toList else none
  | .blanks => some (text.takeWhile isBlank)
  | .gap => run? isBlank text
  | .word => run? isWord text
  | .upTo stop => some (text.takeWhile (· != stop))

/-- The front of `text` that a phrase takes, given the character before the text, if any. -/
def front? (before : Option Char) (text : List Char) : Phrase → Option (List Char)
  | [] => some []
  | part :: parts => do
    let first ← part.front? before text
    let others ← front? (first.getLast?.or before) (text.drop first.length) parts
    return first ++ others

end Phrase

end SourceMetrics
