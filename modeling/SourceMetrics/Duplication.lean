import SourceMetrics.Lines

/-! # Duplication

The share of the lines with content that repeat an earlier line, character by character. -/

namespace SourceMetrics

set_option autoImplicit false

/-- How much of a file repeats itself. -/
structure Duplication where
  /-- The share of repeated lines among the lines with content, in percent. -/
  percentage : Float
  /-- The number of duplicated lines. Reserved: an analysis leaves it at zero. -/
  duplicatedLines : Nat
deriving Repr, Inhabited

namespace Duplication

def zero : Duplication := ⟨0.0, 0⟩

/-- The lines of a text that are not blank, as they stand. -/
def contentLines (text : List Char) : List (List Char) :=
  (Lines.ofText text).filter fun line => !Lines.isBlankLine line

/-- The number of lines that repeat an earlier one. -/
def repeated (lines : List (List Char)) : Nat :=
  lines.length - lines.eraseDups.length

/-- The duplication of a text. A text without content has none. -/
def ofText (text : List Char) : Duplication :=
  let lines := contentLines text
  if lines.isEmpty then zero
  else ⟨Float.ofNat (repeated lines) / Float.ofNat lines.length * 100.0, 0⟩

end Duplication

end SourceMetrics
