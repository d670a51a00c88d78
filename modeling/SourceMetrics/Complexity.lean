import SourceMetrics.Phrase.Scan
import SourceMetrics.Sequence

/-! # Complexity

The complexity of a source text is one more than the number of its decision points: branches,
loops, case labels, catch clauses, and logical operators written right behind a word character.
It is a 32-bit number that stays at its greatest value. -/

namespace SourceMetrics.Complexity

set_option autoImplicit false

open Phrase.Part

/-- The phrases that mark a decision point. -/
def decisions : List Phrase :=
  [ [edge, exact "if", blanks, exact "("],
    [edge, exact "for", blanks, exact "("],
    [edge, exact "while", blanks, exact "("],
    [edge, exact "case", gap],
    [edge, exact "catch", blanks, exact "("],
    [edge, exact "&&"],
    [edge, exact "||"] ]

/-- The complexity of a text without decision points. -/
def baseline : Nat := 1

/-- The greatest 32-bit number. -/
def greatest : Nat := Nat.pow 2 32 - 1

/-- A number as a 32-bit number, if it is one. -/
def narrow? (n : Nat) : Option Nat :=
  if n ≤ greatest then some n else none

/-- The sum of two 32-bit numbers, which stays at the greatest one. -/
def addSaturating (a b : Nat) : Nat :=
  if greatest < a + b then greatest else a + b

/-- The number of decision points of a text, each kind counted by itself. -/
def decisionPoints (text : List Char) : Nat :=
  total (fun phrase => phrase.count text) decisions

def ofText (text : List Char) : Nat :=
  let branches := (narrow? (decisionPoints text)).getD (greatest - baseline)
  addSaturating branches baseline

end SourceMetrics.Complexity
