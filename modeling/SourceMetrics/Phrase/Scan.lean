import SourceMetrics.Phrase.Basic

/-! # Scanning a text

`scan` tries a reader at each place of a text from left to right. Where the reader succeeds its
value is kept and the scan goes on behind what was read, so that findings never overlap; where it
fails the scan goes on one character later. -/

namespace SourceMetrics

set_option autoImplicit false

/-- Looks at one place of a text, given the character before it, if any, and the text from there
on. Answers with a value and the number of characters it covers. -/
abbrev Reader (α : Type) := Option Char → List Char → Option (α × Nat)

namespace Reader

variable {α : Type}

/-- The findings in `text`, where the first `skip` characters are already covered. -/
def scanFrom (reader : Reader α) : (skip : Nat) → (before : Option Char) → List Char → List α
  | _, _, [] => []
  | skip + 1, _, c :: rest => scanFrom reader skip (some c) rest
  | 0, before, c :: rest =>
    match reader before (c :: rest) with
    | some (value, covered) => value :: scanFrom reader (covered - 1) (some c) rest
    | none => scanFrom reader 0 (some c) rest

/-- The findings in a text, from left to right. -/
def scan (reader : Reader α) (text : List Char) : List α :=
  reader.scanFrom 0 none text

end Reader

namespace Phrase

/-- Reads the text a phrase takes. -/
def reader (phrase : Phrase) : Reader (List Char) := fun before text =>
  (phrase.front? before text).map fun front => (front, front.length)

/-- The number of places where the phrase is found, no two of which overlap. -/
def count (phrase : Phrase) (text : List Char) : Nat :=
  (phrase.reader.scan text).length

/-- Whether the phrase is found anywhere in the text. -/
def isFound (phrase : Phrase) (text : List Char) : Bool :=
  0 < phrase.count text

end Phrase

end SourceMetrics
