import SourceMetrics.Sequence
import SourceMetrics.Text.Character

/-! # Lines

The lines of a source text and what they are: blank, code, comment. A line may be code and comment
at once, when a block comment stands beside code. -/

namespace SourceMetrics

set_option autoImplicit false

open Text

/-- How many lines a text has, and how many of each kind. -/
structure LineCounts where
  total : Nat
  /-- Lines with content that does not open with a comment marker. -/
  code : Nat
  /-- Lines that open with a comment marker or hold a delimiter of a block comment. -/
  comment : Nat
  /-- Lines of blank characters and byte order marks only. -/
  blank : Nat
deriving DecidableEq, Repr, Inhabited

namespace Lines

/-- The lines of a text: its parts between line feeds. The empty text has no line. -/
def ofText (text : List Char) : List (List Char) :=
  if text.isEmpty then [] else split '\n' text

/-- The line without blank characters and byte order marks at its ends. -/
def trimmed (line : List Char) : List Char :=
  trimEnds (fun c => isBlank c || c == byteOrderMark) line

/-- Whether a line, already trimmed, opens with `//`, `/*` or `*`. -/
def opensComment : List Char → Bool
  | '/' :: '/' :: _ => true
  | '/' :: '*' :: _ => true
  | '*' :: _ => true
  | _ => false

/-- Whether a line holds an opening or closing delimiter of a block comment. -/
def holdsDelimiter (line : List Char) : Bool :=
  occurs ['/', '*'] line || occurs ['*', '/'] line

/-- Whether a line has nothing but blank characters and byte order marks. -/
def isBlankLine (line : List Char) : Bool :=
  (trimmed line).isEmpty

/-- Whether a line has content that does not open with a comment marker. -/
def isCode (line : List Char) : Bool :=
  !isBlankLine line && !opensComment (trimmed line)

/-- Whether a line opens with a comment marker or holds a delimiter of a block comment. -/
def isComment (line : List Char) : Bool :=
  opensComment (trimmed line) || holdsDelimiter line

end Lines

def LineCounts.ofText (text : List Char) : LineCounts where
  total := (Lines.ofText text).length
  code := (Lines.ofText text).countP Lines.isCode
  comment := (Lines.ofText text).countP Lines.isComment
  blank := (Lines.ofText text).countP Lines.isBlankLine

end SourceMetrics
