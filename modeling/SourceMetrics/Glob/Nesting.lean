import SourceMetrics.Glob.Match
import SourceMetrics.Sequence

/-! # Nesting of globs

How deep the constructions of a glob lie inside each other, when each of its rows, groups,
repetitions and character classes counts as one. A glob in which they lie too deep is refused. -/

namespace SourceMetrics.Glob

set_option autoImplicit false

/-- How deep constructions may lie inside each other. -/
def nestingLimit : Nat := 250

/-- How deep the constructions of a part lie. -/
def Atom.depth : Atom → Nat
  | .literal _ => 0
  | .any => 1
  | .star => 2
  | .set _ ranges =>
    if (ranges.flatMap fun range => byteRanges range.1 range.2).length < 2 then 1 else 2
  | .leading => 4
  | .between => 4
  | .trailing => 1
  | .anything => 1

/-- How many items a piece contributes to the row in which it stands. -/
def Piece.width : Piece → Nat
  | .atom (.literal c) => c.utf8Size
  | .atom .trailing => 2
  | .choice [] => 0
  | _ => 1

def rowWidth (row : List Piece) : Nat :=
  total Piece.width row

mutual

/-- How deep the constructions of a piece lie. -/
def Piece.depth : Piece → Nat
  | .atom part => part.depth
  | .choice [] => 0
  | .choice [branch] => 1 + ((if rowWidth branch < 2 then 0 else 1) + rowDepth branch)
  | .choice (branch :: other :: branches) =>
    2 + max ((if rowWidth branch < 2 then 0 else 1) + rowDepth branch)
      (branchDepth (other :: branches))

/-- How deep the constructions of the pieces of a row lie. -/
def rowDepth : List Piece → Nat
  | [] => 0
  | piece :: row => max piece.depth (rowDepth row)

/-- How deep the constructions of several rows lie. -/
def branchDepth : List (List Piece) → Nat
  | [] => 0
  | branch :: branches =>
    max ((if rowWidth branch < 2 then 0 else 1) + rowDepth branch) (branchDepth branches)

end

/-- Whether the constructions of a glob lie too deep inside each other. -/
def isTooDeep (glob : Glob) : Bool :=
  nestingLimit < 1 + rowDepth glob.pieces

end SourceMetrics.Glob
