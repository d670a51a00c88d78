import SourceMetrics.Glob.DoubleStar

/-! # Pieces of globs

A glob is a row of pieces. A group is a piece with a row of pieces for each of its branches;
branches that can only match nothing are left out of it. -/

namespace SourceMetrics

set_option autoImplicit false

namespace Glob

inductive Piece where
  | atom (part : Atom)
  /-- One of several rows of pieces, or nothing where there is none to choose from. -/
  | choice (branches : List (List Piece))

/-- Whether a piece has nothing to match. -/
def Piece.isVoid : Piece → Bool
  | .choice [] => true
  | _ => false

def Piece.group (branches : List (List Piece)) : Piece :=
  .choice (branches.filter fun branch => !branch.all Piece.isVoid)

/-- A row of pieces that is put together from its end, inside a group or outside of all. -/
structure Row where
  /-- The pieces so far of the branch in hand. -/
  branch : List Piece
  later : List (List Piece)

/-- The row with a further piece in front. -/
def Row.add (row : Row) (piece : Piece) : Row :=
  ⟨piece :: row.branch, row.later⟩

/-- Puts a symbol in front of what follows it: the row of the innermost group comes first, those
around it follow. -/
def place (symbol : Symbol) (rows : List Row) : List Row :=
  match symbol, rows with
  | .closeGroup, rows => ⟨[], []⟩ :: rows
  | .comma, row :: outer => ⟨[], row.branch :: row.later⟩ :: outer
  | .openGroup, inner :: row :: outer => row.add (.group (inner.branch :: inner.later)) :: outer
  | .slash, row :: outer => row.add (.atom (.literal '/')) :: outer
  | .atom part, row :: outer => row.add (.atom part) :: outer
  | _, rows => rows

/-- The pieces of a row of symbols in which each group is closed. -/
def rowOf (symbols : List Symbol) : List Piece :=
  match symbols.foldr place [⟨[], []⟩] with
  | row :: _ => row.branch
  | [] => []

end Glob

/-- A glob: what matches a path if its pieces match the whole path one after the other. -/
structure Glob where
  pieces : List Glob.Piece

namespace Glob

/-- The glob with the given pieces. Two stars alone match everything. -/
def ofRow : List Piece → Glob
  | [.atom .leading] => ⟨[.atom .anything]⟩
  | row => ⟨row⟩

/-- The glob that a text spells. -/
def parse? (text : List Char) : Except Fault Glob :=
  (Symbol.read text).map fun symbols => ofRow (rowOf (Symbol.resolve symbols))

end Glob

end SourceMetrics
