import SourceMetrics.Glob.Piece

/-! # Searches

By how much of a path it can be told whether a glob matches. For many globs a small part at the end
of the path is enough; only for the others the whole path has to be looked at. -/

namespace SourceMetrics.Glob

set_option autoImplicit false

/-- The part of a path by which the match of a glob can be told. -/
inductive Search where
  | name
  | ending
  /-- The extension at the end, and then the whole path for this glob by itself. -/
  | extension
  /-- The whole path, for many globs at once. -/
  | whole
deriving DecidableEq, Repr

/-- Whether a piece is a character. -/
def Piece.isLiteral : Piece → Bool
  | .atom (.literal _) => true
  | _ => false

/-- Whether a piece stays in its segment. -/
def Piece.isWithinSegment : Piece → Bool
  | .atom (.literal c) => c != '/'
  | .atom .any => true
  | .atom .star => true
  | _ => false

/-- Whether a row that is read from its end starts with an extension: a point, and behind it only
characters other than slashes. -/
def startsWithExtension : List Piece → Bool
  | .atom (.literal c) :: row => c == '.' || c != '/' && startsWithExtension row
  | _ => false

/-- The part of a path by which the match of a glob is told. -/
def search (glob : Glob) : Search :=
  let extensionOr (other : Search) : Search :=
    if startsWithExtension glob.pieces.reverse then .extension else other
  match glob.pieces with
  | .atom .leading :: piece :: row =>
    if (piece :: row).all Piece.isWithinSegment then .name
    else if (piece :: row).all Piece.isLiteral then .ending
    else extensionOr .whole
  | _ => extensionOr .whole

end SourceMetrics.Glob
