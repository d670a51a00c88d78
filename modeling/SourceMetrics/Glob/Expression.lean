import SourceMetrics.Glob.Piece

/-! # Regular expressions of globs

Each glob stands for a regular expression on the bytes of a path, by which it is named where it
cannot be used. A character beyond ASCII is spelt by its bytes. -/

namespace SourceMetrics.Glob

set_option autoImplicit false

/-- Whether a character has a meaning of its own in regular expressions. -/
def isMeta (c : Char) : Bool :=
  "\\.+*?()|[]\x7b\x7d^$#&-~".toList.contains c

/-- A character in a regular expression. -/
def spell (c : Char) : List Char :=
  if isMeta c then ['\\', c]
  else if c.toNat < 0x80 then [c]
  else (String.utf8EncodeChar c).flatMap fun byte => '\\' :: 'x' :: Nat.toDigits 16 byte.toNat

/-- A range of characters in a regular expression. -/
def spellRange (low high : Char) : List Char :=
  if low = high then spell low else spell low ++ '-' :: spell high

/-- The regular expression of a part. -/
def Atom.expression : Atom → List Char
  | .literal c => spell c
  | .any => "[^/]".toList
  | .star => "[^/]*".toList
  | .set negated ranges =>
    let inside := ranges.flatMap fun range => spellRange range.1 range.2
    (if negated then "[^" else "[").toList ++ inside ++ [']']
  | .leading => "(?:/?|.*/)".toList
  | .between => "(?:/|/.*/)".toList
  | .trailing => "/.*".toList
  | .anything => ".*".toList

mutual

def Piece.expression : Piece → List Char
  | .atom part => part.expression
  | .choice [] => []
  | .choice (branch :: branches) =>
    "(?:".toList ++ rowExpression branch ++ branchExpressions branches ++ [')']

def rowExpression : List Piece → List Char
  | [] => []
  | piece :: row => piece.expression ++ rowExpression row

/-- The regular expressions of branches, with a bar in front of each. -/
def branchExpressions : List (List Piece) → List Char
  | [] => []
  | branch :: branches => '|' :: (rowExpression branch ++ branchExpressions branches)

end

/-- The regular expression of a glob, which the whole path has to match. -/
def expression (glob : Glob) : String :=
  String.ofList ("(?-u)^".toList ++ rowExpression glob.pieces ++ ['$'])

end SourceMetrics.Glob
