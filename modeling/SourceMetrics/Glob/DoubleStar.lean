import SourceMetrics.Glob.Symbol

/-! # Double stars

Two stars in a row cross directories where they make up a whole segment: at the start of a branch
and followed by a slash or the end of the glob, or behind a slash and followed by a slash or the
end of the branch. They then replace the slash in front of them and take up the slash behind them.
Everywhere else each of them is a star of its own. In a group an escaped comma or opening mark has
the place of a slash in front of two stars. -/

namespace SourceMetrics.Glob.Symbol

set_option autoImplicit false

/-- What stands before a symbol in its branch. -/
inductive Before where
  | start
  /-- Something that two stars leave as it is. -/
  | other
  /-- A part that two stars may replace, and that is therefore kept back. -/
  | held (atom : Atom)
deriving Repr

/-- The part that was kept back, as a symbol. -/
def Before.release : Before → List Symbol
  | .held part => [.atom part]
  | _ => []

/-- Whether two stars behind this character replace it: a slash, or in a group also a comma or an
opening mark. Such a character has been escaped. -/
def isReplaced (depth : Nat) (c : Char) : Bool :=
  c == '/' || 0 < depth && (c == ',' || c == '{')

/-- Whether a branch ends in front of the symbols. -/
def isBranchEnd : List Symbol → Bool
  | [] => true
  | .comma :: _ => true
  | .closeGroup :: _ => true
  | _ => false

/-- A part in front of two stars and a slash, after it was replaced. -/
def crossing : Atom → Atom
  | .leading => .leading
  | _ => .between

/-- A part in front of two stars at the end of a branch, after it was replaced. -/
def closing : Atom → Atom
  | .leading => .leading
  | _ => .trailing

/-- The symbols with double stars resolved, inside `depth` groups and behind `before`. -/
def resolveFrom : (depth : Nat) → (before : Before) → List Symbol → List Symbol
  | _, before, [] => before.release
  | depth, .start, .atom .star :: .atom .star :: .slash :: rest =>
    resolveFrom depth (.held .leading) rest
  | _, .start, [.atom .star, .atom .star] => [.atom .leading]
  | depth, .held part, .atom .star :: .atom .star :: .slash :: rest =>
    resolveFrom depth (.held (crossing part)) rest
  | depth, .held part, .atom .star :: .atom .star :: rest =>
    if isBranchEnd rest then .atom (closing part) :: resolveFrom depth .other rest
    else .atom part :: .atom .star :: .atom .star :: resolveFrom depth .other rest
  | depth, before, .slash :: rest =>
    before.release ++ resolveFrom depth (.held (.literal '/')) rest
  | depth, before, .atom (.literal c) :: rest =>
    if isReplaced depth c then before.release ++ resolveFrom depth (.held (.literal c)) rest
    else before.release ++ .atom (.literal c) :: resolveFrom depth .other rest
  | depth, before, .atom part :: rest =>
    before.release ++ .atom part :: resolveFrom depth .other rest
  | depth, before, .openGroup :: rest =>
    before.release ++ .openGroup :: resolveFrom (depth + 1) .start rest
  | depth, before, .comma :: rest =>
    before.release ++ .comma :: resolveFrom depth .start rest
  | depth, before, .closeGroup :: rest =>
    before.release ++ .closeGroup :: resolveFrom (depth - 1) .other rest

/-- The symbols of a glob with double stars resolved. -/
def resolve (symbols : List Symbol) : List Symbol :=
  resolveFrom 0 .start symbols

end SourceMetrics.Glob.Symbol
