import SourceMetrics.Pattern.Basic

/-! # Pattern lists

Patterns of which any one may match. Their globs are put into one pool, which is matched as a whole.
A list looks at the normalized text of a path, and at a directory as if its path ended in a slash,
so that a pattern that ends in a slash matches the directory itself.

The engine's limit on the compiled size, which would hold for the whole pool, is left out as it is for
a single pattern. -/

namespace SourceMetrics

set_option autoImplicit false

/-- Patterns of which any one may match. -/
structure PatternList where
  /-- The texts of the patterns in the order in which they were given. -/
  sources : List String
  /-- The globs of all the patterns. -/
  globs : List Glob

namespace PatternList

def empty : PatternList :=
  ⟨[], []⟩

/-- The list of the patterns with the given texts. -/
def compile (sources : List String) : Except PatternFault PatternList := do
  let patterns ← sources.mapM Pattern.read
  let globs := patterns.flatMap (·.globs)
  PatternFault.ofNesting sources globs
  return ⟨patterns.map (·.source), globs⟩

def isEmpty (list : PatternList) : Bool :=
  list.sources.isEmpty

/-- Whether some glob of the pool matches a path with the given text. -/
def accepts (list : PatternList) (text : List Char) : Bool :=
  list.globs.any fun glob => glob.accepts (Utf8.encode text)

/-- The text with a slash at its end. -/
def closed (text : List Char) : List Char :=
  if text.getLast? = some '/' then text else text ++ ['/']

/-- Whether some pattern matches the path of a file. -/
def matchesFile (list : PatternList) (path : Path) : Bool :=
  list.accepts path.normalized

/-- Whether some pattern matches the path of a directory. -/
def matchesDirectory (list : PatternList) (path : Path) : Bool :=
  list.accepts (closed path.normalized)

end PatternList

end SourceMetrics
