import SourceMetrics.Glob.Expression
import SourceMetrics.Glob.Nesting
import SourceMetrics.Glob.Search

/-! # Path patterns

A pattern is searched for anywhere in a path. To this end its text is widened into one or two globs
that let other text stand in front of it and behind it; the pattern matches a path if one of them
matches all of it.

A glob is refused for its text or for the depth of its groups. The engine that globs are compiled for
also refuses those that would become too large; its limit on the compiled size is left out here, so a
pattern of that size is accepted. -/

namespace SourceMetrics

set_option autoImplicit false

/-- What a widened pattern starts with, so that anything may stand in front of the pattern. -/
def Pattern.opening : List Char → List Char
  | '*' :: '*' :: _ => []
  | '/' :: _ => ['*', '*']
  | '*' :: _ => ['*', '*', '/']
  | _ => ['*', '*', '/', '*']

/-- A widened pattern with its possible ends, so that anything may stand behind the pattern. -/
def Pattern.endings (body : List Char) : List (List Char) :=
  if ['*', '*'].isSuffixOf body then [body]
  else if ['/'].isSuffixOf body then [body ++ ['*', '*']]
  else [body ++ ['*'], body ++ ['*', '/', '*', '*']]

/-- The texts of the globs that find a pattern anywhere in a path. -/
def Pattern.widen (text : List Char) : List (List Char) :=
  endings (opening text ++ text)

/-- A pattern that was read. -/
structure Pattern where
  source : String
  globs : List Glob

/-- Why a pattern, or a list of patterns, cannot be used. -/
inductive PatternFault where
  /-- The pattern, widened into the given text, is no glob. -/
  | malformed (source : String) (widened : String) (reason : Glob.Fault)
  /-- A glob of the patterns that is matched by itself is nested too deep; it is named by its
  regular expression. -/
  | tooDeepAlone (sources : List String) (expression : String)
  /-- A glob of the patterns that is matched together with others is nested too deep; its place is
  the one among these. -/
  | tooDeep (sources : List String) (place : Nat)
deriving DecidableEq, Repr

def PatternFault.message : PatternFault → String
  | .malformed source widened reason =>
    s!"{source}: error parsing glob '{widened}': " ++ reason.message
  | .tooDeepAlone sources expression =>
    ", ".intercalate sources ++ s!": error parsing glob '{expression}': error parsing pattern 0"
  | .tooDeep sources place => ", ".intercalate sources ++ s!": error parsing pattern {place}"

/-- Passes globs none of which is nested too deep. Those that are matched by themselves are looked
at first. The sources name the globs in a fault. -/
def PatternFault.ofNesting (sources : List String) (globs : List Glob) : Except PatternFault Unit :=
  match globs.find? fun glob => glob.search = .extension ∧ glob.isTooDeep with
  | some glob => .error (.tooDeepAlone sources glob.expression)
  | none =>
    match (globs.filter (·.search = .whole)).findIdx? Glob.isTooDeep with
    | some place => .error (.tooDeep sources place)
    | none => .ok ()

namespace Pattern

/-- The pattern with the given text, whether or not its globs are nested too deep. -/
def read (source : String) : Except PatternFault Pattern := do
  let globs ← (widen source.toList).mapM fun text =>
    (Glob.parse? text).mapError (.malformed source (String.ofList text))
  return ⟨source, globs⟩

/-- The pattern with the given text. -/
def compile (source : String) : Except PatternFault Pattern := do
  let pattern ← read source
  PatternFault.ofNesting [source] pattern.globs
  return pattern

/-- Whether the pattern matches a path with the given text. -/
def accepts (pattern : Pattern) (text : List Char) : Bool :=
  pattern.globs.any fun glob => glob.accepts (Utf8.encode text)

end Pattern

end SourceMetrics
