import SourceMetrics.Phrase.Scan
import SourceMetrics.Sequence

/-! # Type advice

Files of the typed dialect are told by their extension. In such a file an annotation that gives
up on types is reported, once for each kind. -/

namespace SourceMetrics.TypeAdvice

set_option autoImplicit false

open Text Phrase.Part

/-- The file name at the end of a path. Slashes at the end and parts that are a single dot are
passed over; a path that ends in `..` has no file name. -/
def fileName? (path : List Char) : Option (List Char) :=
  match (split '/' path).reverse.dropWhile fun part => part == [] || part == ['.'] with
  | [] => none
  | name :: _ => if name = ['.', '.'] then none else some name

/-- What follows the last dot of a file name, unless that dot is its first character. -/
def extension? (name : List Char) : Option (List Char) :=
  let backwards := name.reverse.takeWhile (· != '.')
  if backwards.length + 1 < name.length then some backwards.reverse else none

/-- The extensions of the typed dialect. -/
def typedExtensions : List String :=
  ["ts", "tsx"]

/-- Whether a path names a file of the typed dialect. -/
def isTyped (path : List Char) : Bool :=
  ((fileName? path).bind extension?).any fun found => typedExtensions.any (·.toList == found)

/-- A colon with the given type behind it. -/
def typeForm (type : String) : Phrase :=
  [exact ":", blanks, exact type, edge]

/-- What is reported, with the type whose annotation calls for it. -/
def advice : List (String × String) :=
  [("any", "\"any\" type usage detected"), ("unknown", "Use of type \"unknown\" detected")]

/-- The reports on a file: in the order of `advice`, each at most once, and none for a file
outside the typed dialect. -/
def reports (path text : List Char) : List String :=
  if isTyped path then
    (advice.filter fun entry => (typeForm entry.1).isFound text).map (·.2)
  else []

end SourceMetrics.TypeAdvice
