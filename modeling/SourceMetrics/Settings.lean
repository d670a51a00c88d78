import SourceMetrics.Pattern.List

/-! # Settings

Which files of a tree a scan takes up, and the complexity above which it points a file out. -/

namespace SourceMetrics

set_option autoImplicit false

/-- Which files of a tree are taken up. -/
structure Filter where
  /-- The patterns of which a file must match one. -/
  included : PatternList
  /-- The patterns of which neither a file nor a directory on the way to it may match one. -/
  excluded : PatternList

namespace Filter

def wants (filter : Filter) (path : Path) : Bool :=
  filter.included.matchesFile path && !filter.excluded.matchesFile path

/-- Whether a directory is passed over with all that is below it. -/
def prunes (filter : Filter) (path : Path) : Bool :=
  filter.excluded.matchesDirectory path

end Filter

/-- What a scan is to do. -/
structure Settings where
  filter : Filter
  /-- The complexity above which it points a file out, if there is one. -/
  limit : Option Nat

namespace Settings

/-- The patterns that files must match where no others are given: sources of the two dialects. -/
def standardIncluded : List String :=
  ["**/*.ts", "**/*.js", "**/*.tsx", "**/*.jsx"]

/-- The patterns that are excluded where no others are given: directories of dependencies and of
build output. -/
def standardExcluded : List String :=
  ["/node_modules/", "/dist/"]

/-- The complexity above which a file is pointed out where no other limit is given. -/
def standardLimit : Nat := 10

/-- The settings with the given patterns. The standard ones stand in for a list that is missing. -/
def ofPatterns (included excluded : Option (List String)) (limit : Option Nat) :
    Except PatternFault Settings := do
  let included ← PatternList.compile (included.getD standardIncluded)
  let excluded ← PatternList.compile (excluded.getD standardExcluded)
  return ⟨⟨included, excluded⟩, limit⟩

/-- The settings with nothing given. -/
def standard : Except PatternFault Settings :=
  ofPatterns none none (some standardLimit)

end Settings

end SourceMetrics
