import SourceMetrics.FileSystem
import SourceMetrics.Record
import SourceMetrics.Settings

/-! # Walks

A walk goes through the tree below a root, each directory with all that is below it before what is
listed behind it, and yields the files that a filter takes up. It goes on step by step and asks the
file system no more than each step needs. A fault is yielded in its place and does not end the
walk. A root that is a file is yielded whatever the filter says. -/

namespace SourceMetrics

set_option autoImplicit false

/-- What is yielded: a file, or the fault that stands in its place. -/
abbrev Item := Except Fault SourceFile

/-- What a step comes to. -/
inductive Outcome where
  /-- There is nothing to yield yet. -/
  | quiet
  | item (found : Item)
  /-- There is nothing more to yield. -/
  | finished

/-- A walk that is under way. -/
structure Walk where
  /-- The root, until it has been looked at. -/
  root : Option Path
  /-- For each directory that the walk is in, the innermost one first, the entries that are still to
  be visited. -/
  stack : List (List Entry)
deriving Repr

namespace Walk

variable {m : Type → Type} [Monad m]

/-- The walk below a root, before its first step. -/
def ofRoot (root : Path) : Walk :=
  ⟨some root, []⟩

def readFile (files : FileSystem m) (path : Path) : m Item := do
  match ← files.read path with
  | .ok content => return .ok ⟨path.toText, content⟩
  | .error fault => return .error fault

/-- Puts the entries of a directory on top of a stack. -/
def enter (files : FileSystem m) (path : Path) (stack : List (List Entry)) : m (Outcome × Walk) := do
  match ← files.list path with
  | .ok entries => return (.quiet, ⟨none, entries :: stack⟩)
  | .error fault => return (.item (.error fault), ⟨none, stack⟩)

/-- Takes one step: looks at the root, or visits the next entry. -/
def step (files : FileSystem m) (filter : Filter) (walk : Walk) : m (Outcome × Walk) := do
  match walk with
  | ⟨some root, stack⟩ =>
    if ← files.isFile root then return (.item (← readFile files root), ⟨none, stack⟩)
    else enter files root stack
  | ⟨none, []⟩ => return (.finished, walk)
  | ⟨none, [] :: stack⟩ => return (.quiet, ⟨none, stack⟩)
  | ⟨none, (⟨path, .directory⟩ :: entries) :: stack⟩ =>
    if filter.prunes path then return (.quiet, ⟨none, entries :: stack⟩)
    else enter files path (entries :: stack)
  | ⟨none, (⟨path, .file⟩ :: entries) :: stack⟩ =>
    if filter.wants path then return (.item (← readFile files path), ⟨none, entries :: stack⟩)
    else return (.quiet, ⟨none, entries :: stack⟩)
  | ⟨none, (⟨_, .other⟩ :: entries) :: stack⟩ => return (.quiet, ⟨none, entries :: stack⟩)

/-- Takes steps until there is something to yield or nothing more, at most `fuel` of them. -/
@[specialize]
def next (files : FileSystem m) (filter : Filter) : (fuel : Nat) → Walk → m (Outcome × Walk)
  | 0, walk => return (.quiet, walk)
  | fuel + 1, walk => do
    match ← step files filter walk with
    | (.quiet, walk) => next files filter fuel walk
    | found => return found

end Walk

end SourceMetrics
