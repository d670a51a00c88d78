import SourceMetrics.Delivery

/-! # Collections

A collection gathers the files below a root and then measures them side by side. The records come
in with the places of their files, in whatever order the measuring ends, and are put back in the
order of the walk. -/

namespace SourceMetrics.Collection

set_option autoImplicit false

/-- A record with the place of its file. -/
abbrev Arrival := Nat × Record

/-- The order in which records come in when at most `width` files are measured at a time. -/
abbrev Schedule := (width : Nat) → List Arrival → List Arrival

/-- The schedule in which the records come in by place. -/
def inOrder : Schedule := fun _ arrivals => arrivals

/-- A row of places with the records that have come in. -/
def fill (count : Nat) (arrivals : List Arrival) : List (Option Record) :=
  arrivals.foldl (fun places arrival => places.set arrival.1 (some arrival.2))
    (List.replicate count none)

/-- The records of files that are measured side by side; no fewer than one at a time. -/
def measure (schedule : Schedule) (width : Nat) (files : List SourceFile) : List Record :=
  let measured := files.zipIdx.map fun entry => (entry.2, Record.ofFile entry.1)
  (fill files.length (schedule (max width 1) measured)).filterMap id

variable {m : Type → Type} [Monad m] {φ : Type}

/-- The files that a feed yields in at most `fuel` steps, behind those that were gathered, or the
first fault; nothing if the steps are used up. -/
@[specialize]
def gather (step : φ → m (Outcome × φ)) :
    (fuel : Nat) → (gathered : List SourceFile) → φ → m (Option (Except Fault (List SourceFile)))
  | 0, _, _ => return none
  | fuel + 1, gathered, feed => do
    match ← step feed with
    | (.quiet, feed) => gather step fuel gathered feed
    | (.finished, _) => return some (.ok gathered)
    | (.item (.error fault), _) => return some (.error fault)
    | (.item (.ok file), feed) => gather step fuel (gathered ++ [file]) feed

/-- The records of the files below a root, or the first fault; nothing if the steps are used up. -/
def records? (files : FileSystem m) (filter : Filter) (schedule : Schedule) (width fuel : Nat)
    (root : Path) : m (Option (Except Fault (List Record))) := do
  let found ← gather (Walk.step files filter) fuel [] (.ofRoot root)
  return found.map fun gathered => gathered.map (measure schedule width)

end SourceMetrics.Collection
