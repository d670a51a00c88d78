import SourceMetrics.Fault
import SourceMetrics.Path

/-! # File systems

What a walk asks of a file system: whether a path is a file, what a directory holds, and what is in
a file. The questions are asked in any monad, so that the answers can come from the machine, from
a tree in memory or from a table. -/

namespace SourceMetrics

set_option autoImplicit false

inductive Entry.Kind where
  | file
  | directory
  | other
deriving DecidableEq, Repr, Inhabited

structure Entry where
  /-- The path of the entry, that of the directory included. -/
  path : Path
  kind : Entry.Kind
deriving DecidableEq, Repr, Inhabited

/-- A file system that answers in a monad. -/
structure FileSystem (m : Type → Type) where
  isFile : Path → m Bool
  list : Path → m (Except Fault (List Entry))
  read : Path → m (Except Fault String)

namespace FileSystem

/-- A question to a file system. -/
inductive Call where
  | isFile (path : Path)
  | list (path : Path)
  | read (path : Path)
deriving DecidableEq, Repr

/-- A file system whose answers depend on the path alone, with a record of the calls in their
order. -/
def logged (answers : FileSystem Id) : FileSystem (StateM (List Call)) where
  isFile path := fun calls => (answers.isFile path, calls ++ [.isFile path])
  list path := fun calls => (answers.list path, calls ++ [.list path])
  read path := fun calls => (answers.read path, calls ++ [.read path])

/-- A file system that is given by tables. A path has the fault that is listed for it; failing that,
what the other tables say; and a path that is in none of them is missing. -/
def ofTables (files : List (Path × String)) (directories : List (Path × List Entry))
    (faults : List (Path × Fault)) : FileSystem Id :=
  let find {α : Type} (table : List (Path × α)) (path : Path) : Except Fault α :=
    match faults.find? (·.1 == path), table.find? (·.1 == path) with
    | some (_, fault), _ => .error fault
    | none, some (_, found) => .ok found
    | none, none => .error (.file (.other ("missing " ++ path.toText)))
  { isFile := fun path => files.any (·.1 == path)
    list := find directories
    read := find files }

end FileSystem

end SourceMetrics
