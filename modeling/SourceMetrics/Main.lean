import SourceMetrics.Command.Run

/-! # The program

The world of the machine that the program runs on. Names of files are those that the machine can
give as text. -/

namespace SourceMetrics.Program

set_option autoImplicit false

/-- What the machine says about a failure, as a file fault. -/
def faultOf : IO.Error → FileFault
  | .noFileOrDirectory .. => .notFound
  | .alreadyExists .. => .alreadyPresent
  | .inappropriateType _ 20 _ => .notDirectory
  | .inappropriateType _ 21 _ => .isDirectory
  | .invalidArgument _ 40 _ => .tooManyLinks
  | .unsatisfiedConstraints 40 _ => .tooManyLinks
  | .invalidArgument _ 36 _ => .nameTooLong
  | found => .other (toString found)

/-- Runs an action of the machine whose failure is a file fault. -/
def attempt {α : Type} (action : IO α) : IO (Except FileFault α) := do
  match ← action.toBaseIO with
  | .ok found => return .ok found
  | .error failure => return .error (faultOf failure)

/-- A path as the machine has it: the root of an entry without a name. -/
def onMachine (path : Path) : IO.FS.DirEntry :=
  ⟨path.toText, ""⟩

/-- What is at the end of a path, if anything is. -/
def typeAt (path : Path) : IO (Option IO.FS.FileType) := do
  match ← attempt (onMachine path).root.metadata with
  | .ok found => return some found.type
  | .error _ => return none

/-- What an entry of a directory is, if it is still there. -/
def kindOf (entry : IO.FS.DirEntry) : IO Entry.Kind := do
  match (← entry.path.symlinkMetadata).type with
  | .file => return .file
  | .dir => return .directory
  | _ => return .other

/-- The entries of a directory in the order in which the machine gives them. -/
def found (path : Path) : IO (List (Path.Name × Entry.Kind)) := do
  let entries ← (onMachine path).root.readDir
  entries.toList.mapM fun entry => do
    return ((Path.ofText entry.fileName).bytes, ← kindOf entry)

def readText (path : Path) : IO (Except FileFault String) := do
  match ← attempt (IO.FS.readBinFile (onMachine path).root) with
  | .error fault => return .error fault
  | .ok content =>
    match Utf8.decode? content.toList with
    | some text => return .ok (String.ofList text)
    | none => return .error .invalidText

/-- The machine that the program runs on. -/
def machine : Machine IO where
  isFile path := return (← typeAt path) == some .file
  found path := attempt (found path)
  read path := return (← readText path).mapError .file

def world : World IO where
  files := machine.files
  isDirectory path := return (← typeAt path) == some .dir
  makeDirectory path := attempt (IO.FS.createDir (onMachine path).root)
  write path text := attempt (IO.FS.writeFile (onMachine path).root text)
  print text := do
    IO.print text
    (← IO.getStdout).flush

/-- How many steps a scan may take: more than a machine can make. -/
def fuel : Nat := Nat.pow 2 62

end SourceMetrics.Program

/-- Runs the command that the arguments spell and ends with its code. -/
def main (arguments : List String) : IO UInt32 := do
  let environment ← IO.getEnv "CODEMETRICS_CONCURRENCY"
  let exit ← SourceMetrics.Command.execute SourceMetrics.Program.world
    SourceMetrics.Collection.inOrder SourceMetrics.Program.fuel environment arguments
  unless exit.complaint.isEmpty do IO.eprint exit.complaint
  return exit.code.toUInt32
