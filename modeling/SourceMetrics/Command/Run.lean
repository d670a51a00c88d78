import SourceMetrics.Collection
import SourceMetrics.Command.Arguments
import SourceMetrics.Command.World
import SourceMetrics.Report
import SourceMetrics.Schema

/-! # Running commands

A command scans first. Only when the whole scan has succeeded does it make directories and write
files, so that a scan that fails leaves none behind. -/

namespace SourceMetrics

set_option autoImplicit false

/-- Why a command failed. -/
inductive Failure where
  | scan (fault : Fault)
  /-- The results could not be written. -/
  | output (cause : FileFault)
  /-- The scan took more steps than it was allowed. -/
  | unfinished
deriving DecidableEq, Repr

def Failure.message : Failure → String
  | .scan fault => fault.message
  | .output cause => cause.message
  | .unfinished => "scan not finished"

/-- The outcome of a command, as the program reports it when it ends. -/
structure Exit where
  code : Nat
  /-- What is said about a failure. -/
  complaint : String
deriving DecidableEq, Repr

namespace Command

variable {m : Type → Type} [Monad m]

/-! ## Output -/

/-- Makes the first of some directories, each of which lies in the next one, together with those on
the way to it that are missing. -/
def makeAll (world : World m) : List Path → m (Except FileFault Unit)
  | [] => return .ok ()
  | path :: parents => do
    if path.bytes.isEmpty then return .ok ()
    match ← world.makeDirectory path with
    | .ok () => return .ok ()
    | .error .notFound =>
      match ← makeAll world parents with
      | .error fault => return .error fault
      | .ok () =>
        match ← world.makeDirectory path with
        | .ok () => return .ok ()
        | .error fault => return if ← world.isDirectory path then .ok () else .error fault
    | .error fault => return if ← world.isDirectory path then .ok () else .error fault

/-- The text with a line feed at its end. -/
def closed (text : String) : String :=
  if text.toList.getLast? = some '\n' then text else text ++ "\n"

/-- Writes a text to a file, in a directory that is made if need be. -/
def writeFile (world : World m) (path : Path) (text : String) : m (Except FileFault Unit) := do
  match ← makeAll world path.parents with
  | .error fault => return .error fault
  | .ok () => world.write path text

/-- The result as a failure of the output. -/
def ofOutput (result : Except FileFault Unit) : Except Failure Unit :=
  result.mapError .output

/-! ## Scans -/

/-- The records of a scan and their summary. -/
def scan (world : World m) (schedule : Collection.Schedule) (fuel : Nat) (request : ScanRequest) :
    m (Except Failure (List Record × Summary)) := do
  match Settings.ofPatterns request.included request.excluded (some request.limit) with
  | .error fault => return .error (.scan (.pattern fault.message))
  | .ok options =>
    let found ← Collection.records? world.files options.filter schedule request.width fuel
      request.root
    match found with
    | none => return .error .unfinished
    | some (.error fault) => return .error (.scan fault)
    | some (.ok records) => return .ok (records, .ofRecords records options.limit)

/-! ## Commands -/

/-- The results of a scan in a given form. -/
def render (format : Format) (records : List Record) (summary : Summary) : String :=
  match format with
  | .table => Report.Table.render records summary
  | .markdown => Report.Markdown.render records summary
  | .json => (Record.listToJson records).render

/-- Shows the results of a scan, or writes them to a file. -/
def showResults (world : World m) (schedule : Collection.Schedule) (fuel : Nat)
    (request : ScanRequest) (format : Format) (output : Option Path) : m (Except Failure Unit) := do
  if format = .table then world.print s!"Analyzing code in: {request.root.toText}\n"
  match ← scan world schedule fuel request with
  | .error failure => return .error failure
  | .ok (records, summary) =>
    let text := closed (render format records summary)
    match output with
    | some path => return ofOutput (← writeFile world path text)
    | none => do
      world.print text
      return .ok ()

/-- The document of a report in JSON. -/
def document (records : List Record) (summary : Summary) : Json :=
  .ofMembers [("summary", summary.toJson), ("files", Record.listToJson records)]

/-- Writes the two files of a report into a directory, which is made if need be. -/
def writeReport (world : World m) (directory : Path) (records : List Record) (summary : Summary) :
    m (Except FileFault Unit) := do
  match ← makeAll world (directory :: directory.parents) with
  | .error fault => return .error fault
  | .ok () =>
    match ← world.write (directory.join (Path.ofText "report.md").bytes)
        (Report.Markdown.render records summary) with
    | .error fault => return .error fault
    | .ok () =>
      world.write (directory.join (Path.ofText "metrics.json").bytes)
        (document records summary).render

/-- Writes the results of a scan into a directory. -/
def reportInto (world : World m) (schedule : Collection.Schedule) (fuel : Nat)
    (request : ScanRequest) (directory : Path) : m (Except Failure Unit) := do
  world.print s!"Generating report for: {request.root.toText}\n"
  match ← scan world schedule fuel request with
  | .error failure => return .error failure
  | .ok (records, summary) =>
    match ← writeReport world directory records summary with
    | .error fault => return .error (.output fault)
    | .ok () => do
      world.print s!"Output directory: {directory.toText}\n"
      world.print s!"Report generation completed ({records.length} files).\n"
      return .ok ()

/-- Runs a command. Its scan may take `fuel` steps. -/
def run (world : World m) (schedule : Collection.Schedule) (fuel : Nat) (command : Command) :
    m (Except Failure Unit) := do
  match command with
  | .analyze request format output => showResults world schedule fuel request format output
  | .report request directory => reportInto world schedule fuel request directory
  | .schema => do
    world.print (Schema.render ++ "\n")
    return .ok ()

/-- What is said about arguments that spell no command. -/
def usage : String :=
  "Usage: codemetrics <analyze PATH | report PATH | schema> [OPTIONS]\n"

/-- Runs the command that the arguments of the program spell. -/
def execute (world : World m) (schedule : Collection.Schedule) (fuel : Nat)
    (environment : Option String) (arguments : List String) : m Exit := do
  match ofArguments? environment arguments with
  | none => return ⟨2, usage⟩
  | some command =>
    match ← run world schedule fuel command with
    | .ok () => return ⟨0, ""⟩
    | .error failure => return ⟨1, s!"Error during analysis: {failure.message}\n"⟩

end Command

end SourceMetrics
