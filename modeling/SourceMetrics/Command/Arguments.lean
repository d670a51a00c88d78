import SourceMetrics.Path
import SourceMetrics.Settings

/-! # Command lines

The arguments of the program as a command. The first one names the command. Options may stand before
and behind the path, and an argument that is two hyphens ends them. An option has a long name and
may have a letter; its value is the next argument, or is attached to it. The options for patterns
take any number of values, up to the next argument that starts with a hyphen, and may be repeated. -/

namespace SourceMetrics

set_option autoImplicit false

inductive Format where
  | table
  | json
  | markdown
deriving DecidableEq, Repr

/-- What is to be scanned and how. -/
structure ScanRequest where
  root : Path
  /-- The patterns of the files to take up, if any are given. -/
  included : Option (List String)
  /-- The patterns of what to pass over, if any are given. -/
  excluded : Option (List String)
  /-- The complexity above which a file is pointed out. -/
  limit : Nat
  /-- How many files are measured at a time. -/
  width : Nat
deriving DecidableEq, Repr

/-- A command of the program. -/
inductive Command where
  /-- Shows the results of a scan, or writes them to a file. -/
  | analyze (request : ScanRequest) (format : Format) (output : Option Path)
  /-- Writes the results of a scan into a directory. -/
  | report (request : ScanRequest) (output : Path)
  | schema
deriving DecidableEq, Repr

namespace Command

inductive Flag where
  | included
  | excluded
  | limit
  | width
  | format
  | output
deriving DecidableEq, Repr

namespace Flag

def name : Flag → String
  | .included => "include"
  | .excluded => "exclude"
  | .limit => "max-complexity"
  | .width => "concurrency"
  | .format => "format"
  | .output => "output"

def letter? : Flag → Option Char
  | .included => some 'i'
  | .excluded => some 'e'
  | .limit => none
  | .width => some 'j'
  | .format => some 'f'
  | .output => some 'o'

def isMany : Flag → Bool
  | .included => true
  | .excluded => true
  | _ => false

end Flag

/-! ## Arguments -/

/-- What an argument is by its first characters. -/
inductive Argument where
  /-- A text that names no option. -/
  | plain (text : String)
  | endOfOptions
  /-- An option, with the value that is attached to it. -/
  | option (flag : Flag) (attached : Option String)
  /-- Something that looks like an option and is none. -/
  | unknown
deriving DecidableEq, Repr

/-- What stands before the first equality sign, and what stands behind it if there is one. -/
def splitAtEquals (text : List Char) : List Char × Option String :=
  let name := text.takeWhile (· != '=')
  match text.drop name.length with
  | [] => (name, none)
  | _ :: value => (name, some (String.ofList value))

/-- The value that is attached to the letter of an option: an equality sign in front is no part of
it. -/
def attachedValue : List Char → Option String
  | [] => none
  | '=' :: value => some (String.ofList value)
  | value => some (String.ofList value)

/-- Reads an argument of a command that knows the given options. -/
def Argument.read (known : List Flag) (text : String) : Argument :=
  match text.toList with
  | ['-', '-'] => .endOfOptions
  | '-' :: '-' :: rest =>
    let (name, attached) := splitAtEquals rest
    match known.find? fun flag => flag.name.toList == name with
    | some flag => .option flag attached
    | none => .unknown
  | '-' :: c :: rest =>
    match known.find? fun flag => flag.letter? == some c with
    | some flag => .option flag (attachedValue rest)
    | none => .unknown
  | _ => .plain text

/-! ## Settings -/

/-- A part of a command line. -/
inductive Part where
  | setting (flag : Flag) (values : List String)
  /-- A text that belongs to no option. -/
  | operand (text : String)
deriving DecidableEq, Repr

/-- An option that takes further values, with those that it has. An option without a value is
refused. -/
def close : Option (Flag × List String) → Option (List Part)
  | none => some []
  | some (_, []) => none
  | some (flag, values) => some [.setting flag values]

/-- The parts of a command line behind an option that takes further values, if there is one. -/
def partsFrom (known : List Flag) :
    (opened : Option (Flag × List String)) → List String → Option (List Part)
  | opened, [] => close opened
  | opened, text :: rest => do
    match Argument.read known text with
    | .unknown => none
    | .endOfOptions => return (← close opened) ++ rest.map .operand
    | .option flag none => return (← close opened) ++ (← partsFrom known (some (flag, [])) rest)
    | .option flag (some value) =>
      return (← close opened) ++ .setting flag [value] :: (← partsFrom known none rest)
    | .plain text =>
      match opened with
      | none => return .operand text :: (← partsFrom known none rest)
      | some (flag, values) =>
        if flag.isMany then partsFrom known (some (flag, values ++ [text])) rest
        else return .setting flag [text] :: (← partsFrom known none rest)

/-- The operands of a command line. -/
def operands (parts : List Part) : List String :=
  parts.filterMap fun
    | .operand text => some text
    | .setting .. => none

/-- The values of an option, occurrence by occurrence. -/
def occurrences (parts : List Part) (wanted : Flag) : List (List String) :=
  parts.filterMap fun
    | .setting flag values => if flag = wanted then some values else none
    | .operand _ => none

/-- All values of an option, or nothing if it does not occur. -/
def allValues (parts : List Part) (flag : Flag) : Option (List String) :=
  match occurrences parts flag with
  | [] => none
  | found => some found.flatten

/-- The value of an option: one of its own, the one that stands in for it, or none if the option
occurs twice or its value cannot be read. -/
def value? {α : Type} (parts : List Part) (flag : Flag) (read : String → Option α)
    (standard : Option α) : Option α :=
  match occurrences parts flag with
  | [] => standard
  | [[text]] => read text
  | _ => none

/-! ## Values -/

/-- The number with the given digits, if it is below a bound. -/
def digits? (bound : Nat) (text : List Char) : Option Nat :=
  if text.isEmpty || !text.all Char.isDigit then none
  else
    let n := text.foldl (fun n c => 10 * n + (c.toNat - '0'.toNat)) 0
    if n < bound then some n else none

/-- A number of 64 bits, perhaps with a plus sign. -/
def width? (text : String) : Option Nat :=
  match text.toList with
  | '+' :: digits => digits? (Nat.pow 2 64) digits
  | digits => digits? (Nat.pow 2 64) digits

/-- A number of 32 bits, perhaps with a plus sign. Zero may have a minus sign. -/
def limit? (text : String) : Option Nat :=
  match text.toList with
  | '+' :: digits => digits? (Nat.pow 2 32) digits
  | '-' :: digits => digits? 1 digits
  | digits => digits? (Nat.pow 2 32) digits

def format? (text : String) : Option Format :=
  match text with
  | "table" => some .table
  | "json" => some .json
  | "markdown" => some .markdown
  | _ => none

/-- A path that is not empty. -/
def path? (text : String) : Option Path :=
  if text.isEmpty then none else some (.ofText text)

/-! ## Commands -/

/-- How many files are measured at a time where nothing else is said. -/
def standardWidth : Nat := 8

/-- The directory into which a report is written where no other is given. -/
def standardOutput : Path := .ofText "./codemetrics-report"

/-- What is to be scanned and how. Where the option for the width does not occur, the environment
may give it. -/
def request? (environment : Option String) (parts : List Part) : Option ScanRequest := do
  let root ← match operands parts with
    | [text] => path? text
    | _ => none
  let width := match environment with
    | none => some standardWidth
    | some text => width? text
  return {
    root
    included := allValues parts .included
    excluded := allValues parts .excluded
    limit := ← value? parts .limit limit? (some Settings.standardLimit)
    width := ← value? parts .width width? width }

/-- The command that the arguments of the program spell, with what the environment says about the
width. -/
def ofArguments? (environment : Option String) : List String → Option Command
  | "analyze" :: rest => do
    let parts ← partsFrom [.included, .excluded, .limit, .width, .format, .output] none rest
    let request ← request? environment parts
    let format ← value? parts .format format? (some .table)
    let output ← value? parts .output (fun text => (path? text).map some) (some none)
    return .analyze request format output
  | "report" :: rest => do
    let parts ← partsFrom [.included, .excluded, .limit, .width, .output] none rest
    let request ← request? environment parts
    return .report request (← value? parts .output path? (some standardOutput))
  | "schema" :: rest => do
    match ← partsFrom [] none rest with
    | [] => return .schema
    | _ => none
  | _ => none

end Command

end SourceMetrics
