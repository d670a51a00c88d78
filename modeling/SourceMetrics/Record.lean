import SourceMetrics.Complexity
import SourceMetrics.Declarations
import SourceMetrics.Duplication
import SourceMetrics.Names.Binding
import SourceMetrics.TypeAdvice

/-! # Records

A source file and the record of all that is measured on it. -/

namespace SourceMetrics

set_option autoImplicit false

/-- A file to measure: its path as text, and its content. -/
structure SourceFile where
  /-- The path by which the file was reached. -/
  path : String
  content : String
deriving DecidableEq, Repr, Inhabited

/-- The measurements of one file. -/
structure Record where
  path : String
  lines : LineCounts
  complexity : Nat
  functions : Nat
  classes : Nat
  duplication : Duplication
  unusedVariables : List String
  unusedImports : List String
  typeIssues : List String
deriving Repr, Inhabited

namespace Record

def ofFile (file : SourceFile) : Record :=
  let text := file.content.toList
  { path := file.path
    lines := .ofText text
    complexity := Complexity.ofText text
    functions := Declarations.functions text
    classes := Declarations.classes text
    duplication := .ofText text
    unusedVariables := (Names.unusedVariables text).map String.ofList
    unusedImports := (Names.unusedImports text).map String.ofList
    typeIssues := TypeAdvice.reports file.path.toList text }

def exceeds (record : Record) (limit : Nat) : Bool :=
  limit < record.complexity

/-- Whether the record holds an unused name or a type issue. -/
def hasFindings (record : Record) : Bool :=
  !record.unusedVariables.isEmpty || !record.unusedImports.isEmpty || !record.typeIssues.isEmpty

end Record

end SourceMetrics
