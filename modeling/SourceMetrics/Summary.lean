import SourceMetrics.Record
import SourceMetrics.Sequence

/-! # Summaries

The totals over the records of one scan, its most complex file, and the files whose complexity
lies above a limit. -/

namespace SourceMetrics

set_option autoImplicit false

/-- The most complex file of a scan. -/
structure Hotspot where
  path : String
  complexity : Nat
deriving DecidableEq, Repr, Inhabited

/-- What the records of a scan amount to. -/
structure Summary where
  files : Nat
  totalLines : Nat
  codeLines : Nat
  commentLines : Nat
  blankLines : Nat
  /-- The mean complexity; zero without files. -/
  averageComplexity : Float
  /-- The first file with the greatest complexity. -/
  hotspot : Option Hotspot
  unusedVariables : Nat
  unusedImports : Nat
  typeIssues : Nat
  /-- The complexity above which a file is listed, if there is a limit. -/
  limit : Option Nat
  /-- The paths of the files above the limit, in the order of the records. -/
  overLimit : List String
deriving Repr, Inhabited

namespace Summary

/-- The more complex of two files, the earlier one if they are equally complex. -/
def moreComplex (best : Option Hotspot) (record : Record) : Option Hotspot :=
  match best with
  | some found =>
    if found.complexity < record.complexity then some ⟨record.path, record.complexity⟩ else best
  | none => some ⟨record.path, record.complexity⟩

def average (records : List Record) : Float :=
  if records.isEmpty then 0.0
  else Float.ofNat (total (·.complexity) records) / Float.ofNat records.length

def ofRecords (records : List Record) (limit : Option Nat) : Summary where
  files := records.length
  totalLines := total (·.lines.total) records
  codeLines := total (·.lines.code) records
  commentLines := total (·.lines.comment) records
  blankLines := total (·.lines.blank) records
  averageComplexity := average records
  hotspot := records.foldl moreComplex none
  unusedVariables := total (·.unusedVariables.length) records
  unusedImports := total (·.unusedImports.length) records
  typeIssues := total (·.typeIssues.length) records
  limit := limit
  overLimit := (records.filter fun record => limit.any record.exceeds).map (·.path)

end Summary

end SourceMetrics
