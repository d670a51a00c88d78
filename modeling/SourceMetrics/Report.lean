import SourceMetrics.Decimal.Places
import SourceMetrics.Summary

/-! # Reports for readers

A report is put together from lines. What stands in a line is inserted as it is, so a path with a
line feed in it makes a line of its report longer than one line of text.

* `Table`: a block of lines for each record, with a mark on the files above the limit, and the totals.
* `Markdown`: a summary, the files above the limit if there is one, a table with one row for each
  record, and the findings file by file. -/

namespace SourceMetrics.Report

set_option autoImplicit false

/-- Lines, each with a line feed at its end. -/
def ofLines (lines : List String) : String :=
  String.join (lines.map (· ++ "\n"))

/-- Names separated by commas, or `0` if there are none. -/
def nameList (names : List String) : String :=
  if names.isEmpty then "0" else ", ".intercalate names

/-! ## Text tables -/

namespace Table

/-- The rule above and below the blocks. -/
def rule : String :=
  "".pushn '─' 80

/-- The mark on a file above the limit. -/
def limitMark (limit : Option Nat) (record : Record) : String :=
  match limit with
  | some limit => if record.exceeds limit then s!" (exceeds {limit})" else ""
  | none => ""

/-- The block of a record. -/
def block (limit : Option Nat) (record : Record) : List String :=
  [ "",
    record.path,
    s!"  Lines: {record.lines.total} (Code: {record.lines.code}, Comments: {record.lines.comment})",
    s!"  Complexity: {record.complexity}" ++ limitMark limit record,
    s!"  Functions: {record.functions}, Classes: {record.classes}",
    "  Duplication: " ++ Decimal.withPlaces 2 record.duplication.percentage ++ "%",
    "  Unused variables: " ++ nameList record.unusedVariables,
    "  Unused imports: " ++ nameList record.unusedImports,
    "  Type issues: " ++ nameList record.typeIssues ]

/-- The line about the most complex file, if there is one. -/
def hotspotLines (hotspot : Option Hotspot) : List String :=
  match hotspot with
  | some found => [s!"Most complex: {found.path} ({found.complexity})"]
  | none => []

/-- The lines about the files above the limit, if there is a limit. -/
def limitLines (summary : Summary) : List String :=
  match summary.limit with
  | none => []
  | some limit =>
    if summary.overLimit.isEmpty then [s!"Over complexity {limit}: none"]
    else s!"Over complexity {limit}:" :: summary.overLimit.map fun path => s!"- {path}"

def totalLines (summary : Summary) : List String :=
  [ "",
    rule,
    s!"Files analyzed: {summary.files}",
    s!"Total lines: {summary.totalLines} (Code: {summary.codeLines}, Comments: {summary.commentLines}, Blank: {summary.blankLines})",
    "Average complexity: " ++ Decimal.withPlaces 2 summary.averageComplexity ]
  ++ hotspotLines summary.hotspot
  ++ limitLines summary

/-- The lines of the table. -/
def lines (records : List Record) (summary : Summary) : List String :=
  ["", "Code Metrics Report", rule]
  ++ (if records.isEmpty then ["No files found to analyze."]
    else records.flatMap (block summary.limit) ++ totalLines summary)

def render (records : List Record) (summary : Summary) : String :=
  ofLines (lines records summary)

end Table

/-! ## Markdown reports -/

namespace Markdown

/-- The line about the most complex file, if there is one. -/
def hotspotLines (hotspot : Option Hotspot) : List String :=
  match hotspot with
  | some found => [s!"- Most complex: `{found.path}` ({found.complexity})"]
  | none => []

/-- The section on the files above the limit, if there is a limit. -/
def limitLines (summary : Summary) : List String :=
  match summary.limit with
  | none => []
  | some limit =>
    s!"### Over complexity {limit}" ::
      (if summary.overLimit.isEmpty then ["None."]
        else summary.overLimit.map fun path => s!"- `{path}`") ++ [""]

def summaryLines (summary : Summary) : List String :=
  [ "## Summary", "",
    s!"- Files: {summary.files}",
    s!"- Lines: {summary.totalLines} (Code: {summary.codeLines}, Comments: {summary.commentLines}, Blank: {summary.blankLines})",
    "- Average complexity: " ++ Decimal.withPlaces 2 summary.averageComplexity ]
  ++ hotspotLines summary.hotspot
  ++ [s!"- Findings: {summary.unusedVariables} unused variables, {summary.unusedImports} unused imports, {summary.typeIssues} type issues",
    ""]
  ++ limitLines summary

/-- The row of a record in the table of files. -/
def row (record : Record) : String :=
  s!"| `{record.path}` | {record.lines.total} | {record.lines.code} | {record.lines.comment} | {record.lines.blank} | {record.complexity} | {record.functions} | {record.classes} | "
    ++ Decimal.withPlaces 2 record.duplication.percentage ++ "% |"

def tableLines (records : List Record) : List String :=
  [ "| File | Lines | Code | Comments | Blank | Complexity | Functions | Classes | Duplication |",
    "|---|---:|---:|---:|---:|---:|---:|---:|---:|" ]
  ++ records.map row

def findingLines (record : Record) : List String :=
  [ s!"### `{record.path}`",
    "- Unused variables: " ++ nameList record.unusedVariables,
    "- Unused imports: " ++ nameList record.unusedImports,
    "- Type issues: " ++ nameList record.typeIssues,
    "" ]

/-- The section with the findings of all files that have some. -/
def findingsLines (records : List Record) : List String :=
  let flagged := records.filter Record.hasFindings
  if flagged.isEmpty then ["## Findings", "No findings.", ""]
  else ["## Findings", ""] ++ flagged.flatMap findingLines

def fileLines (records : List Record) : List String :=
  if records.isEmpty then ["## Files", "No files analyzed.", ""]
  else ["## Files", ""] ++ tableLines records ++ [""] ++ findingsLines records

/-- The lines of a report on records and their summary. -/
def lines (records : List Record) (summary : Summary) : List String :=
  ["# CodeMetrics Report", ""] ++ summaryLines summary ++ fileLines records

def render (records : List Record) (summary : Summary) : String :=
  ofLines (lines records summary)

end Markdown

end SourceMetrics.Report
