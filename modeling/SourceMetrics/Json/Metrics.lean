import SourceMetrics.Json.Fields
import SourceMetrics.Summary

/-! # Records and summaries in JSON

Each structure is written as an object with its fields in a fixed order and read back by
`Json.fields?`. Counts have 64 bits and complexities 32. -/

namespace SourceMetrics

set_option autoImplicit false

open Json (ofMembers ofNat ofString ofStrings ofFloat)

/-! ## Line counts and duplication -/

namespace LineCounts

def fieldNames : List String :=
  ["total", "code", "comment", "blank"]

def toJson (lines : LineCounts) : Json :=
  ofMembers (fieldNames.zip
    [ofNat lines.total, ofNat lines.code, ofNat lines.comment, ofNat lines.blank])

def ofJson? (value : Json) : Option LineCounts := do
  match ← value.fields? fieldNames with
  | [some total, some code, some comment, some blank] =>
    return ⟨← total.toCount?, ← code.toCount?, ← comment.toCount?, ← blank.toCount?⟩
  | _ => none

end LineCounts

namespace Duplication

def fieldNames : List String :=
  ["percentage", "duplicatedLines"]

def toJson (duplication : Duplication) : Json :=
  ofMembers (fieldNames.zip
    [ofFloat duplication.percentage, ofNat duplication.duplicatedLines])

def ofJson? (value : Json) : Option Duplication := do
  match ← value.fields? fieldNames with
  | [some percentage, some duplicatedLines] =>
    return ⟨← percentage.toFloat?, ← duplicatedLines.toCount?⟩
  | _ => none

end Duplication

/-! ## Records -/

namespace Record

def fieldNames : List String :=
  ["filePath", "lines", "complexity", "functions", "classes", "duplication", "unusedVariables",
    "unusedImports", "typeIssues"]

def toJson (record : Record) : Json :=
  ofMembers (fieldNames.zip
    [ofString record.path, record.lines.toJson, ofNat record.complexity, ofNat record.functions,
      ofNat record.classes, record.duplication.toJson, ofStrings record.unusedVariables,
      ofStrings record.unusedImports, ofStrings record.typeIssues])

def ofJson? (value : Json) : Option Record := do
  match ← value.fields? fieldNames with
  | [some path, some lines, some complexity, some functions, some classes, some duplication,
      some unusedVariables, some unusedImports, some typeIssues] =>
    return {
      path := ← path.toText?
      lines := ← LineCounts.ofJson? lines
      complexity := ← complexity.toNat? (Nat.pow 2 32)
      functions := ← functions.toCount?
      classes := ← classes.toCount?
      duplication := ← Duplication.ofJson? duplication
      unusedVariables := ← unusedVariables.toTexts?
      unusedImports := ← unusedImports.toTexts?
      typeIssues := ← typeIssues.toTexts? }
  | _ => none

def listToJson (records : List Record) : Json :=
  .array (records.map toJson)

end Record

/-! ## Summaries -/

namespace Hotspot

def fieldNames : List String :=
  ["filePath", "complexity"]

def toJson (hotspot : Hotspot) : Json :=
  ofMembers (fieldNames.zip [ofString hotspot.path, ofNat hotspot.complexity])

def ofJson? (value : Json) : Option Hotspot := do
  match ← value.fields? fieldNames with
  | [some path, some complexity] => return ⟨← path.toText?, ← complexity.toNat? (Nat.pow 2 32)⟩
  | _ => none

end Hotspot

namespace Summary

def fieldNames : List String :=
  ["files", "totalLines", "codeLines", "commentLines", "blankLines", "averageComplexity",
    "hotspot", "unusedVariables", "unusedImports", "typeIssues", "maxComplexity", "overThreshold"]

def toJson (summary : Summary) : Json :=
  ofMembers (fieldNames.zip
    [ofNat summary.files, ofNat summary.totalLines, ofNat summary.codeLines,
      ofNat summary.commentLines, ofNat summary.blankLines, ofFloat summary.averageComplexity,
      Json.ofOption (summary.hotspot.map Hotspot.toJson), ofNat summary.unusedVariables,
      ofNat summary.unusedImports, ofNat summary.typeIssues,
      Json.ofOption (summary.limit.map ofNat), ofStrings summary.overLimit])

def ofJson? (value : Json) : Option Summary := do
  match ← value.fields? fieldNames with
  | [some files, some totalLines, some codeLines, some commentLines, some blankLines,
      some averageComplexity, hotspot, some unusedVariables, some unusedImports, some typeIssues,
      limit, some overLimit] =>
    return {
      files := ← files.toCount?
      totalLines := ← totalLines.toCount?
      codeLines := ← codeLines.toCount?
      commentLines := ← commentLines.toCount?
      blankLines := ← blankLines.toCount?
      averageComplexity := ← averageComplexity.toFloat?
      hotspot := ← Json.optional? Hotspot.ofJson? hotspot
      unusedVariables := ← unusedVariables.toCount?
      unusedImports := ← unusedImports.toCount?
      typeIssues := ← typeIssues.toCount?
      limit := ← Json.optional? (Json.toNat? (Nat.pow 2 32)) limit
      overLimit := ← overLimit.toTexts? }
  | _ => none

end Summary

end SourceMetrics
