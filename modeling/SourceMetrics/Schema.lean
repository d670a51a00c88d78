import SourceMetrics.Json.Metrics
import SourceMetrics.Json.Printer

/-! # Schema

The published description of records and summaries in JSON: for each structure its fields, which of
them are required, and what they mean. -/

namespace SourceMetrics.Schema

set_option autoImplicit false

open Json (ofMembers ofString ofNat)

/-- What stands in a field. -/
inductive Shape where
  | count
  | complexity
  | measure
  | text
  | texts
  | structured (name : String)
deriving DecidableEq, Repr

/-- A field of a structure, apart from its name. -/
structure Field where
  shape : Shape
  /-- Whether it may be left out. -/
  isOptional : Bool
  meaning : String
deriving Repr

structure Definition where
  name : String
  meaning : String
  /-- Its fields with their names, in the order in which they are written. -/
  fields : List (String × Field)
deriving Repr

/-! ## The structures -/

/-- A count that is always there. -/
def count (meaning : String) : Field := ⟨.count, false, meaning⟩

def lineCounts : Definition where
  name := "LineBreakdown"
  meaning := "Line counts for a single file.\n\n`code + comment + blank` may exceed `total`: a line carrying both code and\nan inline block comment increments both `code` and `comment`."
  fields := LineCounts.fieldNames.zip [
    count "Number of newline-delimited segments.",
    count "Lines with non-comment content.",
    count "Lines that are, or contain, a comment marker.",
    count "Whitespace-only lines."]

def duplication : Definition where
  name := "DuplicationStat"
  meaning := "Share of repeated non-blank lines in a file."
  fields := Duplication.fieldNames.zip [
    ⟨.measure, false, "Percentage of non-blank lines that repeat an earlier line, 0-100."⟩,
    count "Always 0; per-line duplication is not computed."]

def record : Definition where
  name := "MetricsRecord"
  meaning := "Metrics computed for a single file."
  fields := Record.fieldNames.zip [
    ⟨.text, false, "Path of the analyzed file."⟩,
    ⟨.structured lineCounts.name, false, ""⟩,
    ⟨.complexity, false, "Decision-point count plus a baseline of 1."⟩,
    count "Heuristic function count; the patterns overlap and overcount.",
    count "Number of `class <name>` occurrences.",
    ⟨.structured duplication.name, false, ""⟩,
    ⟨.texts, false, "Declared names that occur at most once in the file."⟩,
    ⟨.texts, false, "Imported names that occur at most once in the file."⟩,
    ⟨.texts, false, "Type-safety advisories, \"any\" before \"unknown\"."⟩]

def hotspot : Definition where
  name := "ComplexityHotspot"
  meaning := "The most complex file of a scan."
  fields := Hotspot.fieldNames.zip [
    ⟨.text, false, "Path of the file."⟩,
    ⟨.complexity, false, "Its complexity."⟩]

def summary : Definition where
  name := "ScanSummary"
  meaning := "Aggregate statistics across the records of one scan."
  fields := Summary.fieldNames.zip [
    count "Number of analyzed files.",
    count "Sum of `lines.total`.",
    count "Sum of `lines.code`.",
    count "Sum of `lines.comment`.",
    count "Sum of `lines.blank`.",
    ⟨.measure, false, "Mean complexity, 0 when no files were analyzed."⟩,
    ⟨.structured hotspot.name, true, ""⟩,
    count "Total unused variable findings.",
    count "Total unused import findings.",
    count "Total type-safety advisories.",
    ⟨.complexity, true, "Threshold used for `over_threshold`, if any."⟩,
    ⟨.texts, false, "Files whose complexity exceeds `max_complexity`, in input order."⟩]

/-- All structures, by name. -/
def definitions : List Definition :=
  [hotspot, duplication, lineCounts, record, summary]

/-! ## The schema in JSON -/

/-- A reference to a structure. -/
def referTo (name : String) : Json :=
  ofMembers [("$ref", ofString ("#/components/schemas/" ++ name))]

def Field.toJson (field : Field) : Json :=
  let nullable := if field.isOptional then [("nullable", Json.bool true)] else []
  let meaning := [("description", ofString field.meaning)]
  match field.shape with
  | .count =>
    ofMembers ([("type", ofString "integer")] ++ meaning ++ nullable ++ [("minimum", ofNat 0)])
  | .complexity =>
    ofMembers ([("type", ofString "integer"), ("format", ofString "int32")] ++ meaning ++ nullable
      ++ [("minimum", ofNat 0)])
  | .measure =>
    ofMembers ([("type", ofString "number"), ("format", ofString "double")] ++ meaning ++ nullable)
  | .text => ofMembers ([("type", ofString "string")] ++ meaning ++ nullable)
  | .texts =>
    ofMembers ([("type", ofString "array"), ("items", ofMembers [("type", ofString "string")])]
      ++ meaning ++ nullable)
  | .structured name =>
    if field.isOptional then ofMembers ([("allOf", .array [referTo name])] ++ nullable)
    else referTo name

/-- A structure as a JSON value: the names of its required fields in the order in which they are
written, then its fields by name. -/
def Definition.toJson (definition : Definition) : Json :=
  let required := definition.fields.filter fun entry => !entry.2.isOptional
  let sorted := definition.fields.mergeSort fun a b => a.1 ≤ b.1
  ofMembers [
    ("type", ofString "object"),
    ("description", ofString definition.meaning),
    ("required", .ofStrings (required.map (·.1))),
    ("properties", ofMembers (sorted.map fun entry => (entry.1, entry.2.toJson)))]

def toJson : Json :=
  ofMembers [
    ("openapi", ofString "3.0.3"),
    ("info", ofMembers [
      ("title", ofString "codemetrics-core"),
      ("description", ofString ""),
      ("license", ofMembers [("name", ofString "")]),
      ("version", ofString "0.0.1")]),
    ("paths", ofMembers []),
    ("components", ofMembers [
      ("schemas", ofMembers (definitions.map fun definition =>
        (definition.name, definition.toJson)))])]

def render : String :=
  toJson.render

end SourceMetrics.Schema
