import SourceMetrics.Record
import SourceMetrics.Proofs.Respelling.Lines
import SourceMetrics.Proofs.Respelling.Names
import SourceMetrics.Proofs.Total

/-! # Records of files that are spelt otherwise

Carriage returns in front of the line feeds and a byte order mark in front of it all leave what is
measured on a file as it is: each phrase that is counted is steady, lines are trimmed before their
kind is told, and names hold none of these characters. -/

namespace SourceMetrics

set_option autoImplicit false

open Text

theorem decisionPoints_respell (returns mark : Bool) (text : List Char) :
    Complexity.decisionPoints (respell returns mark text) = Complexity.decisionPoints text := by
  have hsteady : ∀ phrase ∈ Complexity.decisions, phrase.isSteady = true := by decide
  exact total_congr fun phrase hphrase => Phrase.count_respell (hsteady phrase hphrase) _ _ _

theorem functions_respell (returns mark : Bool) (text : List Char) :
    Declarations.functions (respell returns mark text) = Declarations.functions text := by
  have hsteady : ∀ phrase ∈ Declarations.functionForms, phrase.isSteady = true := by decide
  exact total_congr fun phrase hphrase => Phrase.count_respell (hsteady phrase hphrase) _ _ _

theorem classes_respell (returns mark : Bool) (text : List Char) :
    Declarations.classes (respell returns mark text) = Declarations.classes text :=
  Phrase.count_respell (by decide) returns mark text

theorem reports_respell (path : List Char) (returns mark : Bool) (text : List Char) :
    TypeAdvice.reports path (respell returns mark text) = TypeAdvice.reports path text := by
  have hsteady : ∀ entry ∈ TypeAdvice.advice, (TypeAdvice.typeForm entry.1).isSteady = true := by
    decide
  have hfilter : (TypeAdvice.advice.filter fun entry =>
        (TypeAdvice.typeForm entry.1).isFound (respell returns mark text)) =
      TypeAdvice.advice.filter fun entry => (TypeAdvice.typeForm entry.1).isFound text := by
    refine List.filter_congr fun entry hentry => ?_
    rw [Phrase.isFound, Phrase.isFound, Phrase.count_respell (hsteady entry hentry)]
  rw [TypeAdvice.reports, TypeAdvice.reports, hfilter]

namespace Record

/-- Two records tell the same of the lines, the counts, the unused variables and the types. -/
structure AgreesWith (record other : Record) : Prop where
  lines : record.lines = other.lines
  complexity : record.complexity = other.complexity
  functions : record.functions = other.functions
  classes : record.classes = other.classes
  unusedVariables : record.unusedVariables = other.unusedVariables
  typeIssues : record.typeIssues = other.typeIssues

/-- Carriage returns in front of the line feeds, a byte order mark, or both, leave the record of a
file as it is, its imports and its duplication apart. Without the mark the duplication is left as
well, if the file ends in a line feed. -/
theorem ofFile_respell (path content : String) (hne : content ≠ "") (returns mark : Bool) :
    (ofFile ⟨path, .ofList (respell returns mark content.toList)⟩).AgreesWith
        (ofFile ⟨path, content⟩) ∧
      (mark = false → content.toList.getLast? = some '\n' →
        (ofFile ⟨path, .ofList (respell returns mark content.toList)⟩).duplication =
          (ofFile ⟨path, content⟩).duplication) := by
  have htext : content.toList ≠ [] := by
    intro h
    exact hne (String.toList_eq_nil_iff.mp h)
  simp only [ofFile, String.toList_ofList]
  constructor
  · exact
      { lines := Lines.lineCounts_respell htext returns mark
        complexity := by
          rw [Complexity.ofText, Complexity.ofText, decisionPoints_respell]
        functions := functions_respell returns mark _
        classes := classes_respell returns mark _
        unusedVariables := congrArg (List.map String.ofList) (Names.unusedVariables_respell _ _ _)
        typeIssues := reports_respell _ returns mark _ }
  · rintro rfl hend
    cases returns with
    | false => rfl
    | true => exact Duplication.duplication_withReturns hend

/-- A file with both kinds of line ends and a repeated line. -/
def mixedFile : SourceFile :=
  ⟨"a.ts", "let n: any = 0\r\nif (n)\n  f()\n  f()\n"⟩

theorem ofFile_respell_mixed :
    mixedFile.content ≠ "" ∧ mixedFile.content.toList.getLast? = some '\n' ∧
      (ofFile ⟨"a.ts", "let n: any = 0\r\r\nif (n)\r\n  f()\r\n  f()\r\n"⟩).AgreesWith
        (ofFile mixedFile) ∧
      (ofFile ⟨"a.ts", "let n: any = 0\r\r\nif (n)\r\n  f()\r\n  f()\r\n"⟩).duplication =
        (ofFile mixedFile).duplication := by
  have hne : mixedFile.content ≠ "" := by decide
  have hend : mixedFile.content.toList.getLast? = some '\n' := by decide
  have hrespelt : String.ofList (respell true false mixedFile.content.toList) =
      "let n: any = 0\r\r\nif (n)\r\n  f()\r\n  f()\r\n" := by
    decide
  obtain ⟨hagrees, hduplication⟩ := ofFile_respell mixedFile.path mixedFile.content hne true false
  rw [hrespelt] at hagrees hduplication
  exact ⟨hne, hend, hagrees, hduplication rfl hend⟩

end Record

end SourceMetrics
