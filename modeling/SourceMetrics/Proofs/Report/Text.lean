import SourceMetrics.Proofs.Names.Unused
import SourceMetrics.Proofs.Report.Findings
import SourceMetrics.Proofs.Report.Table
import SourceMetrics.Proofs.Summary.Hotspot
import SourceMetrics.Proofs.TypeAdvice.Reports

/-! # Reports that are read from their text

A line of a report takes several lines of text where a path or a name in it holds a line feed. Where none
does, the lines are read off the text again, so what the lines tell is told by the text.

* `IsPlain`: a record whose path and names hold no line feeds. Of the record of a file only the path and
  the imports can hold some (`isPlain_ofFile`).
* `readLines_ofLines`: lines without line feeds are read again.
* `Table.linesOfText_eq`: so are those of a table, whose marks and list are then told by its text
  (`Table.marked_in_text`).
* `Markdown.findingsOfText_eq`: so are the findings of a report, which are told by its text in the same
  way (`Markdown.findings_in_text`). They are found by their heading, which no line in front of them is
  (`Markdown.ne_heading_of_mem_leading`). -/

namespace SourceMetrics

set_option autoImplicit false

namespace Report

/-! ## Lines without line feeds -/

/-- There is no line feed in a text. -/
def IsOneLine (text : String) : Prop :=
  '\n' ∉ text.toList

instance (text : String) : Decidable (IsOneLine text) :=
  inferInstanceAs (Decidable (_ ∉ _))

@[simp]
theorem isOneLine_append (front rest : String) :
    IsOneLine (front ++ rest) ↔ IsOneLine front ∧ IsOneLine rest := by
  unfold IsOneLine
  rw [String.toList_append, List.mem_append, not_or]

@[simp]
theorem isOneLine_repr (n : Nat) : IsOneLine n.repr :=
  not_mem_of_isFigure (isFigure_toString n) (by decide)

@[simp]
theorem isOneLine_withPlaces (places : Nat) (x : Float) : IsOneLine (Decimal.withPlaces places x) :=
  not_mem_of_isFigure (isFigure_withPlaces places x) (by decide)

theorem isOneLine_intercalate {names : List String} (h : ∀ name ∈ names, IsOneLine name) :
    IsOneLine (", ".intercalate names) := by
  induction names with
  | nil => decide
  | cons name names ih =>
    rw [List.forall_mem_cons] at h
    cases names with
    | nil =>
      rw [String.intercalate_singleton]
      exact h.1
    | cons next names =>
      have hcomma : IsOneLine ", " := by decide
      rw [String.intercalate_cons_cons, isOneLine_append, isOneLine_append]
      exact ⟨⟨h.1, hcomma⟩, ih h.2⟩

theorem isOneLine_nameList {names : List String} (h : ∀ name ∈ names, IsOneLine name) :
    IsOneLine (nameList names) := by
  unfold nameList
  split
  · decide
  · exact isOneLine_intercalate h

/-- The lines of a text each of which ends in a line feed. -/
def readLines (text : String) : List String :=
  (Text.split '\n' text.toList).dropLast.map String.ofList

theorem readLines_ofLines {lines : List String} (h : ∀ line ∈ lines, IsOneLine line) :
    readLines (ofLines lines) = lines := by
  rw [readLines, split_ofLines, flatMap_textLines h, List.dropLast_concat, List.map_map]
  exact List.map_id'' (fun _ => String.ofList_toList) lines

end Report

/-! ## Records without line feeds -/

open Report

/-- Neither the path nor a name in a record holds a line feed. -/
structure Record.IsPlain (record : Record) : Prop where
  path : IsOneLine record.path
  names : ∀ kind : Markdown.Kind, ∀ name ∈ kind.names record, IsOneLine name

theorem Record.IsPlain.isOneLine_nameLists {record : Record} (h : record.IsPlain) :
    IsOneLine (nameList record.unusedVariables) ∧ IsOneLine (nameList record.unusedImports) ∧
      IsOneLine (nameList record.typeIssues) :=
  ⟨isOneLine_nameList (h.names .declared), isOneLine_nameList (h.names .imported),
    isOneLine_nameList (h.names .advised)⟩

/-- The variables of a file are names, and the advice on it is a fixed text. -/
theorem Record.isPlain_ofFile {file : SourceFile} (hpath : IsOneLine file.path)
    (himports : ∀ name ∈ (Record.ofFile file).unusedImports, IsOneLine name) :
    (Record.ofFile file).IsPlain := by
  refine ⟨hpath, fun kind name hname => ?_⟩
  cases kind with
  | declared =>
    obtain ⟨found, hmem, rfl⟩ := List.mem_map.mp hname
    obtain ⟨-, hall⟩ := Names.isName_of_mem_declared (List.mem_filter.mp hmem).1
    intro hfeed
    rw [String.toList_ofList] at hfeed
    cases hall _ hfeed
  | imported => exact himports name hname
  | advised =>
    have hfixed : ∀ text ∈ TypeAdvice.advice.map (·.2), IsOneLine text := by decide
    exact hfixed name ((TypeAdvice.sublist_reports _ _).subset hname)

/-- No path in a summary holds a line feed. -/
structure Summary.IsPlain (summary : Summary) : Prop where
  hotspot : ∀ found ∈ summary.hotspot, IsOneLine found.path
  overLimit : ∀ path ∈ summary.overLimit, IsOneLine path

variable {records : List Record} {summary : Summary}

theorem Summary.isPlain_ofRecords (h : ∀ record ∈ records, record.IsPlain) (limit : Option Nat) :
    (Summary.ofRecords records limit).IsPlain := by
  constructor
  · intro found hfound
    obtain ⟨place, record, hrecord, rfl⟩ := exists_of_greatest hfound
    exact (h record (List.mem_of_getElem? hrecord.stands)).path
  · intro path hpath
    obtain ⟨record, hrecord, rfl⟩ := List.mem_map.mp hpath
    exact (h record (List.mem_filter.mp hrecord).1).path

namespace Report

@[simp]
theorem isOneLine_text (text : String) : IsOneLine (toString text) ↔ IsOneLine text :=
  .rfl

/-! ## The text of a table -/

namespace Table

theorem isOneLine_limitMark (limit : Option Nat) (record : Record) :
    IsOneLine (limitMark limit record) := by
  unfold limitMark
  split
  · split
    · simp +decide
    · decide
  · decide

theorem isOneLine_block {record : Record} (h : record.IsPlain) (limit : Option Nat) :
    ∀ line ∈ block limit record, IsOneLine line := by
  have hmark := isOneLine_limitMark limit record
  obtain ⟨hdeclared, himported, hadvised⟩ := h.isOneLine_nameLists
  simp +decide [block, h.path, hmark, hdeclared, himported, hadvised]

theorem isOneLine_limitLines (h : summary.IsPlain) : ∀ line ∈ limitLines summary, IsOneLine line := by
  unfold limitLines
  split
  · exact List.forall_mem_nil _
  · split
    · simp +decide
    · simpa +decide using h.overLimit

theorem isOneLine_hotspotLines (h : summary.IsPlain) :
    ∀ line ∈ hotspotLines summary.hotspot, IsOneLine line := by
  unfold hotspotLines
  split
  · simpa +decide using h.hotspot _ ‹_›
  · exact List.forall_mem_nil _

theorem isOneLine_rule : IsOneLine rule := by
  unfold IsOneLine rule
  rw [toList_pushn]
  exact fun hfeed => absurd (List.eq_of_mem_replicate hfeed) (by decide)

theorem isOneLine_totalLines (h : summary.IsPlain) : ∀ line ∈ totalLines summary, IsOneLine line := by
  rw [totalLines, List.forall_mem_append, List.forall_mem_append]
  refine ⟨⟨?_, isOneLine_hotspotLines h⟩, isOneLine_limitLines h⟩
  rw [List.forall_mem_cons, List.forall_mem_cons]
  refine ⟨by decide, isOneLine_rule, ?_⟩
  simp +decide

/-- The lines in the text of the table on some records and their summary. -/
def linesOfText (records : List Record) (limit : Option Nat) : List String :=
  readLines (render records (.ofRecords records limit))

/-- Each line of a table on plain records is one line of its text. -/
theorem linesOfText_eq (h : ∀ record ∈ records, record.IsPlain) (limit : Option Nat) :
    linesOfText records limit = written records limit := by
  have htotal := isOneLine_totalLines (Summary.isPlain_ofRecords h limit)
  refine readLines_ofLines ?_
  rw [lines, List.forall_mem_append, List.forall_mem_cons, List.forall_mem_cons,
    List.forall_mem_singleton]
  refine ⟨⟨by decide, by decide, isOneLine_rule⟩, ?_⟩
  split
  · decide
  · rw [List.forall_mem_append, List.forall_mem_flatMap]
    exact ⟨fun record hrecord => isOneLine_block (h record hrecord) limit, htotal⟩

/-- **The marks and the list in the text.** In the text of a table on some records without line feeds
the marked blocks are those of the files above the limit, and the files that they name are the files in
the list. -/
theorem marked_in_text (hne : records ≠ []) (h : ∀ record ∈ records, record.IsPlain) :
    (∀ limit : Nat,
      (blocks records.length (linesOfText records (some limit))).map (carries limit) =
        records.map (·.exceeds limit) ∧
      marked limit records.length (linesOfText records (some limit)) =
        listed limit records.length (linesOfText records (some limit)) ∧
      (noneLine limit ∈ closing records.length (linesOfText records (some limit)) ↔
        ∀ found ∈ blocks records.length (linesOfText records (some limit)),
          carries limit found = false)) ∧
    ∀ limit : Nat,
      (∀ found ∈ blocks records.length (linesOfText records none), carries limit found = false) ∧
      ∀ line ∈ closing records.length (linesOfText records none),
        ¬ "Over complexity".toList <+: line.toList := by
  constructor
  · intro limit
    rw [linesOfText_eq h]
    exact ⟨marks_written hne limit, marked_written hne limit, noneLine_mem_written hne limit⟩
  · intro limit
    rw [linesOfText_eq h]
    exact ⟨unmarked_written hne limit, unlisted_written hne⟩

end Table

/-! ## The text of a report -/

namespace Markdown

theorem isOneLine_limitLines (h : summary.IsPlain) : ∀ line ∈ limitLines summary, IsOneLine line := by
  unfold limitLines
  split
  · exact List.forall_mem_nil _
  · split
    · simp +decide
    · rw [List.forall_mem_append, List.forall_mem_cons, List.forall_mem_map]
      refine ⟨⟨?_, fun path hpath => ?_⟩, by decide⟩
      · simp +decide
      · have hline := h.overLimit path hpath
        simp +decide [hline]

theorem isOneLine_hotspotLines (h : summary.IsPlain) :
    ∀ line ∈ hotspotLines summary.hotspot, IsOneLine line := by
  unfold hotspotLines
  split
  · simpa +decide using h.hotspot _ ‹_›
  · exact List.forall_mem_nil _

theorem isOneLine_summaryLines (h : summary.IsPlain) :
    ∀ line ∈ summaryLines summary, IsOneLine line := by
  rw [summaryLines, List.forall_mem_append, List.forall_mem_append, List.forall_mem_append]
  refine ⟨⟨⟨?_, isOneLine_hotspotLines h⟩, ?_⟩, isOneLine_limitLines h⟩
  · simp +decide
  · simp +decide

theorem isOneLine_row {record : Record} (h : record.IsPlain) : IsOneLine (row record) := by
  refine List.count_eq_zero.mp ?_
  rw [count_row]
  exact List.count_eq_zero.mpr h.path

theorem isOneLine_findingLines {record : Record} (h : record.IsPlain) :
    ∀ line ∈ findingLines record, IsOneLine line := by
  obtain ⟨hdeclared, himported, hadvised⟩ := h.isOneLine_nameLists
  simp +decide [findingLines, h.path, hdeclared, himported, hadvised]

theorem isOneLine_findingsLines (h : ∀ record ∈ records, record.IsPlain) :
    ∀ line ∈ findingsLines records, IsOneLine line := by
  by_cases hnone : records.filter Record.hasFindings = []
  · rw [findingsLines_of_eq_nil hnone]
    decide
  · rw [findingsLines_of_ne_nil hnone, List.forall_mem_append, List.forall_mem_flatMap]
    exact ⟨by decide, fun record hrecord =>
      isOneLine_findingLines (h record (List.mem_filter.mp hrecord).1)⟩

/-- The lines in front of the findings. -/
def leading (records : List Record) (summary : Summary) : List String :=
  ["# CodeMetrics Report", ""] ++ summaryLines summary ++ ["## Files", ""] ++
    tableLines records ++ [""]

theorem lines_of_ne_nil (hne : records ≠ []) :
    lines records summary = leading records summary ++ findingsLines records := by
  rw [lines, fileLines, if_neg (mt List.isEmpty_iff.mp hne), leading]
  simp only [List.append_assoc]

theorem isOneLine_leading (h : ∀ record ∈ records, record.IsPlain) (hsummary : summary.IsPlain) :
    ∀ line ∈ leading records summary, IsOneLine line := by
  simp only [leading, tableLines, List.forall_mem_append, List.forall_mem_map]
  exact ⟨⟨⟨⟨by decide, isOneLine_summaryLines hsummary⟩, by decide⟩, by decide,
    fun record hrecord => isOneLine_row (h record hrecord)⟩, by decide⟩

theorem ne_heading_of_head {line : String} {c : Char} (h : line.toList.head? = some c)
    (hc : c ≠ '#') : line ≠ "## Findings" := by
  rintro rfl
  exact hc (Option.some.inj h).symm

theorem limitHeading_ne (limit : Nat) : s!"### Over complexity {limit}" ≠ "## Findings" := by
  intro heq
  have hthird : (s!"### Over complexity {limit}").toList[2]? = some '#' := by
    rw [String.toList_append]
    rfl
  rw [heq] at hthird
  cases hthird

theorem ne_heading_of_mem_limitLines (summary : Summary) :
    ∀ line ∈ limitLines summary, line ≠ "## Findings" := by
  unfold limitLines
  split
  · exact List.forall_mem_nil _
  · split
    · simp only [List.cons_append, List.nil_append, List.forall_mem_cons]
      exact ⟨limitHeading_ne _, by decide, by decide, List.forall_mem_nil _⟩
    · rw [List.forall_mem_append, List.forall_mem_cons, List.forall_mem_map]
      refine ⟨⟨limitHeading_ne _, fun path _ => ?_⟩, by decide⟩
      exact ne_heading_of_head (head_append (head_append rfl _) _) (by decide)

theorem ne_heading_of_mem_summaryLines (summary : Summary) :
    ∀ line ∈ summaryLines summary, line ≠ "## Findings" := by
  rw [summaryLines, List.forall_mem_append, List.forall_mem_append, List.forall_mem_append]
  refine ⟨⟨⟨?_, ?_⟩, ?_⟩, ne_heading_of_mem_limitLines summary⟩
  · simp only [List.forall_mem_cons, String.append_assoc]
    exact ⟨by decide, by decide, ne_heading_of_head (head_append rfl _) (by decide),
      ne_heading_of_head (head_append rfl _) (by decide),
      ne_heading_of_head (head_append rfl _) (by decide), List.forall_mem_nil _⟩
  · unfold hotspotLines
    split
    · simp only [List.forall_mem_singleton, String.append_assoc]
      exact ne_heading_of_head (head_append rfl _) (by decide)
    · exact List.forall_mem_nil _
  · simp only [List.forall_mem_cons, String.append_assoc]
    exact ⟨ne_heading_of_head (head_append rfl _) (by decide), by decide, List.forall_mem_nil _⟩

theorem row_ne_heading (record : Record) : row record ≠ "## Findings" := by
  refine @ne_heading_of_head _ '|' ?_ (by decide)
  rw [toList_row]
  rfl

/-- No line in front of the findings is their heading. -/
theorem ne_heading_of_mem_leading (records : List Record) (summary : Summary) :
    ∀ line ∈ leading records summary, line ≠ "## Findings" := by
  simp only [leading, tableLines, List.forall_mem_append, List.forall_mem_map]
  exact ⟨⟨⟨⟨by decide, ne_heading_of_mem_summaryLines summary⟩, by decide⟩, by decide,
    fun record _ => row_ne_heading record⟩, by decide⟩

/-- The lines in the text of a report from the heading of the findings on. -/
def findingsOfText (records : List Record) (limit : Option Nat) : List String :=
  (readLines (render records (.ofRecords records limit))).dropWhile (· != "## Findings")

theorem exists_findingsLines (records : List Record) :
    ∃ rest, findingsLines records = "## Findings" :: rest := by
  unfold findingsLines
  dsimp only
  split
  · exact ⟨_, rfl⟩
  · exact ⟨_, rfl⟩

theorem findingsOfText_eq (hne : records ≠ []) (h : ∀ record ∈ records, record.IsPlain)
    (limit : Option Nat) : findingsOfText records limit = findingsLines records := by
  have hlines : ∀ line ∈ lines records (.ofRecords records limit), IsOneLine line := by
    rw [lines_of_ne_nil hne, List.forall_mem_append]
    exact ⟨isOneLine_leading h (Summary.isPlain_ofRecords h limit), isOneLine_findingsLines h⟩
  have hfront : ∀ line ∈ leading records (.ofRecords records limit),
      (line != "## Findings") = true := fun line hmem =>
    bne_iff_ne.mpr (ne_heading_of_mem_leading records _ line hmem)
  obtain ⟨rest, hrest⟩ := exists_findingsLines records
  rw [findingsOfText, render, readLines_ofLines hlines, lines_of_ne_nil hne,
    List.dropWhile_append_of_pos hfront, hrest]
  rfl

/-- **The findings in the text.** In the text of a report on some records without line feeds there is a
section for each record with findings. The sections list as many names of each kind as the summary has
counted, as far as they can be told apart, and that there are no findings is written if and only if the
summary has counted none. -/
theorem findings_in_text (hne : records ≠ []) (h : ∀ record ∈ records, record.IsPlain)
    (limit : Option Nat) :
    sections (findingsOfText records limit) =
        (records.filter Record.hasFindings).map findingLines ∧
      (∀ kind : Kind, (∀ record ∈ records, ToldApart (kind.names record)) →
        total (shown kind) (sections (findingsOfText records limit)) =
          kind.counter (.ofRecords records limit)) ∧
      ("No findings." ∈ findingsOfText records limit ↔
        ∀ kind : Kind, kind.counter (.ofRecords records limit) = 0) := by
  rw [findingsOfText_eq hne h]
  exact ⟨sections_findingsLines records, fun kind hapart => total_shown hapart limit,
    (noFindings_mem_iff records).trans (flagged_eq_nil_iff records limit)⟩

end Markdown

end Report

end SourceMetrics
