import SourceMetrics.Proofs.Report.Line
import SourceMetrics.Proofs.Total
import SourceMetrics.Report

/-! # The table of files

The rows of the table of files have nine cells between ten bars, and the path of a file is inserted into
the first one as it is. A bar behind a backslash is text; any other one parts two cells, also where it
comes from a path. So a path can add lines and cells to its row, and does so with each line feed and each
such bar.

* `openBars`: the bars that part cells.
* `toList_row`: a row is made of cells, each between two bars.
* `openBars_row`, `length_textLines_row`: how many bars and lines a row has.
* `KeepsShape`: one line for each row, and nine cells in each line.
* `keepsShape_iff`: which paths leave the table its shape. -/

namespace SourceMetrics.Report.Markdown

set_option autoImplicit false

/-! ## Bars -/

/-- The number of bars in a text that do not stand behind a backslash. Whether the text stands behind
one is given. -/
def openBarsFrom (escaped : Bool) : List Char → Nat
  | [] => 0
  | c :: rest => (if c = '|' ∧ escaped = false then 1 else 0) + openBarsFrom (c == '\\') rest

/-- The number of bars in a line that do not stand behind a backslash. -/
def openBars (line : List Char) : Nat :=
  openBarsFrom false line

theorem openBarsFrom_append_cons {c : Char} (hc : c ≠ '|') (escaped : Bool)
    (front rest : List Char) : openBarsFrom escaped (front ++ c :: rest) =
      openBarsFrom escaped front + openBarsFrom (c == '\\') rest := by
  induction front generalizing escaped with
  | nil => rw [List.nil_append, openBarsFrom, openBarsFrom, if_neg fun h => hc h.1]
  | cons d front ih =>
    rw [List.cons_append, openBarsFrom, ih, openBarsFrom, Nat.add_assoc]

theorem openBarsFrom_of_not_mem {text : List Char} (h : '|' ∉ text) (escaped : Bool) :
    openBarsFrom escaped text = 0 := by
  induction text generalizing escaped with
  | nil => rfl
  | cons c text ih =>
    rw [List.mem_cons, not_or] at h
    rw [openBarsFrom, if_neg fun hbar => h.1 hbar.1.symm, ih h.2]

/-! ## Rows and their cells -/

/-- The counts of a record, in the order of its row. -/
def counts (record : Record) : List Nat :=
  [record.lines.total, record.lines.code, record.lines.comment, record.lines.blank,
    record.complexity, record.functions, record.classes]

/-- The figures of a record, in the order of its row. -/
def figures (record : Record) : List String :=
  (counts record).map toString ++ [Decimal.withPlaces 2 record.duplication.percentage ++ "%"]

/-- What stands in the cells of a row. -/
def cells (record : Record) : List String :=
  ("`" ++ record.path ++ "`") :: figures record

/-- A cell between blanks, with the bar behind it. -/
def closedCell (cell : String) : List Char :=
  ' ' :: cell.toList ++ [' ', '|']

theorem toList_row (record : Record) :
    (row record).toList = '|' :: (cells record).flatMap closedCell := by
  have htext (text : String) : toString text = text := rfl
  have hopen : "| `".toList = ['|', ' ', '`'] := rfl
  have htick : "` | ".toList = ['`', ' ', '|', ' '] := rfl
  have hbar : " | ".toList = [' ', '|', ' '] := rfl
  have hclose : "% |".toList = ['%', ' ', '|'] := rfl
  have hquote : "`".toList = ['`'] := rfl
  have hshare : "%".toList = ['%'] := rfl
  unfold row cells figures counts
  simp only [closedCell, String.toList_append, List.map_cons, List.map_nil, List.flatMap_cons, List.flatMap_nil,
    List.append_assoc, List.cons_append, List.nil_append, htext, hopen, htick, hbar, hclose, hquote,
    hshare]

theorem openBars_closedCells (found : List String) (escaped : Bool) :
    openBarsFrom escaped (found.flatMap closedCell) =
      total (fun cell => openBars cell.toList + 1) found := by
  have hblank : ∀ (escaped : Bool) (rest : List Char),
      openBarsFrom escaped (' ' :: rest) = openBarsFrom false rest := fun escaped rest =>
    openBarsFrom_append_cons (by decide) escaped [] rest |>.trans (Nat.zero_add _)
  induction found generalizing escaped with
  | nil => rfl
  | cons cell found ih =>
    rw [List.flatMap_cons, closedCell, List.append_assoc, List.cons_append, hblank, List.cons_append,
      openBarsFrom_append_cons (by decide), total, ← ih false, Nat.add_assoc]
    rfl

/-- No figure holds a bar or a line feed. -/
theorem not_mem_figures {record : Record} {c : Char} (hc : isFigure c = false) (hshare : c ≠ '%') :
    ∀ figure ∈ figures record, c ∉ figure.toList := by
  intro figure hfigure
  obtain hcount | hlast := List.mem_append.mp hfigure
  · obtain ⟨n, -, rfl⟩ := List.mem_map.mp hcount
    exact not_mem_of_isFigure (isFigure_toString n) hc
  · rw [List.mem_singleton.mp hlast, String.toList_append, List.mem_append, not_or]
    exact ⟨not_mem_of_isFigure (isFigure_withPlaces _ _) hc, fun h => hshare (List.mem_singleton.mp h)⟩

theorem openBars_pathCell (path : String) :
    openBars ("`" ++ path ++ "`").toList = openBars path.toList := by
  have hquote : "`".toList = ['`'] := rfl
  rw [String.toList_append, String.toList_append, hquote, openBars,
    openBarsFrom_append_cons (by decide)]
  exact Nat.zero_add _

/-- A row has the ten bars of its nine cells, and those of its path. -/
theorem openBars_row (record : Record) :
    openBars (row record).toList = 10 + openBars record.path.toList := by
  have hfigures : total (fun cell => openBars cell.toList + 1) (figures record) =
      total (fun _ => 1) (figures record) := total_congr fun figure hfigure => by
    rw [openBars, openBarsFrom_of_not_mem (not_mem_figures (by decide) (by decide) figure hfigure)]
  have hcount : total (fun _ => 1) (figures record) = 8 := rfl
  have hrow : openBars (row record).toList =
      1 + total (fun cell => openBars cell.toList + 1) (cells record) := by
    rw [toList_row, openBars, openBarsFrom, openBars_closedCells]
    rfl
  rw [hrow, cells, total, hfigures, hcount, openBars_pathCell]
  omega

theorem count_closedCells {c : Char} (hc : c ≠ ' ') (hbar : c ≠ '|') (found : List String) :
    (found.flatMap closedCell).count c = total (fun cell => cell.toList.count c) found := by
  rw [total_eq_sum, List.count_flatMap]
  refine congrArg List.sum (List.map_congr_left fun cell _ => ?_)
  simp only [Function.comp_apply, closedCell, List.cons_append, List.count_append, List.count_cons,
    List.count_nil]
  simp [hc.symm, hbar.symm]

/-- All line feeds of a row are those of its path. -/
theorem count_row (record : Record) :
    (row record).toList.count '\n' = record.path.toList.count '\n' := by
  have hfigures : total (fun cell => cell.toList.count '\n') (figures record) = 0 :=
    total_eq_zero_iff.mpr fun figure hfigure =>
      List.count_eq_zero.mpr (not_mem_figures (by decide) (by decide) figure hfigure)
  have hquote : "`".toList.count '\n' = 0 := by decide
  rw [toList_row, List.count_cons_of_ne (by decide), count_closedCells (by decide) (by decide), cells,
    total, hfigures, String.toList_append, String.toList_append, List.count_append, List.count_append,
    hquote, Nat.zero_add]
  rfl

/-- A row takes one line of text, and one more for each line feed of its path. -/
theorem length_textLines_row (record : Record) :
    (textLines (row record)).length = record.path.toList.count '\n' + 1 := by
  rw [textLines, Text.length_split, count_row]

/-! ## The table -/

/-- The lines of text that the table of files takes, its two header lines included. -/
def tableText (records : List Record) : List (List Char) :=
  (tableLines records).flatMap textLines

/-- The table has one line for each record behind its two header lines, and each line has the nine cells
of the header. -/
def KeepsShape (records : List Record) : Prop :=
  (tableText records).length = records.length + 2 ∧ ∀ line ∈ tableText records, openBars line = 10

theorem tableText_nil : tableText [] = (tableLines []).map String.toList :=
  flatMap_textLines (by decide)

theorem openBars_header : ∀ line ∈ tableText [], openBars line = 10 := by
  rw [tableText_nil]
  decide

theorem tableText_eq (records : List Record) :
    tableText records = tableText [] ++ records.flatMap fun record => textLines (row record) := by
  have hlines : tableLines records = tableLines [] ++ records.map row := rfl
  rw [tableText, hlines, List.flatMap_append, List.flatMap_map]
  rfl

/-- Below the header the table has one line for each record, and one more for each line feed in a
path. -/
theorem length_tableText (records : List Record) : (tableText records).length =
    records.length + 2 + total (fun record => record.path.toList.count '\n') records := by
  have hrows : (records.flatMap fun record => textLines (row record)).length =
      total (fun record => record.path.toList.count '\n') records + records.length := by
    induction records with
    | nil => rfl
    | cons record records ih =>
      rw [List.flatMap_cons, List.length_append, ih, length_textLines_row, total, List.length_cons]
      omega
  rw [tableText_eq, List.length_append, hrows, tableText_nil]
  change 2 + _ = _
  omega

/-- Paths without a line feed leave each row on one line. -/
theorem tableText_of_oneLine {records : List Record}
    (h : ∀ record ∈ records, '\n' ∉ record.path.toList) :
    tableText records = tableText [] ++ records.map fun record => (row record).toList := by
  have hrows : ∀ line ∈ records.map row, '\n' ∉ line.toList := List.forall_mem_map.mpr
    fun record hrecord => List.count_eq_zero.mp ((count_row record).trans
      (List.count_eq_zero.mpr (h record hrecord)))
  rw [tableText_eq, ← List.flatMap_map row textLines, flatMap_textLines hrows, List.map_map]
  rfl

theorem keepsShape_iff (records : List Record) : KeepsShape records ↔
    ∀ record ∈ records, '\n' ∉ record.path.toList ∧ openBars record.path.toList = 0 := by
  constructor
  · rintro ⟨hlength, hbars⟩
    have hnone : total (fun record : Record => record.path.toList.count '\n') records = 0 := by
      rw [length_tableText] at hlength
      omega
    have hfeeds : ∀ record ∈ records, '\n' ∉ record.path.toList := fun record hrecord =>
      List.count_eq_zero.mp (total_eq_zero_iff.mp hnone record hrecord)
    refine fun record hrecord => ⟨hfeeds record hrecord, ?_⟩
    have hrow := hbars (row record).toList <| by
      rw [tableText_of_oneLine hfeeds]
      exact List.mem_append_right _ (List.mem_map_of_mem hrecord)
    rw [openBars_row] at hrow
    omega
  · intro h
    have hfeeds : ∀ record ∈ records, '\n' ∉ record.path.toList := fun record hrecord =>
      (h record hrecord).1
    rw [KeepsShape, tableText_of_oneLine hfeeds, tableText_nil]
    refine ⟨?_, fun line hline => ?_⟩
    · rw [List.length_append, List.length_map, List.length_map, Nat.add_comm]
      rfl
    · obtain hheader | hrow := List.mem_append.mp hline
      · rw [← tableText_nil] at hheader
        exact openBars_header line hheader
      · obtain ⟨record, hrecord, rfl⟩ := List.mem_map.mp hrow
        rw [openBars_row, (h record hrecord).2]

/-- The lines of text of a report: the summary, the table of files up to an empty line, and the
findings. -/
theorem split_render {records : List Record} (hne : records ≠ []) (summary : Summary) :
    Text.split '\n' (render records summary).toList =
      (["# CodeMetrics Report", ""] ++ summaryLines summary ++ ["## Files", ""]).flatMap textLines ++
        tableText records ++ [] :: ((findingsLines records).flatMap textLines ++ [[]]) := by
  have hfiles : fileLines records =
      ["## Files", ""] ++ tableLines records ++ [""] ++ findingsLines records := by
    rw [fileLines, if_neg (mt List.isEmpty_iff.mp hne)]
  rw [render, split_ofLines, lines, hfiles]
  simp only [List.flatMap_append, tableText, List.append_assoc]
  -- What is left is the empty line, which takes one empty line of text.
  rfl

/-- **The table of files.** In the report on some records it has the row of each record behind its two
header lines, in the order of the records. A row takes one line of text, and one more for each line feed
of the path, and has ten bars that part cells and those of the path besides. So the table keeps the shape
of its header, one line for each record and nine cells in each line, if and only if no path holds a line
feed or a bar that does not stand behind a backslash. -/
theorem table_of_files (records : List Record) (hne : records ≠ []) (summary : Summary) :
    Text.split '\n' (render records summary).toList =
        (["# CodeMetrics Report", ""] ++ summaryLines summary ++ ["## Files", ""]).flatMap textLines ++
          tableText records ++ [] :: ((findingsLines records).flatMap textLines ++ [[]]) ∧
      tableText records = tableText [] ++ records.flatMap (fun record => textLines (row record)) ∧
      (∀ record ∈ records,
        (textLines (row record)).length = record.path.toList.count '\n' + 1 ∧
        openBars (row record).toList = 10 + openBars record.path.toList) ∧
      ((∀ record ∈ records, '\n' ∉ record.path.toList) →
        tableText records = tableText [] ++ records.map fun record => (row record).toList) ∧
      (KeepsShape records ↔
        ∀ record ∈ records, '\n' ∉ record.path.toList ∧ openBars record.path.toList = 0) :=
  ⟨split_render hne summary, tableText_eq records,
    fun record _ => ⟨length_textLines_row record, openBars_row record⟩, tableText_of_oneLine,
    keepsShape_iff records⟩

/-- A bar behind a backslash leaves the table its shape. -/
theorem table_of_files_escaped :
    [Record.ofFile ⟨"a\\|b.js", ""⟩] ≠ [] ∧ KeepsShape [Record.ofFile ⟨"a\\|b.js", ""⟩] := by
  have hne : [Record.ofFile ⟨"a\\|b.js", ""⟩] ≠ [] := List.cons_ne_nil _ _
  obtain ⟨-, -, -, -, hshape⟩ :=
    table_of_files [Record.ofFile ⟨"a\\|b.js", ""⟩] hne (.ofRecords [Record.ofFile ⟨"a\\|b.js", ""⟩] none)
  have hpath : '\n' ∉ "a\\|b.js".toList ∧ openBars "a\\|b.js".toList = 0 := by decide
  exact ⟨hne, hshape.mpr (List.forall_mem_singleton.mpr hpath)⟩

/-- A bar in a path is an eleventh one in its row, and a line feed parts the row in two. -/
theorem not_keepsShape :
    openBars (row (.ofFile ⟨"a|b.js", ""⟩)).toList = 11 ∧
      (textLines (row (.ofFile ⟨"a\nb.js", ""⟩))).length = 2 ∧
      ¬ ∀ records : List Record, records ≠ [] → KeepsShape records := by
  have hbars : openBars "a|b.js".toList = 1 := by decide
  have hrow : openBars (row (.ofFile ⟨"a|b.js", ""⟩)).toList = 11 := by
    rw [openBars_row]
    exact congrArg (10 + ·) hbars
  refine ⟨hrow, (length_textLines_row _).trans (by decide), fun h => ?_⟩
  have hshape := h [.ofFile ⟨"a|b.js", ""⟩] (List.cons_ne_nil _ _)
  have hnone := ((keepsShape_iff _).mp hshape _ List.mem_cons_self).2
  cases hbars.symm.trans hnone

end SourceMetrics.Report.Markdown
