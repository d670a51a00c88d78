import SourceMetrics.Proofs.Report.Line
import SourceMetrics.Report

/-! # The files above the limit in a text table

A table tells twice which files lie above the limit: by a mark in the block of the file, and by a list
below the totals. Both are read off the lines here, the blocks by their size and the list by its heading,
and both name the same files.

* `blocks`, `closing`: the parts of a table.
* `marked`: the files whose blocks carry the mark.
* `listed`: the files in the list.
* `carries_block`: which blocks carry the mark.
* `head_totalLines`: no other line of the totals can be taken for the heading of the list.
* `marked_eq_listed`: the marks and the list agree. -/

namespace SourceMetrics.Report.Table

set_option autoImplicit false

variable {records : List Record} {summary : Summary} {limit : Nat}

/-! ## Reading a table -/

/-- The blocks of so many records, nine lines each, below the three lines of the title. -/
def blocks (count : Nat) (written : List String) : List (List String) :=
  parts 9 count (written.drop 3)

/-- The lines below the blocks of so many records. -/
def closing (count : Nat) (written : List String) : List String :=
  written.drop (3 + 9 * count)

/-- The file that a block is about. It stands on the second line. -/
def file (found : List String) : String :=
  found.getD 1 ""

/-- Whether the fourth line of a block, the one on the complexity, ends in the mark of a limit. -/
def carries (limit : Nat) (found : List String) : Bool :=
  s!" (exceeds {limit})".toList.isSuffixOf (found.getD 3 "").toList

/-- The files whose blocks carry the mark of a limit. -/
def marked (limit count : Nat) (written : List String) : List String :=
  ((blocks count written).filter (carries limit)).map file

def heading (limit : Nat) : String :=
  s!"Over complexity {limit}:"

/-- The line in place of an empty list. -/
def noneLine (limit : Nat) : String :=
  s!"Over complexity {limit}: none"

def item (path : String) : String :=
  s!"- {path}"

/-- The files in the list of a limit, what stands behind the dash in each line below the heading. -/
def listed (limit count : Nat) (written : List String) : List String :=
  (((closing count written).dropWhile (· != heading limit)).drop 1).map fun line =>
    String.ofList (line.toList.drop 2)

/-! ## Blocks and their marks -/

theorem lines_of_ne_nil (hne : records ≠ []) : lines records summary =
    ["", "Code Metrics Report", rule] ++
      (records.flatMap (block summary.limit) ++ totalLines summary) := by
  rw [lines, if_neg (mt List.isEmpty_iff.mp hne)]

theorem length_block (limit : Option Nat) (record : Record) : (block limit record).length = 9 :=
  rfl

theorem blocks_lines (hne : records ≠ []) :
    blocks records.length (lines records summary) = records.map (block summary.limit) := by
  rw [blocks, lines_of_ne_nil hne]
  exact parts_flatMap (length_block _) records _

theorem closing_lines (hne : records ≠ []) :
    closing records.length (lines records summary) = totalLines summary := by
  rw [closing, lines_of_ne_nil hne, ← List.drop_drop]
  exact drop_flatMap (length_block _) records _

theorem carries_of_limitMark_eq {limit' : Option Nat} {record : Record}
    (h : limitMark limit' record = "") : carries limit (block limit' record) = false := by
  -- The mark ends in a bracket, and without a mark there is none in the line.
  have hlast : ')' ∈ s!" (exceeds {limit})".toList := by
    rw [String.toList_append]
    exact List.mem_append_right _ (by decide)
  have hlabel : ')' ∉ (toString "  Complexity: ").toList := by decide
  have hfigure : ')' ∉ (toString record.complexity).toList :=
    not_mem_of_isFigure (isFigure_toString _) (by decide)
  have hline : ')' ∉ (s!"  Complexity: {record.complexity}" ++ limitMark limit' record).toList := by
    rw [h, String.append_empty, String.toList_append, List.mem_append, not_or]
    exact ⟨hlabel, hfigure⟩
  refine Bool.eq_false_iff.mpr fun hcarries => hline ?_
  exact (List.isSuffixOf_iff_suffix.mp hcarries).subset hlast

theorem carries_block (limit : Nat) (record : Record) :
    carries limit (block (some limit) record) = record.exceeds limit := by
  cases hexceeds : record.exceeds limit with
  | true =>
    have hmark : limitMark (some limit) record = s!" (exceeds {limit})" := if_pos hexceeds
    refine List.isSuffixOf_iff_suffix.mpr ?_
    change _ <:+ (_ ++ limitMark (some limit) record).toList
    rw [hmark, String.toList_append (s := s!"  Complexity: {record.complexity}")]
    exact List.suffix_append _ _
  | false =>
    have hmark : limitMark (some limit) record = "" := if_neg (Bool.eq_false_iff.mp hexceeds)
    exact carries_of_limitMark_eq hmark

theorem carries_comp_block (limit : Nat) :
    carries limit ∘ block (some limit) = (·.exceeds limit) := by
  funext record
  rw [Function.comp_apply, carries_block]

theorem marked_lines (hne : records ≠ []) (hlimit : summary.limit = some limit) :
    marked limit records.length (lines records summary) =
      (records.filter (·.exceeds limit)).map (·.path) := by
  rw [marked, blocks_lines hne, hlimit, List.filter_map, carries_comp_block, List.map_map]
  rfl

/-! ## The list -/

/-- The lines of the totals up to the list are those of a summary without a limit. -/
theorem totalLines_eq (summary : Summary) :
    totalLines summary = totalLines { summary with limit := none } ++ limitLines summary := by
  rw [totalLines, totalLines]
  exact congrArg (· ++ limitLines summary) (List.append_nil _).symm

theorem head_rule : rule.toList.head? = some '─' := by
  rw [rule, toList_pushn]
  rfl

/-- No line about the totals begins as the heading of the list does. -/
theorem head_totalLines (hlimit : summary.limit = none) :
    ∀ line ∈ totalLines summary, line.toList.head? ≠ some 'O' := by
  have hline {line : String} {c : Char} (h : line.toList.head? = some c) (hc : c ≠ 'O') :
      line.toList.head? ≠ some 'O' := fun hhead => hc (Option.some.inj (h.symm.trans hhead))
  have hlist : limitLines summary = [] := by rw [limitLines, hlimit]
  rw [totalLines, hlist, List.append_nil, List.forall_mem_append]
  constructor
  · simp only [List.forall_mem_cons, String.append_assoc]
    exact ⟨by decide, hline head_rule (by decide), hline (head_append rfl _) (by decide),
      hline (head_append rfl _) (by decide), hline (head_append rfl _) (by decide),
      List.forall_mem_nil _⟩
  · cases summary.hotspot with
    | none => exact List.forall_mem_nil _
    | some found =>
      simp only [hotspotLines, List.forall_mem_singleton, String.append_assoc]
      exact hline (head_append rfl _) (by decide)

theorem head_heading (limit : Nat) : (heading limit).toList.head? = some 'O' :=
  head_append (head_append rfl _) _

theorem head_noneLine (limit : Nat) : (noneLine limit).toList.head? = some 'O' :=
  head_append (head_append rfl _) _

theorem head_item (path : String) : (item path).toList.head? = some '-' :=
  head_append rfl _

theorem noneLine_ne_heading (limit : Nat) : noneLine limit ≠ heading limit := by
  intro heq
  have hlength : (s!"Over complexity {limit}" ++ ": none").length =
      (s!"Over complexity {limit}" ++ ":").length := congrArg String.length heq
  rw [String.length_append, String.length_append (t := ":")] at hlength
  cases Nat.add_left_cancel hlength

theorem limitLines_of_eq_nil (hlimit : summary.limit = some limit) (h : summary.overLimit = []) :
    limitLines summary = [noneLine limit] := by
  rw [limitLines, hlimit, h]
  rfl

theorem limitLines_of_ne_nil (hlimit : summary.limit = some limit) (h : summary.overLimit ≠ []) :
    limitLines summary = heading limit :: summary.overLimit.map item := by
  rw [limitLines, hlimit]
  exact if_neg (mt List.isEmpty_iff.mp h)

/-- In front of the list stands nothing that begins as its heading does. -/
theorem not_mem_front {line : String} (h : line.toList.head? = some 'O') :
    line ∉ totalLines { summary with limit := none } :=
  fun hmem => head_totalLines rfl line hmem h

theorem drop_item (path : String) : String.ofList ((item path).toList.drop 2) = path := by
  have hdash : (toString "- ").toList = ['-', ' '] := rfl
  rw [item, String.toList_append, hdash]
  exact String.ofList_toList

theorem listed_lines (hne : records ≠ []) (hlimit : summary.limit = some limit) :
    listed limit records.length (lines records summary) = summary.overLimit := by
  have hfront : ∀ line ∈ totalLines { summary with limit := none }, (line != heading limit) = true :=
    fun line hmem => bne_iff_ne.mpr fun heq => not_mem_front (heq ▸ head_heading limit) hmem
  have hnone : (noneLine limit != heading limit) = true := bne_iff_ne.mpr (noneLine_ne_heading limit)
  have hheading : ¬ (heading limit != heading limit) = true := mt bne_iff_ne.mp (not_not_intro rfl)
  rw [listed, closing_lines hne, totalLines_eq, List.dropWhile_append_of_pos hfront]
  by_cases hempty : summary.overLimit = []
  · rw [limitLines_of_eq_nil hlimit hempty, hempty,
      List.dropWhile_cons_of_pos (p := (· != heading limit)) hnone]
    rfl
  · rw [limitLines_of_ne_nil hlimit hempty,
      List.dropWhile_cons_of_neg (p := (· != heading limit)) hheading, List.drop_one, List.tail_cons,
      List.map_map]
    exact List.map_id'' drop_item _

theorem noneLine_mem_lines (hne : records ≠ []) (hlimit : summary.limit = some limit) :
    noneLine limit ∈ closing records.length (lines records summary) ↔ summary.overLimit = [] := by
  rw [closing_lines hne, totalLines_eq, List.mem_append,
    or_iff_right (not_mem_front (head_noneLine limit))]
  by_cases hempty : summary.overLimit = []
  · rw [limitLines_of_eq_nil hlimit hempty]
    exact iff_of_true (List.mem_singleton_self _) hempty
  · rw [limitLines_of_ne_nil hlimit hempty, List.mem_cons, or_iff_right (noneLine_ne_heading limit)]
    refine iff_of_false (fun hmem => ?_) hempty
    obtain ⟨path, -, hpath⟩ := List.mem_map.mp hmem
    cases (head_item path).symm.trans (hpath ▸ head_noneLine limit)

/-! ## Both -/

/-- The lines of the table on some records and their summary, with a limit or without one. -/
def written (records : List Record) (limit : Option Nat) : List String :=
  lines records (.ofRecords records limit)

theorem marks_written (hne : records ≠ []) (limit : Nat) :
    (blocks records.length (written records (some limit))).map (carries limit) =
      records.map (·.exceeds limit) := by
  have hlimit : (Summary.ofRecords records (some limit)).limit = some limit := rfl
  rw [written, blocks_lines hne, hlimit, List.map_map, carries_comp_block]

theorem noneLine_mem_written (hne : records ≠ []) (limit : Nat) :
    noneLine limit ∈ closing records.length (written records (some limit)) ↔
      ∀ found ∈ blocks records.length (written records (some limit)), carries limit found = false := by
  have hlist : (Summary.ofRecords records (some limit)).overLimit =
      (records.filter (·.exceeds limit)).map (·.path) := rfl
  rw [written, noneLine_mem_lines hne rfl, blocks_lines hne, hlist, List.map_eq_nil_iff,
    List.filter_eq_nil_iff, List.forall_mem_map]
  refine forall₂_congr fun record _ => ?_
  rw [Bool.not_eq_true, ← carries_block]
  rfl

theorem marked_written (hne : records ≠ []) (limit : Nat) :
    marked limit records.length (written records (some limit)) =
      listed limit records.length (written records (some limit)) := by
  have hmarked : marked limit records.length (written records (some limit)) =
      (Summary.ofRecords records (some limit)).overLimit := marked_lines hne rfl
  exact hmarked.trans (listed_lines hne rfl).symm

theorem unmarked_written (hne : records ≠ []) (limit : Nat) :
    ∀ found ∈ blocks records.length (written records none), carries limit found = false := by
  rw [written, blocks_lines hne, List.forall_mem_map]
  exact fun record _ => carries_of_limitMark_eq rfl

theorem unlisted_written (hne : records ≠ []) :
    ∀ line ∈ closing records.length (written records none),
      ¬ "Over complexity".toList <+: line.toList := by
  rw [written, closing_lines hne]
  rintro line hline ⟨rest, hrest⟩
  have hhead : ("Over complexity".toList ++ rest).head? = some 'O' := rfl
  rw [hrest] at hhead
  exact head_totalLines rfl line hline hhead

/-- **The marks and the list.** A table with some records has a block for each of them, in their order.
With a limit the blocks that carry its mark are those of the files above it, these are the files in the
list, in the same order and as often, and the line for an empty list stands there if and only if no
block carries the mark. Without a limit there are neither marks nor a list. Blocks and list are made of
the lines that are written; one with a path or a name in it may take several lines of the text. -/
theorem marked_eq_listed (records : List Record) (hne : records ≠ []) :
    (∀ limit : Option Nat,
      Text.split '\n' (render records (.ofRecords records limit)).toList =
        (written records limit).flatMap textLines ++ [[]] ∧
      blocks records.length (written records limit) = records.map (block limit)) ∧
    (∀ limit : Nat,
      (blocks records.length (written records (some limit))).map (carries limit) =
        records.map (·.exceeds limit) ∧
      marked limit records.length (written records (some limit)) =
        listed limit records.length (written records (some limit)) ∧
      (noneLine limit ∈ closing records.length (written records (some limit)) ↔
        ∀ found ∈ blocks records.length (written records (some limit)), carries limit found = false)) ∧
    ∀ limit : Nat,
      (∀ found ∈ blocks records.length (written records none), carries limit found = false) ∧
      ∀ line ∈ closing records.length (written records none),
        ¬ "Over complexity".toList <+: line.toList := by
  refine ⟨fun limit => ⟨split_ofLines _, blocks_lines hne⟩, fun limit => ?_, fun limit => ?_⟩
  · exact ⟨marks_written hne limit, marked_written hne limit, noneLine_mem_written hne limit⟩
  · exact ⟨unmarked_written hne limit, unlisted_written hne⟩

/-- A record of an empty file, but with the given complexity. -/
def branching (path : String) (complexity : Nat) : Record :=
  { Record.ofFile ⟨path, ""⟩ with complexity := complexity }

/-- A file that is scanned twice is marked twice and listed twice. -/
theorem marked_eq_listed_twice :
    [branching "a.js" 3, branching "b.js" 1, branching "a.js" 3] ≠ [] ∧
      listed 2 3 (written [branching "a.js" 3, branching "b.js" 1, branching "a.js" 3] (some 2)) =
        ["a.js", "a.js"] := by
  have hne : [branching "a.js" 3, branching "b.js" 1, branching "a.js" 3] ≠ [] := List.cons_ne_nil _ _
  exact ⟨hne, ((marked_eq_listed _ hne).2.1 2).2.1.symm.trans (marked_lines hne rfl)⟩

end SourceMetrics.Report.Table
