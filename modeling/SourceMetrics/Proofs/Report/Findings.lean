import SourceMetrics.Proofs.Report.Files

/-! # The findings of a report

The section of a file lists its findings by kind: unused variables, unused imports and type issues. A
file has a section if it has a finding of some kind, so the sections together list what the summary has
counted over all files, and are missing if and only if it has counted nothing.

* `Kind`: the kinds of findings, each with its names, its counter and its line.
* `sections`: the sections, five lines each.
* `sections_findingsLines`: which files have one.
* `total_flagged`: the names in the sections are all that were counted.
* `nameCount_nameList`: names between commas can be counted again.
* `noFindings_mem_iff`: when there are no sections. -/

namespace SourceMetrics.Report.Markdown

set_option autoImplicit false

/-- The kinds of findings: names that are declared and not used, names that are imported and not used,
and advice on types. -/
inductive Kind where
  | declared
  | imported
  | advised
deriving DecidableEq, Repr

namespace Kind

def names : Kind → Record → List String
  | declared, record => record.unusedVariables
  | imported, record => record.unusedImports
  | advised, record => record.typeIssues

def counter : Kind → Summary → Nat
  | declared, summary => summary.unusedVariables
  | imported, summary => summary.unusedImports
  | advised, summary => summary.typeIssues

/-- The place of a kind in a section, below the heading. -/
def place : Kind → Nat
  | declared => 1
  | imported => 2
  | advised => 3

def label : Kind → String
  | declared => "- Unused variables: "
  | imported => "- Unused imports: "
  | advised => "- Type issues: "

end Kind

variable {records : List Record} {record : Record} {names : List String}

/-! ## Sections -/

/-- The sections in the lines of the findings, five lines each below the heading and an empty line. -/
def sections (written : List String) : List (List String) :=
  parts 5 ((written.length - 2) / 5) (written.drop 2)

theorem findingsLines_of_eq_nil (h : records.filter Record.hasFindings = []) :
    findingsLines records = ["## Findings", "No findings.", ""] := by
  rw [findingsLines, h]
  rfl

theorem findingsLines_of_ne_nil (h : records.filter Record.hasFindings ≠ []) : findingsLines records =
    ["## Findings", ""] ++ (records.filter Record.hasFindings).flatMap findingLines := by
  rw [findingsLines]
  exact if_neg (mt List.isEmpty_iff.mp h)

theorem length_findingLines (record : Record) : (findingLines record).length = 5 :=
  rfl

theorem sections_findingsLines (records : List Record) :
    sections (findingsLines records) = (records.filter Record.hasFindings).map findingLines := by
  by_cases hnone : records.filter Record.hasFindings = []
  · rw [findingsLines_of_eq_nil hnone, hnone]
    rfl
  · have hcount : ((findingsLines records).length - 2) / 5 = (records.filter Record.hasFindings).length := by
      rw [findingsLines_of_ne_nil hnone, List.length_append, length_flatMap length_findingLines,
        List.length_cons, List.length_singleton]
      omega
    have hsections := parts_flatMap length_findingLines (records.filter Record.hasFindings) []
    rw [List.append_nil] at hsections
    rw [sections, hcount, findingsLines_of_ne_nil hnone]
    exact hsections

/-! ## What is counted -/

theorem hasFindings_iff (record : Record) :
    record.hasFindings = true ↔ ∃ kind : Kind, kind.names record ≠ [] := by
  simp only [Record.hasFindings, Bool.or_eq_true, Bool.not_eq_true', List.isEmpty_eq_false_iff]
  constructor
  · rintro ((h | h) | h)
    · exact ⟨.declared, h⟩
    · exact ⟨.imported, h⟩
    · exact ⟨.advised, h⟩
  · rintro ⟨kind, h⟩
    cases kind with
    | declared => exact .inl (.inl h)
    | imported => exact .inl (.inr h)
    | advised => exact .inr h

theorem names_eq_nil (h : record.hasFindings = false) (kind : Kind) : kind.names record = [] := by
  refine Classical.not_not.mp fun hsome => Bool.eq_false_iff.mp h ?_
  exact (hasFindings_iff record).mpr ⟨kind, hsome⟩

theorem counter_ofRecords (kind : Kind) (records : List Record) (limit : Option Nat) :
    kind.counter (.ofRecords records limit) =
      total (fun record => (kind.names record).length) records := by
  cases kind <;> rfl

/-- Files without a section have nothing that was counted. -/
theorem total_flagged (kind : Kind) (records : List Record) (limit : Option Nat) :
    total (fun record => (kind.names record).length) (records.filter Record.hasFindings) =
      kind.counter (.ofRecords records limit) := by
  rw [counter_ofRecords]
  exact total_filter fun record _ h => by rw [names_eq_nil h kind, List.length_nil]

theorem flagged_eq_nil_iff (records : List Record) (limit : Option Nat) :
    records.filter Record.hasFindings = [] ↔
      ∀ kind : Kind, kind.counter (.ofRecords records limit) = 0 := by
  constructor
  · intro hnone kind
    rw [← total_flagged, hnone]
    rfl
  · intro hzero
    refine List.filter_eq_nil_iff.mpr fun record hrecord hfound => ?_
    obtain ⟨kind, hsome⟩ := (hasFindings_iff record).mp hfound
    have hnone := hzero kind
    rw [counter_ofRecords, total_eq_zero_iff] at hnone
    exact hsome (List.eq_nil_of_length_eq_zero (hnone record hrecord))

theorem noFindings_not_mem (record : Record) : "No findings." ∉ findingLines record := by
  -- The lines of a section begin with a hash or a dash, or are empty.
  have hhead : ∀ line ∈ findingLines record, line.toList.head? ≠ some 'N' := by
    unfold findingLines
    simp only [List.forall_mem_cons, String.append_assoc, String.toList_append, List.head?_append]
    exact ⟨nofun, nofun, nofun, nofun, nofun, nofun⟩
  exact fun hmem => hhead _ hmem rfl

theorem noFindings_mem_iff (records : List Record) :
    "No findings." ∈ findingsLines records ↔ records.filter Record.hasFindings = [] := by
  by_cases hnone : records.filter Record.hasFindings = []
  · rw [findingsLines_of_eq_nil hnone]
    exact iff_of_true (by decide) hnone
  · rw [findingsLines_of_ne_nil hnone, List.mem_append, List.mem_flatMap]
    refine iff_of_false ?_ hnone
    rintro (htitle | ⟨record, -, hline⟩)
    · revert htitle
      decide
    · exact noFindings_not_mem record hline

/-! ## Counting the names in a section -/

/-- The number of names in a text: none in the text `0`, else one more than there are commas. -/
def nameCount (text : List Char) : Nat :=
  if text = ['0'] then 0 else (Text.split ',' text).length

/-- The number of names of a kind in a section, by the text behind the colon in its line. -/
def shown (kind : Kind) (found : List String) : Nat :=
  nameCount (((found.getD kind.place "").toList.dropWhile (· != ':')).drop 2)

/-- Names that can be told apart in a text: none holds a comma, and there is not only one, written `0`. -/
def ToldApart (names : List String) : Prop :=
  names ≠ ["0"] ∧ ∀ name ∈ names, ',' ∉ name.toList

instance (names : List String) : Decidable (ToldApart names) :=
  inferInstanceAs (Decidable (_ ∧ _))

theorem getD_findingLines (kind : Kind) (record : Record) :
    (findingLines record).getD kind.place "" = kind.label ++ nameList (kind.names record) := by
  cases kind <;> rfl

theorem drop_label (kind : Kind) (text : List Char) :
    ((kind.label.toList ++ text).dropWhile (· != ':')).drop 2 = text := by
  cases kind <;> rfl

theorem count_intercalate (hne : names ≠ []) (h : ∀ name ∈ names, ',' ∉ name.toList) :
    (", ".intercalate names).toList.count ',' + 1 = names.length := by
  have hcomma : ", ".toList.count ',' = 1 := by decide
  induction names with
  | nil => exact absurd rfl hne
  | cons name names ih =>
    rw [List.forall_mem_cons] at h
    cases names with
    | nil => rw [String.intercalate_singleton, List.count_eq_zero.mpr h.1, List.length_singleton]
    | cons next names =>
      have hrest := ih (List.cons_ne_nil _ _) h.2
      rw [String.intercalate_cons_cons, String.toList_append, String.toList_append, List.count_append,
        List.count_append, List.count_eq_zero.mpr h.1, hcomma, List.length_cons]
      omega

theorem nameCount_nameList (h : ToldApart names) : nameCount (nameList names).toList = names.length := by
  by_cases hnone : names = []
  · rw [hnone]
    decide
  · have hcount := count_intercalate hnone h.2
    have hnumber : (", ".intercalate names).toList ≠ ['0'] := by
      intro hzero
      -- Without a comma there is one name only, and this one is written differently.
      rw [hzero] at hcount
      obtain ⟨name, rfl⟩ := List.length_eq_one_iff.mp hcount.symm
      rw [String.intercalate_singleton] at hzero
      exact h.1 (congrArg (fun name => [name]) (String.toList_injective hzero))
    rw [nameList, if_neg (mt List.isEmpty_iff.mp hnone), nameCount, if_neg hnumber, Text.length_split,
      hcount]

theorem shown_findingLines {kind : Kind} (h : ToldApart (kind.names record)) :
    shown kind (findingLines record) = (kind.names record).length := by
  rw [shown, getD_findingLines, String.toList_append, drop_label, nameCount_nameList h]

theorem total_shown {kind : Kind} (h : ∀ record ∈ records, ToldApart (kind.names record))
    (limit : Option Nat) : total (shown kind) (sections (findingsLines records)) =
      kind.counter (.ofRecords records limit) := by
  rw [sections_findingsLines, ← total_flagged, total_eq_sum, total_eq_sum, List.map_map]
  refine congrArg List.sum (List.map_congr_left fun record hrecord => ?_)
  exact shown_findingLines (h record (List.mem_filter.mp hrecord).1)

/-- **The findings and the counters.** In the report on some records the findings stand at the end, with
a section for each record that has a finding of some kind, in the order of the records. Of each kind
these sections list as many names as the summary has counted, also when the names are counted in the
text, as far as they can be told apart there. That there are no findings is written if and only if the
summary has counted none of any kind. Sections are made of the lines that are written; one with a path
or a name in it may take several lines of the text. -/
theorem findings_add_up (records : List Record) (hne : records ≠ []) (limit : Option Nat) :
    Text.split '\n' (render records (.ofRecords records limit)).toList =
        (["# CodeMetrics Report", ""] ++ summaryLines (.ofRecords records limit) ++
            ["## Files", ""]).flatMap textLines ++
          tableText records ++ [] :: ((findingsLines records).flatMap textLines ++ [[]]) ∧
      sections (findingsLines records) = (records.filter Record.hasFindings).map findingLines ∧
      (∀ record : Record, (record.hasFindings = true ↔ ∃ kind : Kind, kind.names record ≠ []) ∧
        ∀ kind : Kind,
          (findingLines record).getD kind.place "" = kind.label ++ nameList (kind.names record)) ∧
      (∀ kind : Kind,
        total (fun record => (kind.names record).length) (records.filter Record.hasFindings) =
          kind.counter (.ofRecords records limit) ∧
        ((∀ record ∈ records, ToldApart (kind.names record)) →
          total (shown kind) (sections (findingsLines records)) =
            kind.counter (.ofRecords records limit))) ∧
      ("No findings." ∈ findingsLines records ↔
        ∀ kind : Kind, kind.counter (.ofRecords records limit) = 0) :=
  ⟨split_render hne _, sections_findingsLines records,
    fun record => ⟨hasFindings_iff record, fun kind => getD_findingLines kind record⟩,
    fun kind => ⟨total_flagged kind records limit, fun h => total_shown h limit⟩,
    (noFindings_mem_iff records).trans (flagged_eq_nil_iff records limit)⟩

/-- A record of an empty file, but with the given unused variables. -/
def idle (path : String) (unused : List String) : Record :=
  { Record.ofFile ⟨path, ""⟩ with unusedVariables := unused }

/-- Three names in two sections; the file between them has none. -/
theorem findings_add_up_threeNames :
    [idle "a.js" ["x", "y"], idle "b.js" [], idle "c.js" ["z"]] ≠ [] ∧
      total (shown .declared)
        (sections (findingsLines [idle "a.js" ["x", "y"], idle "b.js" [], idle "c.js" ["z"]])) = 3 ∧
      "No findings." ∉ findingsLines [idle "a.js" ["x", "y"], idle "b.js" [], idle "c.js" ["z"]] := by
  have hne : [idle "a.js" ["x", "y"], idle "b.js" [], idle "c.js" ["z"]] ≠ [] := List.cons_ne_nil _ _
  obtain ⟨-, -, -, hkinds, hnone⟩ := findings_add_up _ hne none
  refine ⟨hne, (hkinds .declared).2 (by decide), fun hmem => ?_⟩
  cases hnone.mp hmem .declared

end SourceMetrics.Report.Markdown
