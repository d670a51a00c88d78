import SourceMetrics.Proofs.Phrase.Findings
import SourceMetrics.Proofs.Phrase.Taking
import SourceMetrics.Proofs.TypeAdvice.Extension

/-! # What is reported on types

* `isFound_iff`: a phrase is found if it stands anywhere in the text.
* `isFound_typeForm_iff`: where an annotation with a type stands.
* `reports_and_isTyped`: which reports there are, and on which paths. -/

namespace SourceMetrics

set_option autoImplicit false

open Text

/-- A phrase that stands anywhere is found, there or in a finding that covers the place. -/
theorem Phrase.isFound_iff {phrase : Phrase} {text : List Char} :
    phrase.isFound text = true ↔ ∃ front taken rest, text = front ++ (taken ++ rest) ∧
      taken ++ rest ≠ [] ∧ Takes front.getLast? phrase taken rest := by
  have hcount : phrase.isFound text = true ↔ phrase.reader.findings text ≠ [] := by
    rw [isFound, count, Reader.scan_eq_map_findings, List.length_map, decide_eq_true_iff,
      List.length_pos_iff]
  rw [hcount]
  constructor
  · intro hne
    obtain ⟨finding, others, hfindings⟩ := List.exists_cons_of_ne_nil hne
    obtain ⟨behind, htext, hbehind, hread⟩ :=
      Reader.exists_of_mem_findings (by rw [hfindings]; exact List.mem_cons_self)
    obtain ⟨taken, htaken, -⟩ := Option.map_eq_some_iff.mp hread
    obtain ⟨rest, rfl, htakes⟩ := front?_eq_some_iff.mp htaken
    exact ⟨finding.front, taken, rest, htext, hbehind, htakes⟩
  · rintro ⟨front, taken, rest, rfl, hne, htakes⟩ hnone
    have hread : phrase.reader front.getLast? (taken ++ rest) = some (taken, taken.length) := by
      rw [reader, htakes]
      rfl
    obtain hmem | ⟨finding, hmem, -⟩ := Reader.mem_findings_or_covered hne hread
    · rw [hnone] at hmem
      cases hmem
    · rw [hnone] at hmem
      cases hmem

namespace TypeAdvice

/-! ## Annotations -/

/-- Somewhere in a text there is a colon, perhaps blank characters, and a type that no word character
continues. -/
def IsAnnotated (type : String) (text : List Char) : Prop :=
  ∃ front gap rest, text = front ++ ':' :: (gap ++ (type.toList ++ rest)) ∧
    (∀ c ∈ gap, isBlank c = true) ∧ Stops isWord rest

theorem isEdge_iff_stops {before : Option Char} {rest : List Char} (h : before.any isWord = true) :
    isEdge before rest = true ↔ Stops isWord rest := by
  rw [isEdge, h, bne_iff_ne]
  cases rest with
  | nil => exact iff_of_true (by decide) stops_nil
  | cons c rest =>
    rw [List.head?_cons, Option.any_some, stops_cons]
    exact ne_comm.trans (Bool.not_eq_true _).to_iff

theorem takes_typeForm {type : String} {before : Option Char} {taken rest : List Char}
    (hne : type.toList ≠ []) (htype : ∀ c ∈ type.toList, isWord c = true) :
    Phrase.Takes before (typeForm type) taken rest ↔
      ∃ gap, taken = ':' :: (gap ++ type.toList) ∧ (∀ c ∈ gap, isBlank c = true) ∧
        Stops isWord rest := by
  obtain ⟨c, cs, hcons⟩ := List.exists_cons_of_ne_nil hne
  have hblank : isBlank c = false :=
    isBlank_eq_false_of_isWord (htype c (by rw [hcons]; exact List.mem_cons_self))
  have hlast : type.toList.getLast?.any isWord = true := by
    rw [List.getLast?_eq_some_getLast hne]
    exact htype _ (List.getLast_mem hne)
  rw [typeForm, Phrase.takes_exact]
  simp only [Phrase.takes_blanks_exact hcons hblank, Phrase.takes_edge, Phrase.takes_nil]
  constructor
  · rintro ⟨_, rfl, gap, _, rfl, hgap, hedge, rfl⟩
    refine ⟨gap, ?_, hgap, (isEdge_iff_stops hlast).mp hedge⟩
    rw [List.append_nil]
    rfl
  · rintro ⟨gap, rfl, hgap, hstops⟩
    exact ⟨gap ++ type.toList, rfl, gap, [], by rw [List.append_nil], hgap,
      (isEdge_iff_stops hlast).mpr hstops, rfl⟩

theorem isFound_typeForm_iff {type : String} {text : List Char} (hne : type.toList ≠ [])
    (htype : ∀ c ∈ type.toList, isWord c = true) :
    (typeForm type).isFound text = true ↔ IsAnnotated type text := by
  rw [Phrase.isFound_iff]
  simp only [takes_typeForm hne htype]
  constructor
  · rintro ⟨front, _, rest, rfl, -, gap, rfl, hgap, hstops⟩
    refine ⟨front, gap, rest, ?_, hgap, hstops⟩
    rw [List.cons_append, List.append_assoc]
  · rintro ⟨front, gap, rest, rfl, hgap, hstops⟩
    refine ⟨front, ':' :: (gap ++ type.toList), rest, ?_, List.cons_ne_nil _ _, gap, rfl, hgap,
      hstops⟩
    rw [List.cons_append, List.append_assoc]

/-! ## Reports -/

theorem sublist_reports (path text : List Char) :
    (reports path text).Sublist (advice.map (·.2)) := by
  unfold reports
  split
  · exact List.filter_sublist.map _
  · exact List.nil_sublist _

/-- There is a report for the type of each annotation in a file of the typed dialect. -/
theorem mem_reports_iff {path text : List Char} {entry : String × String} (hentry : entry ∈ advice) :
    entry.2 ∈ reports path text ↔ isTyped path = true ∧ IsAnnotated entry.1 text := by
  have htypes : ∀ entry ∈ advice, entry.1.toList ≠ [] ∧ entry.1.toList.all isWord = true := by
    decide
  have hkinds : ∀ entry ∈ advice, ∀ other ∈ advice, other.2 = entry.2 → other = entry := by decide
  obtain ⟨hne, htype⟩ := htypes entry hentry
  rw [List.all_eq_true] at htype
  unfold reports
  split
  · rename_i htyped
    simp only [htyped, true_and, ← isFound_typeForm_iff hne htype, List.mem_map, List.mem_filter]
    constructor
    · rintro ⟨other, ⟨hother, hfound⟩, hsame⟩
      rwa [hkinds entry hentry other hother hsame] at hfound
    · exact fun hfound => ⟨entry, ⟨hentry, hfound⟩, rfl⟩
  · rename_i htyped
    simp [htyped]

/-- **What is reported on the types of a file.** In this order and each at most once, a report on
`any` and one on `unknown`: there is a report if the path is of the typed dialect and an annotation
with the type stands in the text. A path is of this dialect if it ends in a name with one of the two
extensions, apart from slashes and single dots behind it. -/
theorem reports_and_isTyped (path text : List Char) :
    ((reports path text).Sublist
        ["\"any\" type usage detected", "Use of type \"unknown\" detected"] ∧
      (reports path text).Nodup) ∧
    ("\"any\" type usage detected" ∈ reports path text ↔
      isTyped path = true ∧ IsAnnotated "any" text) ∧
    ("Use of type \"unknown\" detected" ∈ reports path text ↔
      isTyped path = true ∧ IsAnnotated "unknown" text) ∧
    (isTyped path = true ↔ ∃ directory stem extension ending,
      path = directory ++ stem ++ extension ++ ending ∧ EndsInSlash directory ∧
      (stem ≠ [] ∧ '/' ∉ stem) ∧ (extension = ".ts".toList ∨ extension = ".tsx".toList) ∧
      IsPassedOver ending) := by
  have hsublist := sublist_reports path text
  have hany := @mem_reports_iff path text ("any", _) List.mem_cons_self
  have hunknown := @mem_reports_iff path text ("unknown", _) (.tail _ List.mem_cons_self)
  exact ⟨⟨hsublist, hsublist.nodup (by decide)⟩, hany, hunknown, isTyped_iff⟩

/-- What stands behind the name is passed over, and so is what continues a type. -/
example : reports "d.js/..tsx//.".toList "(a: unknown, b :any1)".toList =
    ["Use of type \"unknown\" detected"] := by decide

end TypeAdvice

end SourceMetrics
