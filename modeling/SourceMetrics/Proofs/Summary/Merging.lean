import SourceMetrics.Proofs.Summary.Hotspot
import SourceMetrics.Proofs.Total

/-! # Summaries of lists one behind the other, and of reordered lists

What the records of two lists amount to can be told from the summaries of both: each count is a total, so
the counts add up, the files above the limit follow one another, and the better one of the two hotspots
is kept. The order of the records matters only for the order of the files above the limit and for which
one of several equally complex files is the hotspot.

* `addsUp_append`: the counts of two lists.
* `hotspot_append`: the hotspot of two lists.
* `ofRecords_perm`: what no order of the records can change.
* `merge_append_perm`: both together. -/

namespace SourceMetrics

set_option autoImplicit false

namespace Hotspot

variable {first second : Option Hotspot} {found next : Hotspot}

theorem better_of_lt (hfound : found ∈ first) (hnext : next ∈ second)
    (hless : found.complexity < next.complexity) : better first second = second := by
  cases hfound
  cases hnext
  exact if_pos hless

theorem better_of_not_lt (hsome : first ≠ none)
    (h : ∀ found ∈ first, ∀ next ∈ second, ¬ found.complexity < next.complexity) :
    better first second = first := by
  obtain ⟨found, rfl⟩ := Option.ne_none_iff_exists'.mp hsome
  cases second with
  | none => rfl
  | some next => exact if_neg (h found rfl next rfl)

end Hotspot

namespace Summary

variable {records others : List Record}

/-! ## Lists one behind the other -/

/-- The counts of a summary are those of two others together. -/
structure AddsUp (whole first second : Summary) : Prop where
  files : whole.files = first.files + second.files
  totalLines : whole.totalLines = first.totalLines + second.totalLines
  codeLines : whole.codeLines = first.codeLines + second.codeLines
  commentLines : whole.commentLines = first.commentLines + second.commentLines
  blankLines : whole.blankLines = first.blankLines + second.blankLines
  unusedVariables : whole.unusedVariables = first.unusedVariables + second.unusedVariables
  unusedImports : whole.unusedImports = first.unusedImports + second.unusedImports
  typeIssues : whole.typeIssues = first.typeIssues + second.typeIssues

theorem addsUp_append (front rest : List Record) (limit : Option Nat) :
    AddsUp (ofRecords (front ++ rest) limit) (ofRecords front limit) (ofRecords rest limit) where
  files := List.length_append
  totalLines := total_append _ front rest
  codeLines := total_append _ front rest
  commentLines := total_append _ front rest
  blankLines := total_append _ front rest
  unusedVariables := total_append _ front rest
  unusedImports := total_append _ front rest
  typeIssues := total_append _ front rest

theorem overLimit_append (front rest : List Record) (limit : Option Nat) :
    (ofRecords (front ++ rest) limit).overLimit =
      (ofRecords front limit).overLimit ++ (ofRecords rest limit).overLimit := by
  simp only [ofRecords, List.filter_append, List.map_append]

/-- The hotspot of the records behind counts only if there are no others, or if it is more complex than
theirs. -/
theorem hotspot_append (front rest : List Record) (limit : Option Nat) :
    (ofRecords (front ++ rest) limit).hotspot =
      if front = [] ∨ ∃ found ∈ (ofRecords front limit).hotspot,
          ∃ next ∈ (ofRecords rest limit).hotspot, found.complexity < next.complexity
      then (ofRecords rest limit).hotspot else (ofRecords front limit).hotspot := by
  have hwhole : (ofRecords (front ++ rest) limit).hotspot =
      Hotspot.better (ofRecords front limit).hotspot (ofRecords rest limit).hotspot :=
    greatest_append front rest
  split
  next h =>
    obtain rfl | ⟨found, hfound, next, hnext, hless⟩ := h
    · rfl
    · rw [hwhole, Hotspot.better_of_lt hfound hnext hless]
  next h =>
    obtain ⟨hne, hnot⟩ := not_or.mp h
    have hsome : (ofRecords front limit).hotspot ≠ none := mt greatest_eq_none_iff.mp hne
    rw [hwhole, Hotspot.better_of_not_lt hsome]
    exact fun found hfound next hnext hless => hnot ⟨found, hfound, next, hnext, hless⟩

/-! ## Reordered lists -/

theorem average_perm (h : records.Perm others) : average records = average others := by
  rw [average, average, h.isEmpty_eq, h.length_eq, total_perm h]

theorem ofRecords_perm (h : records.Perm others) (limit : Option Nat) :
    ofRecords others limit = { ofRecords records limit with
      hotspot := (ofRecords others limit).hotspot
      overLimit := (ofRecords others limit).overLimit } := by
  simp only [ofRecords, h.length_eq, average_perm h, total_perm h]

theorem complexity_greatest_perm (h : records.Perm others) :
    (greatest records).map (·.complexity) = (greatest others).map (·.complexity) := by
  rw [complexity_greatest, complexity_greatest]
  refine Option.ext fun bound => ?_
  rw [List.max?_eq_some_iff, List.max?_eq_some_iff]
  simp only [(h.map (·.complexity)).mem_iff]

theorem overLimit_perm (h : records.Perm others) (limit : Option Nat) :
    (ofRecords records limit).overLimit.Perm (ofRecords others limit).overLimit :=
  (h.filter _).map _

/-- The counts of two lists of records add up in the list of both, the files above the limit follow one
another, and the hotspot is that of the first list unless this one is empty or the other one is more
complex. In any order of the records the summary is the same but for the hotspot, which is as complex,
and for the order of the files above the limit. -/
theorem merge_append_perm (limit : Option Nat) :
    (∀ front rest : List Record,
      AddsUp (ofRecords (front ++ rest) limit) (ofRecords front limit) (ofRecords rest limit) ∧
      (ofRecords (front ++ rest) limit).overLimit =
        (ofRecords front limit).overLimit ++ (ofRecords rest limit).overLimit ∧
      (ofRecords (front ++ rest) limit).hotspot =
        if front = [] ∨ ∃ found ∈ (ofRecords front limit).hotspot,
            ∃ next ∈ (ofRecords rest limit).hotspot, found.complexity < next.complexity
        then (ofRecords rest limit).hotspot else (ofRecords front limit).hotspot) ∧
    ∀ records others : List Record, records.Perm others →
      ofRecords others limit = { ofRecords records limit with
        hotspot := (ofRecords others limit).hotspot
        overLimit := (ofRecords others limit).overLimit } ∧
      (ofRecords records limit).hotspot.map (·.complexity) =
        (ofRecords others limit).hotspot.map (·.complexity) ∧
      (ofRecords records limit).overLimit.Perm (ofRecords others limit).overLimit :=
  ⟨fun front rest => ⟨addsUp_append front rest limit, overLimit_append front rest limit,
      hotspot_append front rest limit⟩,
    fun _ _ h => ⟨ofRecords_perm h limit, complexity_greatest_perm h, overLimit_perm h limit⟩⟩

/-- A record of complexity 4 with one unused import. -/
def intricate (path : String) : Record where
  path := path
  lines := ⟨0, 0, 0, 0⟩
  complexity := 4
  functions := 0
  classes := 0
  duplication := ⟨0.0, 0⟩
  unusedVariables := []
  unusedImports := ["fmt"]
  typeIssues := []

/-- Of two equally complex files the one in front is the hotspot, whichever this is. -/
theorem merge_append_perm_tied :
    [intricate "left.rs", intricate "right.rs"].Perm [intricate "right.rs", intricate "left.rs"] ∧
      (ofRecords [intricate "left.rs", intricate "right.rs"] (some 3)).hotspot =
        some ⟨"left.rs", 4⟩ ∧
      (ofRecords [intricate "right.rs", intricate "left.rs"] (some 3)).hotspot =
        some ⟨"right.rs", 4⟩ ∧
      (ofRecords [intricate "right.rs", intricate "left.rs"] (some 3)).unusedImports = 2 ∧
      (ofRecords [intricate "left.rs", intricate "right.rs"] (some 3)).overLimit.Perm
        (ofRecords [intricate "right.rs", intricate "left.rs"] (some 3)).overLimit := by
  have hswap : [intricate "left.rs", intricate "right.rs"].Perm
      [intricate "right.rs", intricate "left.rs"] := .swap _ _ _
  obtain ⟨hadds, -, hhotspot⟩ :=
    (merge_append_perm (some 3)).1 [intricate "left.rs"] [intricate "right.rs"]
  obtain ⟨hcounts, -, hpaths⟩ := (merge_append_perm (some 3)).2 _ _ hswap
  exact ⟨hswap, hhotspot, rfl, (congrArg unusedImports hcounts).trans hadds.unusedImports, hpaths⟩

end Summary

end SourceMetrics
