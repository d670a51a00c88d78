import Mathlib.Data.List.Infix
import SourceMetrics.Lines
import SourceMetrics.Proofs.Text.Ends
import SourceMetrics.Proofs.Text.Split

/-! # Kinds of lines

A line is blank, opens with a comment marker, or is a line of code, and never two of these. A comment
that does not open its line stands in a line of code, for a blank line has no room for a delimiter. So
the three counts of a text exceed its lines by the lines of code with a delimiter, each of which is
counted twice.

* `count_kinds`: the kinds of a line.
* `code_add_comment_add_blank`: the counts of a text. -/

namespace SourceMetrics.Lines

set_option autoImplicit false

open Text

variable {line : List Char}

theorem opensComment_eq (line : List Char) :
    opensComment line = decide (∃ marker ∈ ["//", "/*", "*"], marker.toList <+: line) := by
  rw [Bool.eq_iff_iff, decide_eq_true_iff]
  constructor
  · intro h
    rw [opensComment.eq_def] at h
    split at h
    · exact ⟨"//", by simp, _, rfl⟩
    · exact ⟨"/*", by simp, _, rfl⟩
    · exact ⟨"*", by simp, _, rfl⟩
    · cases h
  · rintro ⟨marker, hmarker, rest, rfl⟩
    simp only [List.mem_cons, List.not_mem_nil, or_false] at hmarker
    obtain rfl | rfl | rfl := hmarker
    · rfl
    · rfl
    · rfl

theorem holdsDelimiter_eq (line : List Char) :
    holdsDelimiter line = decide (∃ delimiter ∈ ["/*", "*/"], delimiter.toList <:+: line) := by
  rw [Bool.eq_iff_iff, decide_eq_true_iff, holdsDelimiter, Bool.or_eq_true, occurs_iff_infix,
    occurs_iff_infix]
  simp

/-! ## One line -/

theorem isBlankLine_iff :
    isBlankLine line = true ↔ ∀ c ∈ line, (isBlank c || c == byteOrderMark) = true := by
  rw [isBlankLine, List.isEmpty_iff, trimmed, trimEnds_eq_nil_iff]

theorem not_opensComment_of_isBlankLine (h : isBlankLine line = true) :
    opensComment (trimmed line) = false := by
  rw [List.isEmpty_iff.mp h]
  rfl

theorem not_holdsDelimiter_of_isBlankLine (h : isBlankLine line = true) :
    holdsDelimiter line = false := by
  rw [holdsDelimiter_eq, decide_eq_false_iff_not]
  rintro ⟨delimiter, hdelimiter, hstands⟩
  -- both delimiters have a star, which is not trimmed away
  have hstars : ∀ delimiter ∈ ["/*", "*/"], '*' ∈ delimiter.toList := by decide
  have hpadding := isBlankLine_iff.mp h '*' (hstands.mem (hstars delimiter hdelimiter))
  revert hpadding
  decide

theorem not_isComment_of_isBlankLine (h : isBlankLine line = true) : isComment line = false := by
  rw [isComment, not_opensComment_of_isBlankLine h, not_holdsDelimiter_of_isBlankLine h]
  rfl

/-- A line is of one kind. -/
theorem count_kinds (line : List Char) :
    [isBlankLine line, isCode line, opensComment (trimmed line)].count true = 1 := by
  rw [isCode]
  cases hblank : isBlankLine line with
  | true =>
    rw [not_opensComment_of_isBlankLine hblank]
    rfl
  | false =>
    cases opensComment (trimmed line) with
    | true => rfl
    | false => rfl

/-- A line counts once, and once more if it is a line of code with a delimiter. -/
theorem count_counted (line : List Char) :
    [isCode line, isComment line, isBlankLine line].count true =
      [true, isCode line && holdsDelimiter line].count true := by
  cases hblank : isBlankLine line with
  | true =>
    rw [isCode, hblank, not_isComment_of_isBlankLine hblank]
    rfl
  | false =>
    rw [isCode, isComment, hblank]
    cases opensComment (trimmed line) with
    | true => rfl
    | false =>
      cases holdsDelimiter line with
      | true => rfl
      | false => rfl

/-! ## All lines of a text -/

theorem countP_kinds (lines : List (List Char)) :
    lines.countP isCode + lines.countP isComment + lines.countP isBlankLine =
      lines.length + lines.countP fun line => isCode line && holdsDelimiter line := by
  induction lines with
  | nil => rfl
  | cons line lines ih =>
    have hline := count_counted line
    simp only [List.count_cons, List.count_nil, beq_true, if_true] at hline
    simp only [List.countP_cons, List.length_cons]
    omega

theorem countP_isCode_add_isBlankLine_le (lines : List (List Char)) :
    lines.countP isCode + lines.countP isBlankLine ≤ lines.length := by
  induction lines with
  | nil => exact Nat.le_refl 0
  | cons line lines ih =>
    have hline := count_kinds line
    simp only [List.count_cons, List.count_nil, beq_true] at hline
    simp only [List.countP_cons, List.length_cons]
    omega

/-- The lines of code, the comments and the blank lines of a text are its lines, with each line of
code that holds a delimiter of a block comment counted once more. -/
theorem code_add_comment_add_blank (text : List Char) :
    ((LineCounts.ofText text).code + (LineCounts.ofText text).comment +
        (LineCounts.ofText text).blank = (LineCounts.ofText text).total +
          (ofText text).countP fun line => isCode line &&
            decide (∃ delimiter ∈ ["/*", "*/"], delimiter.toList <:+: line)) ∧
      (∀ line, [isBlankLine line, isCode line,
        decide (∃ marker ∈ ["//", "/*", "*"], marker.toList <+: trimmed line)].count true = 1) ∧
      (∀ line, (isBlankLine line && isComment line) = false) ∧
      (LineCounts.ofText text).code + (LineCounts.ofText text).blank ≤
        (LineCounts.ofText text).total ∧
      (LineCounts.ofText text).total ≤ (LineCounts.ofText text).code +
        (LineCounts.ofText text).comment + (LineCounts.ofText text).blank := by
  have hsum := countP_kinds (ofText text)
  simp only [← opensComment_eq, ← holdsDelimiter_eq]
  refine ⟨hsum, count_kinds, fun line => ?_, countP_isCode_add_isBlankLine_le (ofText text), ?_⟩
  · cases hblank : isBlankLine line with
    | true => exact not_isComment_of_isBlankLine hblank
    | false => rfl
  · exact Nat.le.intro hsum.symm

/-- A line of code with a comment behind it is counted twice, and a line that begins with a star is a
comment. -/
example : LineCounts.ofText "f() /* a */\n * 2\n".toList = ⟨3, 1, 2, 1⟩ := by decide

end SourceMetrics.Lines
