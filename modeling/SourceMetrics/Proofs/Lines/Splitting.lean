import SourceMetrics.Lines
import SourceMetrics.Proofs.Text.Split

/-! # Splitting a text into lines

The lines of a text say all that the text says: joined by line feeds they are the text again, and no
other lines are. Where two texts with content meet at a line feed, the lines of the second one follow
those of the first. A part without content has no line, but an empty line stands for it in the whole,
and so it is left out here.

* `ofText_eq_iff`: the lines of a text are the only ones that make it up.
* `ofText_joined`: the lines of joined texts.
* `ofText_lossless_and_joined`: both together, with the counts of joined texts. -/

namespace SourceMetrics.Lines

set_option autoImplicit false

open Text

variable {text : List Char}

theorem ofText_of_ne_nil (hne : text ≠ []) : ofText text = split '\n' text := by
  rw [ofText, List.isEmpty_eq_false_iff.mpr hne]
  rfl

theorem ofText_eq_iff (hne : text ≠ []) {lines : List (List Char)} :
    ofText text = lines ↔
      lines ≠ [] ∧ (∀ line ∈ lines, '\n' ∉ line) ∧ ['\n'].intercalate lines = text := by
  rw [ofText_of_ne_nil hne]
  constructor
  · rintro rfl
    exact ⟨split_ne_nil text, fun line hline => (mem_split hline).1, intercalate_split text⟩
  · rintro ⟨hlines, hfree, rfl⟩
    exact split_intercalate hlines hfree

theorem ofText_joined {lines : List Char} (htext : text ≠ []) (hlines : lines ≠ []) :
    ofText (text ++ '\n' :: lines) = ofText text ++ ofText lines := by
  have hwhole : text ++ '\n' :: lines ≠ [] := List.append_ne_nil_of_left_ne_nil htext _
  rw [ofText_of_ne_nil hwhole, ofText_of_ne_nil htext, ofText_of_ne_nil hlines, split_append]

/-- A part without content has no line by itself, and an empty one in the whole. -/
example : ofText ([] ++ '\n' :: "a".toList) = [[], ['a']] ∧ ofText [] ++ ofText "a".toList = [['a']] := by
  decide

theorem lineCounts_joined {lines : List Char} (htext : text ≠ []) (hlines : lines ≠ []) :
    LineCounts.ofText (text ++ '\n' :: lines) =
      { total := (LineCounts.ofText text).total + (LineCounts.ofText lines).total
        code := (LineCounts.ofText text).code + (LineCounts.ofText lines).code
        comment := (LineCounts.ofText text).comment + (LineCounts.ofText lines).comment
        blank := (LineCounts.ofText text).blank + (LineCounts.ofText lines).blank } := by
  simp only [LineCounts.ofText, ofText_joined htext hlines, List.length_append, List.countP_append]

/-- The lines of a text with content are the only lines, at least one and none with a line feed in it,
that make up the text when they are joined by line feeds. Joined by a line feed, two texts with content
have the lines of the first and then those of the second, and each of their counts is the sum of the
counts of both. -/
theorem ofText_lossless_and_joined :
    (∀ text : List Char, text ≠ [] → ∀ lines, ofText text = lines ↔
      lines ≠ [] ∧ (∀ line ∈ lines, '\n' ∉ line) ∧ ['\n'].intercalate lines = text) ∧
    ∀ text lines : List Char, text ≠ [] → lines ≠ [] →
      ofText (text ++ '\n' :: lines) = ofText text ++ ofText lines ∧
      LineCounts.ofText (text ++ '\n' :: lines) =
        { total := (LineCounts.ofText text).total + (LineCounts.ofText lines).total
          code := (LineCounts.ofText text).code + (LineCounts.ofText lines).code
          comment := (LineCounts.ofText text).comment + (LineCounts.ofText lines).comment
          blank := (LineCounts.ofText text).blank + (LineCounts.ofText lines).blank } :=
  ⟨fun _ hne _ => ofText_eq_iff hne,
    fun _ _ htext hlines => ⟨ofText_joined htext hlines, lineCounts_joined htext hlines⟩⟩

/-- The first text ends in a line feed, and the second one begins with one. -/
theorem ofText_lossless_and_joined_feeds :
    "// a\n".toList ≠ [] ∧ "\n\r\nb /* c".toList ≠ [] ∧
      ["// a", "", ""].map String.toList ≠ ofText "// a\n".toList ∧
      ofText ("// a\n".toList ++ '\n' :: "\n\r\nb /* c".toList) =
        ["// a", "", "", "\r", "b /* c"].map String.toList ∧
      LineCounts.ofText ("// a\n".toList ++ '\n' :: "\n\r\nb /* c".toList) = ⟨5, 1, 2, 3⟩ := by
  have htext : "// a\n".toList ≠ [] := by decide
  have hlines : "\n\r\nb /* c".toList ≠ [] := by decide
  obtain ⟨hiff, hjoined⟩ := ofText_lossless_and_joined
  obtain ⟨hparts, hcounts⟩ := hjoined _ _ htext hlines
  refine ⟨htext, hlines, fun hsame => ?_, hparts.trans (by decide), hcounts.trans (by decide)⟩
  -- three lines have two line feeds between them, and the text has one
  obtain ⟨-, -, hwhole⟩ := (hiff _ htext _).mp hsame.symm
  exact absurd hwhole (by decide)

end SourceMetrics.Lines
