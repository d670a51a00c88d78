import Mathlib.Data.Finset.Card
import SourceMetrics.Proofs.Duplication.Distinct
import SourceMetrics.Proofs.Lines.Splitting
import SourceMetrics.Proofs.Respelling.Text
import SourceMetrics.Proofs.Text.Ends

/-! # Lines of a text that is spelt otherwise

The lines grow at their ends by characters that are trimmed away and are no part of a comment marker.
Where every line with content ends in a line feed, each gets its carriage return, and lines that were
alike are alike again.

* `split_withReturns`: the lines of a text with carriage returns.
* `lineCounts_respell`: every line is of the kind it was before.
* `duplication_withReturns`: as many lines are repeated as before. -/

namespace SourceMetrics

set_option autoImplicit false

namespace Text

/-- The lines with a carriage return at the end of each but the last. -/
def endReturns : List (List Char) → List (List Char)
  | [] => []
  | [last] => [last]
  | line :: next :: lines => (line ++ ['\r']) :: endReturns (next :: lines)

variable {text line : List Char} {c : Char}

theorem split_withReturns (text : List Char) :
    split '\n' (withReturns text) = endReturns (split '\n' text) := by
  induction text with
  | nil => rfl
  | cons c rest ih =>
    obtain ⟨first, others, hrest⟩ :=
      List.exists_cons_of_ne_nil (split_ne_nil rest : split '\n' rest ≠ [])
    rw [hrest] at ih
    by_cases hc : c = '\n'
    · subst hc
      have hfeed : split '\n' ('\n' :: withReturns rest) = [] :: endReturns (first :: others) := by
        rw [split, if_pos rfl, ih]
      rw [withReturns_lineFeed, split_cons_of_ne (by decide) hfeed, split, if_pos rfl, hrest]
      rfl
    · rw [withReturns_cons hc, split_cons_of_ne hc hrest]
      cases others with
      | nil => exact split_cons_of_ne hc ih
      | cons next lines => exact split_cons_of_ne hc ih

theorem endReturns_concat (lines : List (List Char)) (last : List Char) :
    endReturns (lines ++ [last]) = lines.map (· ++ ['\r']) ++ [last] := by
  induction lines with
  | nil => rfl
  | cons line lines ih =>
    rw [List.map_cons, List.cons_append, List.cons_append, ← ih]
    cases lines with
    | nil => rfl
    | cons next lines => rfl

theorem occurs_cons {needle : List Char} (hne : needle ≠ []) (hc : c ∉ needle) :
    occurs needle (c :: line) = occurs needle line := by
  obtain ⟨d, others, rfl⟩ := List.exists_cons_of_ne_nil hne
  rw [List.mem_cons, not_or] at hc
  rw [occurs, List.isPrefixOf, beq_false_of_ne (Ne.symm hc.1)]
  rfl

theorem occurs_concat {needle : List Char} (hne : needle ≠ []) (hc : c ∉ needle) :
    occurs needle (line ++ [c]) = occurs needle line := by
  induction line with
  | nil => exact occurs_cons hne hc
  | cons a line ih =>
    have hfront : needle.isPrefixOf (a :: line ++ [c]) = needle.isPrefixOf (a :: line) := by
      rw [Bool.eq_iff_iff, List.isPrefixOf_iff_prefix, List.isPrefixOf_iff_prefix,
        List.prefix_concat_iff]
      refine or_iff_right fun hsame => hc ?_
      rw [hsame]
      simp
    rw [List.cons_append, occurs, occurs, ih]
    rw [List.cons_append] at hfront
    rw [hfront]

end Text

/-! ## Kinds of lines -/

namespace Lines

open Text

/-- What stands at the ends of a line unnoticed. -/
def IsPadding (c : Char) : Prop :=
  (isBlank c || c == byteOrderMark) = true ∧ c ∉ ['/', '*']

/-- A property of lines that does not ask what pads them. -/
structure IgnoresPadding (holds : List Char → Bool) : Prop where
  before : ∀ {c}, IsPadding c → ∀ line, holds (c :: line) = holds line
  behind : ∀ {c}, IsPadding c → ∀ line, holds (line ++ [c]) = holds line

variable {c : Char} {line text : List Char} {holds : List Char → Bool}

theorem isPadding_return : IsPadding '\r' := by
  constructor
  · decide
  · decide

theorem isPadding_mark : IsPadding byteOrderMark := by
  constructor
  · decide
  · decide

theorem trimmed_cons (hc : IsPadding c) : trimmed (c :: line) = trimmed line :=
  trimEnds_cons hc.1

theorem trimmed_concat (hc : IsPadding c) : trimmed (line ++ [c]) = trimmed line :=
  trimEnds_concat hc.1

theorem ignoresPadding_isBlankLine : IgnoresPadding isBlankLine where
  before hc line := by rw [isBlankLine, isBlankLine, trimmed_cons hc]
  behind hc line := by rw [isBlankLine, isBlankLine, trimmed_concat hc]

theorem ignoresPadding_isCode : IgnoresPadding isCode where
  before hc line := by
    rw [isCode, isCode, trimmed_cons hc, ignoresPadding_isBlankLine.before hc]
  behind hc line := by
    rw [isCode, isCode, trimmed_concat hc, ignoresPadding_isBlankLine.behind hc]

theorem ignoresPadding_isComment : IgnoresPadding isComment where
  before {c} hc line := by
    have hopening : c ∉ ['*', '/'] := fun hmem => hc.2 (List.mem_reverse.mp hmem)
    rw [isComment, isComment, trimmed_cons hc, holdsDelimiter, holdsDelimiter,
      occurs_cons (List.cons_ne_nil _ _) hc.2, occurs_cons (List.cons_ne_nil _ _) hopening]
  behind {c} hc line := by
    have hopening : c ∉ ['*', '/'] := fun hmem => hc.2 (List.mem_reverse.mp hmem)
    rw [isComment, isComment, trimmed_concat hc, holdsDelimiter, holdsDelimiter,
      occurs_concat (List.cons_ne_nil _ _) hc.2, occurs_concat (List.cons_ne_nil _ _) hopening]

theorem countP_endReturns (h : IgnoresPadding holds) (lines : List (List Char)) :
    (endReturns lines).countP holds = lines.countP holds := by
  obtain rfl | ⟨lines, last, rfl⟩ := List.eq_nil_or_concat lines
  · rfl
  · have hline : holds ∘ (· ++ ['\r']) = holds :=
      funext fun line => h.behind isPadding_return line
    rw [List.concat_eq_append, endReturns_concat, List.countP_append, List.countP_append,
      List.countP_map, hline]

/-- As many lines of a kind as before, whatever the kind, if padding does not count. -/
theorem countP_respell (h : IgnoresPadding holds) (hne : text ≠ []) (returns mark : Bool) :
    (ofText (respell returns mark text)).countP holds = (ofText text).countP holds := by
  have hreturns : (split '\n' (if returns then withReturns text else text)).countP holds =
      (split '\n' text).countP holds := by
    cases returns with
    | false => rfl
    | true =>
      rw [if_pos rfl, split_withReturns, countP_endReturns h]
  have hrespelt : (if returns then withReturns text else text) ≠ [] := by
    cases returns with
    | false => exact hne
    | true => exact withReturns_ne_nil hne
  rw [ofText_of_ne_nil hne, ← hreturns]
  cases mark with
  | false => exact congrArg _ (ofText_of_ne_nil hrespelt)
  | true =>
    obtain ⟨first, others, hsplit⟩ := List.exists_cons_of_ne_nil (split_ne_nil _ :
      split '\n' (if returns then withReturns text else text) ≠ [])
    have hmark : ofText (respell returns true text) = (byteOrderMark :: first) :: others :=
      (ofText_of_ne_nil (List.cons_ne_nil _ _)).trans (split_cons_of_ne (by decide) hsplit)
    rw [hmark, hsplit, List.countP_cons, List.countP_cons, h.before isPadding_mark]

theorem lineCounts_respell (hne : text ≠ []) (returns mark : Bool) :
    LineCounts.ofText (respell returns mark text) = LineCounts.ofText text := by
  have htotal : (ofText (respell returns mark text)).length = (ofText text).length := by
    have hall : IgnoresPadding fun _ => true := ⟨fun _ _ => rfl, fun _ _ => rfl⟩
    have hcount := countP_respell hall hne returns mark
    rwa [List.countP_true] at hcount
  rw [LineCounts.ofText, LineCounts.ofText, htotal, countP_respell ignoresPadding_isCode hne,
    countP_respell ignoresPadding_isComment hne, countP_respell ignoresPadding_isBlankLine hne]

end Lines

/-! ## Repeated lines -/

namespace Duplication

open Text

variable {text : List Char}

theorem length_eraseDups_map {α β : Type} [BEq α] [LawfulBEq α] [DecidableEq α] [BEq β] [LawfulBEq β]
    [DecidableEq β] {f : α → β} (hf : Function.Injective f) (items : List α) :
    (items.map f).eraseDups.length = items.eraseDups.length := by
  have himage : (items.map f).toFinset = items.toFinset.image f := by
    ext b
    simp only [List.mem_toFinset, Finset.mem_image, List.mem_map]
  rw [length_eraseDups, length_eraseDups, himage, Finset.card_image_of_injective _ hf]

theorem contentLines_withReturns (hend : text.getLast? = some '\n') :
    contentLines (withReturns text) = (contentLines text).map (· ++ ['\r']) := by
  obtain ⟨front, rfl⟩ := List.getLast?_eq_some_iff.mp hend
  have hne : front ++ ['\n'] ≠ [] := List.append_ne_nil_of_right_ne_nil _ (List.cons_ne_nil _ _)
  have hlines : split '\n' (front ++ ['\n']) = split '\n' front ++ [[]] := split_append front []
  have hpadded : ((fun line => !Lines.isBlankLine line) ∘ (· ++ ['\r'])) =
      fun line => !Lines.isBlankLine line := by
    funext line
    exact congrArg _ (Lines.ignoresPadding_isBlankLine.behind Lines.isPadding_return line)
  -- what stands behind the last line feed is blank, and all other lines get a carriage return
  rw [contentLines, contentLines, Lines.ofText_of_ne_nil hne,
    Lines.ofText_of_ne_nil (withReturns_ne_nil hne), split_withReturns, hlines, endReturns_concat,
    List.filter_append, List.filter_append, List.map_append, List.filter_map, hpadded]
  rfl

theorem duplication_withReturns (hend : text.getLast? = some '\n') :
    Duplication.ofText (withReturns text) = Duplication.ofText text := by
  have hinjective : Function.Injective fun line : List Char => line ++ ['\r'] :=
    fun _ _ => List.append_cancel_right
  have hrepeated : ∀ lines : List (List Char),
      repeated (lines.map (· ++ ['\r'])) = repeated lines := by
    intro lines
    rw [repeated, repeated, length_eraseDups_map hinjective, List.length_map]
  simp only [Duplication.ofText, contentLines_withReturns hend, List.isEmpty_map, hrepeated,
    List.length_map]

end Duplication

end SourceMetrics
