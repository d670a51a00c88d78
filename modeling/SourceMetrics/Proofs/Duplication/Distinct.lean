import Mathlib.Data.Finset.Card
import Mathlib.Data.List.Dedup
import SourceMetrics.Duplication
import SourceMetrics.Proofs.Phrase.Findings

/-! # Distinct and repeated lines

The lines without repetitions are as many as there are different lines, and all others repeat one of
them. So the number of repeated lines does not depend on the order of the lines, it is less than their
number, and it is zero if all lines are different.

* `length_eraseDups`: the number of items without repetitions.
* `repeated_add_card`: each line repeats an earlier one or is the first of its kind.
* `repeated_perm`: the order does not matter.
* `length_contentLines_add_blank`: the lines with content and the blank lines are all lines. -/

namespace SourceMetrics.Duplication

set_option autoImplicit false

theorem length_eraseDups {α : Type} [BEq α] [LawfulBEq α] [DecidableEq α] (items : List α) :
    items.eraseDups.length = items.toFinset.card := by
  have hpairwise : (items.map id).eraseDups.Pairwise _ := Reader.pairwise_eraseDups_map
    (List.pairwise_of_forall (l := items) (R := fun _ _ => True) fun _ _ => trivial)
  rw [List.map_id] at hpairwise
  have hmembers : items.eraseDups.toFinset = items.toFinset := by
    ext item
    rw [List.mem_toFinset, List.mem_toFinset, List.mem_eraseDups]
  rw [← hmembers, List.toFinset_card_of_nodup (hpairwise.imp And.left)]

/-! ## Repeated lines -/

variable {lines others : List (List Char)}

theorem repeated_add_card (lines : List (List Char)) :
    repeated lines + lines.toFinset.card = lines.length := by
  have hle := List.toFinset_card_le lines
  rw [repeated, length_eraseDups]
  omega

theorem repeated_lt (hne : lines ≠ []) : repeated lines < lines.length := by
  have hsum := repeated_add_card lines
  have hpos : 0 < lines.toFinset.card :=
    Finset.card_pos.mpr (List.toFinset_nonempty_iff lines |>.mpr hne)
  omega

theorem repeated_eq_zero_iff : repeated lines = 0 ↔ lines.Nodup := by
  have hsum := repeated_add_card lines
  constructor
  · intro hzero
    refine List.dedup_eq_self.mp ((List.dedup_sublist lines).eq_of_length ?_)
    rw [← List.card_toFinset]
    omega
  · intro hnodup
    have hcard := List.toFinset_card_of_nodup hnodup
    omega

theorem repeated_perm (h : lines.Perm others) : repeated lines = repeated others := by
  have hlines := repeated_add_card lines
  have hothers := repeated_add_card others
  rw [List.toFinset_eq_of_perm _ _ h, h.length_eq] at hlines
  omega

/-! ## Lines with content -/

theorem length_contentLines_add_blank (text : List Char) :
    (contentLines text).length + (LineCounts.ofText text).blank = (LineCounts.ofText text).total := by
  have hlength := List.length_eq_countP_add_countP Lines.isBlankLine (l := Lines.ofText text)
  rw [LineCounts.ofText, contentLines, ← List.countP_eq_length_filter, Nat.add_comm, hlength]
  simp only [Bool.not_eq_true, Bool.decide_eq_false]

end SourceMetrics.Duplication
