import SourceMetrics.Sequence

/-! # The parts of a sequence

* `split_eq_splitOn`: the parts are those that the library's `List.splitOn` finds.
* `split_intercalate`, `intercalate_split`: parts without a separator are found again between the
  separators they are joined by, and joined again they are the sequence.
* `split_append`: a sequence is split at a separator in it and then part by part.
* `length_split`: there is one part more than there are separators.
* `mem_split`: no part holds a separator, or anything that the sequence does not hold.
* `occurs_iff_infix`: a search finds every contiguous part. -/

namespace SourceMetrics.Text

set_option autoImplicit false

variable {α : Type} [DecidableEq α] {separator : α}

theorem split_eq_splitOn (whole : List α) : split separator whole = whole.splitOn separator := by
  induction whole with
  | nil => rfl
  | cons a rest ih =>
    rw [split, List.splitOn_cons_eq_if_modifyHead, ih]
    by_cases ha : a = separator
    · rw [if_pos ha, if_pos (beq_iff_eq.mpr ha)]
    · obtain ⟨first, others, hrest⟩ := List.exists_cons_of_ne_nil (List.splitOn_ne_nil separator rest)
      rw [if_neg ha, if_neg (mt beq_iff_eq.mp ha), hrest]
      rfl

theorem split_ne_nil (whole : List α) : split separator whole ≠ [] := by
  rw [split_eq_splitOn]
  exact List.splitOn_ne_nil separator whole

theorem intercalate_split (whole : List α) : [separator].intercalate (split separator whole) = whole := by
  rw [split_eq_splitOn, List.intercalate_splitOn]

theorem split_intercalate {parts : List (List α)} (hne : parts ≠ [])
    (hparts : ∀ part ∈ parts, separator ∉ part) :
    split separator ([separator].intercalate parts) = parts := by
  rw [split_eq_splitOn, List.splitOn_intercalate separator hparts hne]

theorem split_cons_of_ne {a : α} (h : a ≠ separator) {rest first : List α} {others : List (List α)}
    (hrest : split separator rest = first :: others) :
    split separator (a :: rest) = (a :: first) :: others := by
  rw [split, if_neg h, hrest]

theorem split_append (front rest : List α) :
    split separator (front ++ separator :: rest) =
      split separator front ++ split separator rest := by
  rw [split_eq_splitOn, split_eq_splitOn, split_eq_splitOn, List.splitOn_append_cons_self]

theorem split_of_not_mem {whole : List α} (h : separator ∉ whole) :
    split separator whole = [whole] := by
  rw [split_eq_splitOn, List.splitOn_eq_singleton h]

theorem length_split (whole : List α) : (split separator whole).length = whole.count separator + 1 := by
  induction whole with
  | nil => rfl
  | cons a rest ih =>
    by_cases ha : a = separator
    · rw [split, if_pos ha, List.length_cons, ih, ha, List.count_cons_self]
    · obtain ⟨first, others, hrest⟩ :=
        List.exists_cons_of_ne_nil (split_ne_nil rest : split separator rest ≠ [])
      rw [hrest] at ih
      rw [split_cons_of_ne ha hrest, List.count_cons_of_ne ha]
      exact ih

theorem mem_split {whole part : List α} (h : part ∈ split separator whole) :
    separator ∉ part ∧ ∀ a ∈ part, a ∈ whole := by
  induction whole generalizing part with
  | nil =>
    obtain rfl := List.mem_singleton.mp h
    exact ⟨List.not_mem_nil, fun a ha => ha⟩
  | cons first rest ih =>
    by_cases hfirst : first = separator
    · rw [split, if_pos hfirst] at h
      obtain rfl | hpart := List.mem_cons.mp h
      · exact ⟨List.not_mem_nil, fun a ha => absurd ha List.not_mem_nil⟩
      · exact ⟨(ih hpart).1, fun a ha => .tail first ((ih hpart).2 a ha)⟩
    · obtain ⟨head, others, hrest⟩ :=
        List.exists_cons_of_ne_nil (split_ne_nil rest : split separator rest ≠ [])
      rw [split_cons_of_ne hfirst hrest] at h
      rw [hrest] at ih
      obtain rfl | hpart := List.mem_cons.mp h
      · obtain ⟨hnot, hall⟩ := ih List.mem_cons_self
        refine ⟨fun hmem => ?_, fun a ha => ?_⟩
        · obtain hsame | hhead := List.mem_cons.mp hmem
          · exact hfirst hsame.symm
          · exact hnot hhead
        · obtain rfl | hhead := List.mem_cons.mp ha
          · exact List.mem_cons_self
          · exact .tail first (hall a hhead)
      · obtain ⟨hnot, hall⟩ := ih (.tail head hpart)
        exact ⟨hnot, fun a ha => .tail first (hall a ha)⟩

theorem occurs_iff_infix {needle whole : List α} : occurs needle whole = true ↔ needle <:+: whole := by
  induction whole with
  | nil => rw [occurs, List.isEmpty_iff, List.infix_nil]
  | cons a rest ih =>
    rw [occurs, Bool.or_eq_true, List.isPrefixOf_iff_prefix, ih, List.infix_cons_iff]

end SourceMetrics.Text
