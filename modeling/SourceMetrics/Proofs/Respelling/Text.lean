import SourceMetrics.Text.Character

/-! # Texts spelt otherwise

A text may be stored with a carriage return in front of each line feed, or with a byte order mark in
front of it all. What stands in the text is the same; only the blank characters between the lines
are others.

* `withReturns`: each line feed becomes a carriage return and a line feed.
* `takeWhile_withReturns`: a run that does not tell the two apart is spelt otherwise as well. -/

namespace SourceMetrics.Text

set_option autoImplicit false

/-- The text with a carriage return put in front of each line feed. -/
def withReturns (text : List Char) : List Char :=
  text.flatMap fun c => if c = '\n' then ['\r', '\n'] else [c]

/-- The text with carriage returns, with a byte order mark, with both or with neither. -/
def respell (returns mark : Bool) (text : List Char) : List Char :=
  (if mark then [byteOrderMark] else []) ++ (if returns then withReturns text else text)

variable {c : Char} {text rest : List Char}

theorem withReturns_lineFeed :
    withReturns ('\n' :: rest) = '\r' :: '\n' :: withReturns rest := by
  rw [withReturns, List.flatMap_cons, if_pos rfl]
  rfl

theorem withReturns_cons (hc : c ≠ '\n') : withReturns (c :: rest) = c :: withReturns rest := by
  rw [withReturns, List.flatMap_cons, if_neg hc]
  rfl

theorem withReturns_append (front : List Char) :
    withReturns (front ++ rest) = withReturns front ++ withReturns rest :=
  List.flatMap_append

theorem withReturns_of_not_mem (h : '\n' ∉ text) : withReturns text = text := by
  induction text with
  | nil => rfl
  | cons c rest ih =>
    rw [List.mem_cons, not_or] at h
    rw [withReturns_cons (Ne.symm h.1), ih h.2]

theorem withReturns_ne_nil (h : text ≠ []) : withReturns text ≠ [] := by
  obtain ⟨c, rest, rfl⟩ := List.exists_cons_of_ne_nil h
  by_cases hc : c = '\n'
  · rw [hc, withReturns_lineFeed]
    exact List.cons_ne_nil _ _
  · rw [withReturns_cons hc]
    exact List.cons_ne_nil _ _

theorem getLast?_withReturns : (withReturns text).getLast? = text.getLast? := by
  obtain rfl | ⟨front, c, rfl⟩ := List.eq_nil_or_concat text
  · rfl
  · rw [List.concat_eq_append, withReturns_append, List.getLast?_append]
    by_cases hc : c = '\n'
    · rw [hc, withReturns_lineFeed, List.getLast?_append]
      rfl
    · rw [withReturns_cons hc, List.getLast?_append]
      rfl

theorem any_head?_withReturns {allowed : Char → Bool} (h : allowed '\r' = allowed '\n') :
    (withReturns text).head?.any allowed = text.head?.any allowed := by
  cases text with
  | nil => rfl
  | cons c rest =>
    by_cases hc : c = '\n'
    · rw [hc, withReturns_lineFeed]
      exact h
    · rw [withReturns_cons hc]
      rfl

theorem takeWhile_withReturns {allowed : Char → Bool} (h : allowed '\r' = allowed '\n') :
    (withReturns text).takeWhile allowed = withReturns (text.takeWhile allowed) := by
  induction text with
  | nil => rfl
  | cons c rest ih =>
    by_cases hc : c = '\n'
    · subst hc
      rw [withReturns_lineFeed]
      cases hreturn : allowed '\r' with
      | false =>
        rw [List.takeWhile_cons_of_neg (by simp [hreturn]),
          List.takeWhile_cons_of_neg (by simp [← h, hreturn])]
        rfl
      | true =>
        rw [List.takeWhile_cons_of_pos hreturn, List.takeWhile_cons_of_pos (h ▸ hreturn),
          List.takeWhile_cons_of_pos (h ▸ hreturn), withReturns_lineFeed, ih]
    · rw [withReturns_cons hc, List.takeWhile_cons, List.takeWhile_cons, ih]
      cases allowed c with
      | false => rfl
      | true => exact (withReturns_cons hc).symm

theorem isPrefixOf_withReturns {front : List Char} (hreturn : '\r' ∉ front) (hfeed : '\n' ∉ front) :
    front.isPrefixOf (withReturns text) = front.isPrefixOf text := by
  induction front generalizing text with
  | nil => rfl
  | cons d front ih =>
    rw [List.mem_cons, not_or] at hreturn hfeed
    cases text with
    | nil => rfl
    | cons c rest =>
      by_cases hc : c = '\n'
      · subst hc
        have hdr : (d == '\r') = false := beq_false_of_ne (Ne.symm hreturn.1)
        have hdn : (d == '\n') = false := beq_false_of_ne (Ne.symm hfeed.1)
        rw [withReturns_lineFeed, List.isPrefixOf, List.isPrefixOf, hdr, hdn]
        rfl
      · rw [withReturns_cons hc, List.isPrefixOf, List.isPrefixOf, ih hreturn.2 hfeed.2]

theorem isEdge_withReturns {before : Option Char} :
    isEdge before (withReturns text) = isEdge before text := by
  rw [isEdge, isEdge, any_head?_withReturns (by decide)]

end SourceMetrics.Text
