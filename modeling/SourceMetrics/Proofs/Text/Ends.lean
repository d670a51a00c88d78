import Mathlib.Data.List.DropRight
import SourceMetrics.Proofs.Text.Run
import SourceMetrics.Text.Character

/-! # What is left of a trimmed text

Trimming takes unwanted characters away at the two ends and nowhere else, so what is left begins and
ends with others, and nothing is left only if there were no others. -/

namespace SourceMetrics.Text

set_option autoImplicit false

variable {unwanted : Char → Bool} {text : List Char}

theorem trimEnds_eq_rdropWhile (text : List Char) :
    trimEnds unwanted text = (text.dropWhile unwanted).rdropWhile unwanted :=
  rfl

theorem mem_of_mem_trimEnds {c : Char} (h : c ∈ trimEnds unwanted text) : c ∈ text := by
  rw [trimEnds_eq_rdropWhile] at h
  exact (List.dropWhile_suffix _).mem ((List.rdropWhile_prefix _ _).mem h)

theorem stops_trimEnds (text : List Char) : Stops unwanted (trimEnds unwanted text) := by
  intro c hc
  obtain ⟨behind, hparts⟩ := List.rdropWhile_prefix unwanted (text.dropWhile unwanted)
  have hfirst : c ∈ (text.dropWhile unwanted).head? := by
    rw [← hparts]
    exact List.mem_head?_append_of_mem_head? hc
  exact stops_dropWhile text c hfirst

theorem stops_reverse_trimEnds (text : List Char) : Stops unwanted (trimEnds unwanted text).reverse := by
  rw [trimEnds, List.reverse_reverse]
  exact stops_dropWhile _

theorem trimEnds_eq_nil_iff : trimEnds unwanted text = [] ↔ ∀ c ∈ text, unwanted c = true := by
  rw [trimEnds_eq_rdropWhile, List.rdropWhile_eq_nil_iff]
  constructor
  · intro h
    have hstops : Stops unwanted (text.dropWhile unwanted) := stops_dropWhile text
    cases hrest : text.dropWhile unwanted with
    | nil => exact List.dropWhile_eq_nil_iff.mp hrest
    | cons c rest =>
      rw [hrest] at h hstops
      have hc := h c List.mem_cons_self
      rw [stops_cons.mp hstops] at hc
      cases hc
  · intro h c hc
    exact h c ((List.dropWhile_suffix _).mem hc)

theorem trimEnds_cons {c : Char} (hc : unwanted c = true) :
    trimEnds unwanted (c :: text) = trimEnds unwanted text := by
  rw [trimEnds, List.dropWhile_cons_of_pos hc, trimEnds]

theorem trimEnds_concat {c : Char} (hc : unwanted c = true) :
    trimEnds unwanted (text ++ [c]) = trimEnds unwanted text := by
  rw [trimEnds, trimEnds, List.dropWhile_append]
  split
  · rename_i hempty
    rw [List.isEmpty_iff.mp hempty, List.dropWhile_cons_of_pos hc]
    rfl
  · rw [List.reverse_concat, List.dropWhile_cons_of_pos hc]

theorem rdropWhile_append_of_stops {front behind : List Char}
    (hbehind : ∀ c ∈ behind, unwanted c = true) (hfront : Stops unwanted front.reverse) :
    (front ++ behind).rdropWhile unwanted = front := by
  have hreverse : ∀ c ∈ behind.reverse, unwanted c = true :=
    fun c hc => hbehind c (List.mem_reverse.mp hc)
  rw [List.rdropWhile, List.reverse_append, List.dropWhile_append_of_pos hreverse,
    dropWhile_of_stops hfront, List.reverse_reverse]

end SourceMetrics.Text
