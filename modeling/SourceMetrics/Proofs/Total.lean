import Mathlib.Algebra.GroupWithZero.Nat
import SourceMetrics.Sequence

/-! # Totals of lists

A total is the sum of what the items count for, so it is that of the parts of a list together, and the
order of the items does not matter. -/

namespace SourceMetrics

set_option autoImplicit false

variable {α : Type} {count count' : α → Nat} {items others : List α}

theorem total_eq_sum (count : α → Nat) (items : List α) : total count items = (items.map count).sum := by
  induction items with
  | nil => rfl
  | cons item items ih => rw [total, ih, List.map_cons, List.sum_cons]

theorem total_congr (h : ∀ item ∈ items, count item = count' item) :
    total count items = total count' items := by
  rw [total_eq_sum, total_eq_sum, List.map_congr_left h]

theorem total_eq_zero_iff : total count items = 0 ↔ ∀ item ∈ items, count item = 0 := by
  induction items with
  | nil => exact ⟨fun _ _ hitem => absurd hitem List.not_mem_nil, fun _ => rfl⟩
  | cons item items ih => rw [total, Nat.add_eq_zero_iff, ih, List.forall_mem_cons]

/-- Items that count for nothing can be left out. -/
theorem total_filter {keep : α → Bool} (h : ∀ item ∈ items, keep item = false → count item = 0) :
    total count (items.filter keep) = total count items := by
  induction items with
  | nil => rfl
  | cons item items ih =>
    rw [List.forall_mem_cons] at h
    cases hkeep : keep item with
    | true => rw [List.filter_cons_of_pos hkeep, total, ih h.2, total]
    | false =>
      rw [List.filter_cons_of_neg (Bool.eq_false_iff.mp hkeep), ih h.2, total, h.1 hkeep, Nat.zero_add]

theorem total_append (count : α → Nat) (front rest : List α) :
    total count (front ++ rest) = total count front + total count rest := by
  rw [total_eq_sum, total_eq_sum, total_eq_sum, List.map_append, List.sum_append_nat]

theorem total_perm (h : items.Perm others) (count : α → Nat) : total count items = total count others := by
  rw [total_eq_sum, total_eq_sum]
  exact (h.map count).sum_nat

theorem total_add (count count' : α → Nat) (items : List α) :
    total (fun item => count item + count' item) items = total count items + total count' items := by
  induction items with
  | nil => rfl
  | cons item items ih =>
    rw [total, total, total, ih]
    omega

theorem total_le (h : ∀ item ∈ items, count item ≤ count' item) :
    total count items ≤ total count' items := by
  induction items with
  | nil => exact Nat.le_refl 0
  | cons item items ih =>
    rw [List.forall_mem_cons] at h
    exact Nat.add_le_add h.1 (ih h.2)

end SourceMetrics
