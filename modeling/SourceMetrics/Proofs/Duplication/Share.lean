import Mathlib
import SourceMetrics.Proofs.Decimal.Magnitude
import SourceMetrics.Proofs.Duplication.Distinct

/-! # The share of repeated lines

The duplication of a text is a matter of how often each line with content occurs in it, and of nothing
else: neither the order of the lines nor the blank lines between them count. The share is computed in
doubles, where a quotient of two numbers below 2⁶⁴ is far from the least double, and so it is zero only
if no line is repeated.

* `ofText_perm`: the same lines in another order.
* `percentage_eq_zero_iff`, `percentage_pos_iff`: the share is zero or positive.
* `duplication_of_lines`: what the duplication of a text says about its lines. -/

namespace SourceMetrics

set_option autoImplicit false

namespace Magnitude

variable {low high : Int} {x : Float}

theorem unpack_hundred : (100.0 : Float).toModel.unpack =
    .finite .positive (100 * 2 ^ 46) (-46) (by decide) := rfl

/-- A share of less than 2⁶⁴ things is neither too small nor too large for a double. -/
theorem liesWithin_share {part whole : Nat} (hpart : 0 < part) (hle : part ≤ whole)
    (hsmall : whole < 2 ^ 64) :
    LiesWithin (-113) 23 (Float.ofNat part / Float.ofNat whole * 100.0).toModel.unpack := by
  have hquotient := (liesWithin_ofNat hpart (by omega)).div (liesWithin_ofNat (by omega) hsmall) (by decide)
  have hhundred : LiesWithin (-46) (-46) (100.0 : Float).toModel.unpack :=
    ⟨_, _, _, by decide, le_refl _, le_refl _, unpack_hundred⟩
  have hproduct := hquotient.mul hhundred (by decide)
  rw [toModel_mul, toModel_div, hquotient.unpack_pack (by decide) (by decide),
    hproduct.unpack_pack (by decide) (by decide)]
  exact hproduct.weaken (by decide) (by decide)

/-- No part of something is a share of zero. -/
theorem share_zero {whole : Nat} (hpos : 0 < whole) (hsmall : whole < 2 ^ 64) :
    Float.ofNat 0 / Float.ofNat whole * 100.0 = 0.0 := by
  obtain ⟨mantissa, exponent, hmantissa, -, -, -, hwhole⟩ := liesWithin_ofNat hpos hsmall
  have hquotient : Float.ofNat 0 / Float.ofNat whole = 0.0 := by
    change Float.ofModel (Float.ofNat 0 / Float.ofNat whole).toModel = _
    rw [toModel_div, hwhole]
    rfl
  rw [hquotient]
  rfl

theorem LiesWithin.pos (h : LiesWithin low high x.toModel.unpack) : 0.0 < x := by
  obtain ⟨mantissa, exponent, hpos, -, -, -, hx⟩ := h
  refine decide_eq_true (?_ : (0.0 : Float).toModel < x.toModel)
  change ((0.0 : Float).toModel.unpack.compare x.toModel.unpack == some .lt) = true
  rw [hx]
  rfl

end Magnitude

namespace Duplication

variable {text other : List Char}

theorem percentage_ofText (hne : contentLines text ≠ []) :
    (ofText text).percentage =
      Float.ofNat (repeated (contentLines text)) / Float.ofNat (contentLines text).length * 100.0 := by
  rw [ofText, List.isEmpty_eq_false_iff.mpr hne]
  rfl

example : (ofText "a();\na();\n\nb();\na();\n".toList).percentage = 50.0 := by decide +kernel

theorem ofText_of_nil (h : contentLines text = []) : ofText text = zero := by
  rw [ofText, h]
  rfl

/-- Texts with the same lines with content, in whatever order, have the same duplication. -/
theorem ofText_perm (h : (contentLines text).Perm (contentLines other)) : ofText text = ofText other := by
  rw [ofText, ofText, repeated_perm h, h.length_eq, h.isEmpty_eq]

theorem percentage_eq_zero (h : (contentLines text).Nodup) (hsmall : (contentLines text).length < 2 ^ 64) :
    (ofText text).percentage = 0.0 := by
  by_cases hne : contentLines text = []
  · rw [ofText_of_nil hne]
    rfl
  · rw [percentage_ofText hne, repeated_eq_zero_iff.mpr h]
    exact Magnitude.share_zero (List.length_pos_iff.mpr hne) hsmall

theorem percentage_pos (h : ¬ (contentLines text).Nodup) (hsmall : (contentLines text).length < 2 ^ 64) :
    0.0 < (ofText text).percentage := by
  have hne : contentLines text ≠ [] := by
    intro hnil
    exact h (hnil ▸ List.nodup_nil)
  have hpos : 0 < repeated (contentLines text) :=
    Nat.pos_of_ne_zero (mt repeated_eq_zero_iff.mp h)
  rw [percentage_ofText hne]
  exact (Magnitude.liesWithin_share hpos (Nat.le_of_lt (repeated_lt hne)) hsmall).pos

theorem percentage_eq_zero_iff (hsmall : (contentLines text).length < 2 ^ 64) :
    (ofText text).percentage = 0.0 ↔ (contentLines text).Nodup := by
  refine ⟨fun hzero => ?_, fun h => percentage_eq_zero h hsmall⟩
  by_contra hrepeats
  have hpos := percentage_pos hrepeats hsmall
  rw [hzero] at hpos
  exact absurd hpos (by decide)

theorem percentage_pos_iff (hsmall : (contentLines text).length < 2 ^ 64) :
    0.0 < (ofText text).percentage ↔ ¬ (contentLines text).Nodup := by
  refine ⟨fun hpos hnodup => ?_, fun h => percentage_pos h hsmall⟩
  rw [percentage_eq_zero hnodup hsmall] at hpos
  exact absurd hpos (by decide)

/-- **The duplication of a text depends on how often each of its lines with content occurs**, and on
nothing else. These lines are as many as all lines without the blank ones. Those that are different are
no more than all of them, the others are fewer than all of them, and the share of the others, as far as
counts of 64 bits reach, is zero if no two lines are alike and positive otherwise. -/
theorem duplication_of_lines :
    (∀ text other : List Char, (contentLines text).Perm (contentLines other) →
      ofText text = ofText other) ∧
    ∀ text : List Char,
      (contentLines text).length = (LineCounts.ofText text).total - (LineCounts.ofText text).blank ∧
      (LineCounts.ofText text).blank ≤ (LineCounts.ofText text).total ∧
      (contentLines text).toFinset.card ≤ (contentLines text).length ∧
      repeated (contentLines text) = (contentLines text).length - (contentLines text).toFinset.card ∧
      (0 < (contentLines text).length →
        repeated (contentLines text) < (contentLines text).length ∧
        (repeated (contentLines text) : ℚ) / (contentLines text).length < 1) ∧
      ((contentLines text).length < 2 ^ 64 →
        ((ofText text).percentage = 0.0 ↔ (contentLines text).Nodup) ∧
        (0.0 < (ofText text).percentage ↔ ¬ (contentLines text).Nodup)) := by
  refine ⟨fun text other h => ofText_perm h, fun text => ?_⟩
  have hblank := length_contentLines_add_blank text
  have hcard := repeated_add_card (contentLines text)
  refine ⟨by omega, by omega, by omega, by omega, fun hpos => ?_, fun hsmall => ?_⟩
  · have hlt := repeated_lt (List.length_pos_iff.mp hpos)
    exact ⟨hlt, (div_lt_one (Nat.cast_pos.mpr hpos)).mpr (Nat.cast_lt.mpr hlt)⟩
  · exact ⟨percentage_eq_zero_iff hsmall, percentage_pos_iff hsmall⟩

/-- Lines that differ in a blank or a carriage return are different, and blank lines do not count. -/
theorem duplication_of_lines_returns :
    (contentLines "a\r\n\n b\na\r\n a".toList).Perm (contentLines " a\n b\n\r\na\r\na\r\n".toList) ∧
      ofText "a\r\n\n b\na\r\n a".toList = ofText " a\n b\n\r\na\r\na\r\n".toList ∧
      0 < (contentLines "a\r\n\n b\na\r\n a".toList).length ∧
      (contentLines "a\r\n\n b\na\r\n a".toList).length < 2 ^ 64 ∧
      repeated (contentLines "a\r\n\n b\na\r\n a".toList) < 4 ∧
      0.0 < (ofText "a\r\n\n b\na\r\n a".toList).percentage := by
  have hperm : (contentLines "a\r\n\n b\na\r\n a".toList).Perm
      (contentLines " a\n b\n\r\na\r\na\r\n".toList) := by decide
  have hlength : (contentLines "a\r\n\n b\na\r\n a".toList).length = 4 := by decide
  obtain ⟨hsame, hlines⟩ := duplication_of_lines
  obtain ⟨-, -, -, -, hrepeated, hshare⟩ := hlines "a\r\n\n b\na\r\n a".toList
  rw [hlength] at hrepeated hshare ⊢
  exact ⟨hperm, hsame _ _ hperm, by decide, by decide, (hrepeated (by decide)).1,
    (hshare (by decide)).2.mpr (by decide)⟩

end Duplication

end SourceMetrics
