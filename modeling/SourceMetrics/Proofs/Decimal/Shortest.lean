import SourceMetrics.Decimal.Shortest

/-! # The digits of the shortest decimal

Zero lies below every number that rounds to a positive double, so no decimal without a digit other
than zero reads back. -/

namespace SourceMetrics.Decimal

set_option autoImplicit false

theorem digits_pos_of_readsBack {x : Binary} {d : Decimal} (hx : 0 < x.mantissa)
    (h : readsBack x d = true) : 0 < d.digits := by
  refine Nat.pos_of_ne_zero fun hdigits => ?_
  have hlow : 0 < 4 * x.mantissa - (if x.narrowBelow then 1 else 2) := by split <;> omega
  have hbelow : d.compareBinary (4 * x.mantissa - (if x.narrowBelow then 1 else 2))
      (x.exponent - 2) = .lt := by
    rw [compareBinary, hdigits, Nat.zero_mul, Nat.zero_mul, Nat.compare_eq_lt]
    exact Nat.mul_pos (Nat.mul_pos hlow (Nat.pow_pos (by decide))) (Nat.pow_pos (by decide))
  simp [readsBack, hbelow] at h

theorem digits_pos_of_nearest? {x : Binary} {exponent : Int} {d : Decimal} (hx : 0 < x.mantissa)
    (h : nearest? x exponent = some d) : 0 < d.digits := by
  refine digits_pos_of_readsBack hx ?_
  unfold nearest? at h
  grind

theorem digits_pos_of_dropZeros {zeros : Nat} {d : Decimal} (hd : 0 < d.digits) :
    0 < (dropZeros zeros d).digits := by
  induction zeros generalizing d with
  | zero => exact hd
  | succ zeros ih =>
    rw [dropZeros]
    split
    · exact ih (show 0 < d.digits / 10 by omega)
    · exact hd

theorem digits_pos_exactly {x : Binary} (hx : 0 < x.mantissa) : 0 < (exactly x).digits :=
  Nat.mul_pos (Nat.mul_pos hx (Nat.pow_pos (by decide))) (Nat.pow_pos (by decide))

/-- The shortest decimal of a positive double is positive. -/
theorem digits_pos_shortest {x : Binary} (hx : 0 < x.mantissa) : 0 < (shortest x).digits := by
  refine digits_pos_of_dropZeros ?_
  cases hfound : (List.range 17).findSome? fun places : Nat => nearest? x (scale x - 1 - places) with
  | none => exact digits_pos_exactly hx
  | some d =>
    obtain ⟨places, -, hplaces⟩ := List.exists_of_findSome?_eq_some hfound
    exact digits_pos_of_nearest? hx hplaces

end SourceMetrics.Decimal
