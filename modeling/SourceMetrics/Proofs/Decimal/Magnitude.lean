import Mathlib

/-! # The magnitude of positive doubles

A positive double that is not too small has a mantissa of 53 bits, and its exponent says between which
powers of two it lies. Conversion of a natural number, division and multiplication round to such a
mantissa again, so each of them moves the exponent by a known distance, whatever the mantissas are. A
result whose exponent stays in range is neither zero nor infinite.

* `liesWithin_roundWithAccuracy`: rounding to 53 bits moves the exponent by at most one.
* `LiesWithin.unpack_pack`: a double in range is packed without loss.
* `liesWithin_ofNat`, `LiesWithin.div`, `LiesWithin.mul`: the exponents of results. -/

namespace SourceMetrics.Magnitude

set_option autoImplicit false

open Float.Model (Format UnpackedFloat totalExponent)
open Float.Model.UnpackedFloat

/-- A positive number with a mantissa of 53 bits, and with an exponent between `low` and `high`. -/
def LiesWithin (low high : Int) (x : UnpackedFloat) : Prop :=
  ∃ (mantissa : Nat) (exponent : Int) (hpos : 0 < mantissa),
    mantissa.log2 = 52 ∧ low ≤ exponent ∧ exponent ≤ high ∧
      x = .finite .positive mantissa exponent hpos

variable {low high low' high' : Int} {x y : UnpackedFloat} {mantissa : Nat} {exponent : Int}

theorem LiesWithin.weaken (hlow : low' ≤ low) (hhigh : high ≤ high') (h : LiesWithin low high x) :
    LiesWithin low' high' x := by
  obtain ⟨mantissa, exponent, hpos, hlog, hle, hge, rfl⟩ := h
  exact ⟨mantissa, exponent, hpos, hlog, by omega, by omega, rfl⟩

/-! ## Mantissas -/

theorem ne_zero_of_log2 (hlog : mantissa.log2 = 52) : mantissa ≠ 0 := by
  rintro rfl
  simp at hlog

theorem bounds_of_log2 (hlog : mantissa.log2 = 52) : 2 ^ 52 ≤ mantissa ∧ mantissa < 2 ^ 53 :=
  (Nat.log2_eq_iff (ne_zero_of_log2 hlog)).mp hlog

theorem log2_bounds {bits : Nat} (hlow : 2 ^ 52 ≤ mantissa) (hhigh : mantissa < 2 ^ bits) :
    52 ≤ mantissa.log2 ∧ mantissa.log2 < bits := by
  have hne : mantissa ≠ 0 := by omega
  exact ⟨(Nat.le_log2 hne).mpr hlow, (Nat.log2_lt hne).mpr hhigh⟩

/-- What is left of a mantissa that is cut off behind its 53rd bit. -/
theorem log2_cut (hlog : 52 ≤ mantissa.log2) :
    (mantissa / 2 ^ (mantissa.log2 - 52)).log2 = 52 := by
  have hne : mantissa ≠ 0 := by
    rintro rfl
    simp at hlog
  have hlow : 2 ^ 52 ≤ mantissa / 2 ^ (mantissa.log2 - 52) := by
    rw [Nat.le_div_iff_mul_le (Nat.two_pow_pos _), ← Nat.pow_add, Nat.add_sub_cancel' hlog]
    exact Nat.log2_self_le hne
  have hhigh : mantissa / 2 ^ (mantissa.log2 - 52) < 2 ^ 53 := by
    have hbits : 53 + (mantissa.log2 - 52) = mantissa.log2 + 1 := by omega
    rw [Nat.div_lt_iff_lt_mul (Nat.two_pow_pos _), ← Nat.pow_add, hbits]
    exact Nat.lt_log2_self
  exact (Nat.log2_eq_iff (by omega)).mpr ⟨hlow, hhigh⟩

theorem log2_shiftLeft (hpos : 0 < mantissa) (places : Nat) :
    (mantissa <<< places).log2 = mantissa.log2 + places := by
  have hne : mantissa ≠ 0 := Nat.ne_of_gt hpos
  rw [Nat.log2_eq_iff (Nat.ne_of_gt (Nat.shiftLeft_pos_iff.mpr hpos)), Nat.shiftLeft_eq,
    Nat.add_right_comm, Nat.pow_add, Nat.pow_add 2 (mantissa.log2 + 1)]
  exact ⟨Nat.mul_le_mul_right _ (Nat.log2_self_le hne),
    Nat.mul_lt_mul_of_pos_right Nat.lt_log2_self (Nat.two_pow_pos places)⟩

theorem mantissa_shiftRight (extended : ExtendedMantissa) (places : Nat) :
    (extended >>> places).mantissa = extended.mantissa / 2 ^ places := by
  induction places with
  | zero => exact (Nat.div_one _).symm
  | succ places ih =>
    change (extended >>> places).mantissa / 2 = _
    rw [ih, Nat.div_div_eq_div_mul, Nat.pow_succ]

theorem roundedMantissa_bounds (extended : ExtendedMantissa) :
    extended.mantissa ≤ extended.roundedMantissa ∧
      extended.roundedMantissa ≤ extended.mantissa + 1 := by
  obtain ⟨mantissa, roundBit, stickyBit⟩ := extended
  cases roundBit <;> cases stickyBit <;>
    simp only [ExtendedMantissa.roundedMantissa, ExtendedMantissa.accuracy,
      Accuracy.roundToNearestEven] <;>
    omega

theorem mantissa_ofMantissaAndAccuracy (accuracy : Accuracy) :
    (ExtendedMantissa.ofMantissaAndAccuracy mantissa accuracy).mantissa = mantissa := by
  rw [ExtendedMantissa.ofMantissaAndAccuracy.eq_def]
  split <;> rfl

/-! ## Rounding -/

theorem targetExponent_eq (h : -1074 ≤ exponent + mantissa.log2 - 52) :
    Format.binary64.targetExponent (totalExponent mantissa exponent) =
      exponent + mantissa.log2 - 52 := by
  simp only [Format.targetExponent, totalExponent, Format.mantissaBits, Format.minExponent]
  omega

/-- A mantissa of at least 53 bits is cut off behind the 53rd. -/
theorem shiftToTargetExponent_spec (hlog : 52 ≤ mantissa.log2) (exponent : Int)
    (hlow : -1074 ≤ exponent + mantissa.log2 - 52) (accuracy : Accuracy) :
    (shiftToTargetExponent Format.binary64 mantissa exponent accuracy).1.mantissa.log2 = 52 ∧
      (shiftToTargetExponent Format.binary64 mantissa exponent accuracy).2 =
        exponent + mantissa.log2 - 52 := by
  have hplaces : (exponent + mantissa.log2 - 52 - exponent).toNat = mantissa.log2 - 52 := by omega
  rw [shiftToTargetExponent, targetExponent_eq hlow, shiftToExponent, hplaces, mantissa_shiftRight,
    mantissa_ofMantissaAndAccuracy]
  exact ⟨log2_cut hlog, by omega⟩

theorem roundWithAccuracy_eq {accuracy : Accuracy} {cut carried : ExtendedMantissa × Int}
    (hcut : shiftToTargetExponent Format.binary64 mantissa exponent accuracy = cut)
    (hcarried : shiftToTargetExponent Format.binary64 cut.1.roundedMantissa cut.2 .exact = carried)
    (hne : carried.1.mantissa ≠ 0) :
    roundWithAccuracy Format.binary64 .positive mantissa exponent accuracy =
      .finite .positive carried.1.mantissa carried.2 (Nat.pos_of_ne_zero hne) := by
  subst hcut hcarried
  exact dif_neg hne

theorem liesWithin_roundWithAccuracy (hlog : 52 ≤ mantissa.log2) (exponent : Int)
    (hlow : -1074 ≤ exponent + mantissa.log2 - 52) (accuracy : Accuracy) :
    LiesWithin (exponent + mantissa.log2 - 52) (exponent + mantissa.log2 - 51)
      (roundWithAccuracy Format.binary64 .positive mantissa exponent accuracy) := by
  obtain ⟨hcutLog, hcutExponent⟩ := shiftToTargetExponent_spec hlog exponent hlow accuracy
  generalize hcut : shiftToTargetExponent Format.binary64 mantissa exponent accuracy = cut
    at hcutLog hcutExponent
  obtain ⟨hcutLow, hcutHigh⟩ := bounds_of_log2 hcutLog
  obtain ⟨hle, hge⟩ := roundedMantissa_bounds cut.1
  -- rounding up can carry into a 54th bit, which the second shift drops again
  have hcarry : cut.1.roundedMantissa < 2 ^ 54 := by omega
  obtain ⟨hrounded, hroundedLog⟩ := log2_bounds (hcutLow.trans hle) hcarry
  obtain ⟨hcarriedLog, hcarriedExponent⟩ :=
    shiftToTargetExponent_spec hrounded cut.2 (by omega) .exact
  generalize hcarried : shiftToTargetExponent Format.binary64 cut.1.roundedMantissa cut.2 .exact =
    carried at hcarriedLog hcarriedExponent
  have hne := ne_zero_of_log2 hcarriedLog
  exact ⟨_, _, Nat.pos_of_ne_zero hne, hcarriedLog, by omega, by omega,
    roundWithAccuracy_eq hcut hcarried hne⟩

/-! ## Packing -/

theorem toNat_mantissa (hlog : mantissa.log2 = 52) :
    (1#1 ++ BitVec.ofNat 52 mantissa).toNat = mantissa := by
  have hbounds := bounds_of_log2 hlog
  have hrest : mantissa % 2 ^ 52 < 2 ^ 52 := Nat.mod_lt _ (Nat.two_pow_pos 52)
  rw [BitVec.toNat_append, BitVec.toNat_ofNat, BitVec.toNat_ofNat,
    ← Nat.shiftLeft_add_eq_or_of_lt hrest]
  omega

theorem exponentBias_eq : Format.binary64.exponentBias = 1023 := rfl

theorem unpack_pack_finite (hpos : 0 < mantissa) (hlog : mantissa.log2 = 52)
    (hlow : -1074 ≤ exponent) (hhigh : exponent ≤ 971) :
    (Float.Model.pack (.finite .positive mantissa exponent hpos)).unpack =
      .finite .positive mantissa exponent hpos := by
  obtain ⟨biased, hbiased⟩ : ∃ biased : Nat, exponent + 1075 = biased :=
    ⟨(exponent + 1075).toNat, by omega⟩
  have hsum : (exponent + (1023 : Nat) + (52 : Nat)).toNat = biased := by omega
  have hpacked : pack Format.binary64 (.finite .positive mantissa exponent hpos) =
      packComponents Format.binary64 .positive (BitVec.ofNat 11 biased) (BitVec.ofNat 52 mantissa) := by
    simp only [pack, exponentBias_eq, hsum, hlog, Format.mantissaBits, if_true]
    exact if_neg (by omega)
  have hvalue : (BitVec.ofNat 11 biased).toNat = biased := by
    rw [BitVec.toNat_ofNat]
    omega
  -- the exponent is neither that of infinity nor that of zero
  have hother : ∀ bits : BitVec 11, biased ≠ bits.toNat → BitVec.ofNat 11 biased ≠ bits := by
    rintro _ hne rfl
    exact hne hvalue.symm
  have hfinite : BitVec.ofNat 11 biased ≠ -1#11 := hother _ (by simp; omega)
  have hnormal : BitVec.ofNat 11 biased ≠ 0#11 := hother _ (by simp; omega)
  change unpack Format.binary64 (pack Format.binary64 _) = _
  rw [hpacked]
  simp only [unpack, unpackMantissa_packComponents, unpackExponent_packComponents,
    unpackSign_packComponents, if_neg hfinite, if_neg hnormal, toNat_mantissa hlog, hvalue,
    exponentBias_eq, Sign.ofBitVec_toBitVec]
  congr 1
  omega

theorem LiesWithin.unpack_pack (h : LiesWithin low high x) (hlow : -1074 ≤ low) (hhigh : high ≤ 971) :
    (Float.Model.pack x).unpack = x := by
  obtain ⟨mantissa, exponent, hpos, hlog, hle, hge, rfl⟩ := h
  exact unpack_pack_finite hpos hlog (by omega) (by omega)

/-! ## Arithmetic -/

theorem LiesWithin.mul (hx : LiesWithin low high x) (hy : LiesWithin low' high' y)
    (hlow : -1126 ≤ low + low') :
    LiesWithin (low + low' + 52) (high + high' + 54) (UnpackedFloat.mul Format.binary64 x y) := by
  obtain ⟨m, e, hm, hmlog, hle, hge, rfl⟩ := hx
  obtain ⟨n, f, hn, hnlog, hle', hge', rfl⟩ := hy
  obtain ⟨hmlow, hmhigh⟩ := bounds_of_log2 hmlog
  obtain ⟨hnlow, hnhigh⟩ := bounds_of_log2 hnlog
  have hleast : 2 ^ 52 * 2 ^ 52 ≤ m * n := Nat.mul_le_mul hmlow hnlow
  have hgreatest : m * n < 2 ^ 53 * 2 ^ 53 := Nat.mul_lt_mul'' hmhigh hnhigh
  have hne : m * n ≠ 0 := by omega
  have hlogLow : 104 ≤ (m * n).log2 := (Nat.le_log2 hne).mpr (by omega)
  have hlogHigh : (m * n).log2 < 106 := (Nat.log2_lt hne).mpr (by omega)
  exact (liesWithin_roundWithAccuracy (by omega) (e + f) (by omega) .exact).weaken
    (by omega) (by omega)

theorem LiesWithin.div (hx : LiesWithin low high x) (hy : LiesWithin low' high' y)
    (hlow : -1021 ≤ low - high') :
    LiesWithin (low - high' - 53) (high - low' - 51) (UnpackedFloat.div Format.binary64 x y) := by
  obtain ⟨m, e, hm, hmlog, hle, hge, rfl⟩ := hx
  obtain ⟨n, f, hn, hnlog, hle', hge', rfl⟩ := hy
  obtain ⟨hmlow, hmhigh⟩ := bounds_of_log2 hmlog
  obtain ⟨hnlow, hnhigh⟩ := bounds_of_log2 hnlog
  have htarget : min (e - f) (Format.binary64.targetExponent (totalExponent m e - totalExponent n f)) =
      e - f - 53 := by
    simp only [Format.targetExponent, totalExponent, Format.mantissaBits, Format.minExponent]
    omega
  have hplaces : (e - f - (e - f - 53)).toNat = 53 := by omega
  have hquotient : 2 ^ 52 ≤ (m <<< 53) / n ∧ (m <<< 53) / n < 2 ^ 54 := by
    rw [Nat.shiftLeft_eq, Nat.le_div_iff_mul_le hn, Nat.div_lt_iff_lt_mul hn]
    omega
  obtain ⟨hleast, hgreatest⟩ := log2_bounds hquotient.1 hquotient.2
  simp only [UnpackedFloat.div, divCore, htarget, hplaces]
  exact (liesWithin_roundWithAccuracy hleast _ (by omega) _).weaken (by omega) (by omega)

/-- A positive natural number is rounded to 53 bits of its own size. -/
theorem liesWithin_round {n : Nat} (hn : 0 < n) :
    LiesWithin (n.log2 - 52) (n.log2 - 51) (UnpackedFloat.round Format.binary64 .positive n 0) := by
  have hlog := log2_shiftLeft hn (0 - (0 + (n.log2 : Int) - 52)).toNat
  rw [UnpackedFloat.round, targetExponent_eq (by omega), decreaseExponent]
  exact (liesWithin_roundWithAccuracy (by omega) _ (by omega) .exact).weaken (by omega) (by omega)

theorem toModel_mul (a b : Float) : (a * b).toModel =
    Float.Model.pack (UnpackedFloat.mul Format.binary64 a.toModel.unpack b.toModel.unpack) := rfl

theorem toModel_div (a b : Float) : (a / b).toModel =
    Float.Model.pack (UnpackedFloat.div Format.binary64 a.toModel.unpack b.toModel.unpack) := rfl

theorem toModel_toFloat {n : Nat} (hn : 0 < n) (hsmall : n < 2 ^ 64) : n.toUInt64.toFloat.toModel =
    Float.Model.pack (UnpackedFloat.round Format.binary64 .positive n 0) := by
  have hword : n.toUInt64.toNat = n := UInt64.toNat_ofNat_of_lt' hsmall
  have hpositive : compare (n : Int) 0 = .gt := Int.compare_eq_gt.mpr (by omega)
  change Float.Model.pack (normalize Format.binary64 (n.toUInt64.toNat : Int) 0 .positive) = _
  rw [hword, UnpackedFloat.normalize, hpositive, Int.toNat_natCast]

theorem unpack_one : (Float.exactlyRepresentablePowersOfTen[0]).toModel.unpack =
    .finite .positive (2 ^ 52) (-52) (Nat.two_pow_pos 52) := rfl

/-- A whole number that is read as a decimal is rounded from all its bits. -/
theorem liesWithin_ofScientific {n : Nat} (hn : 0 < n) :
    LiesWithin (n.log2 - 52) (n.log2 - 51) (UnpackedFloat.ofScientific Format.binary64 n 0) := by
  have hlog := log2_shiftLeft hn 53
  have hnotHuge : ¬ (0 : Int) > 2 ^ 11 := by decide
  have hnotTiny : ¬ (0 : Int) < -((2 ^ 11 : Int) + n.log2) := by omega
  have hbits : Format.binary64.mantissaBits = 53 := rfl
  have hbehind : 52 ≤ (n <<< 53).log2 := by omega
  have hround := liesWithin_roundWithAccuracy hbehind (-53) (by omega) .exact
  rw [UnpackedFloat.ofScientific, dif_neg (Nat.ne_of_gt hn), if_neg hnotHuge, if_neg hnotTiny,
    if_pos (le_refl 0)]
  simp only [UnpackedFloat.mul, Int.toNat_zero, Nat.pow_zero, Nat.mul_one, hbits]
  exact hround.weaken (by omega) (by omega)

theorem liesWithin_ofNat {n : Nat} (hn : 0 < n) (hsmall : n < 2 ^ 64) :
    LiesWithin (-52) 14 (Float.ofNat n).toModel.unpack := by
  have hlog : n.log2 < 64 := (Nat.log2_lt (Nat.ne_of_gt hn)).mpr hsmall
  change LiesWithin (-52) 14 (Float.ofScientific n false 0).toModel.unpack
  rw [Float.ofScientific]
  split
  · have hround := liesWithin_round hn
    have hone : LiesWithin (-52) (-52) (Float.exactlyRepresentablePowersOfTen[0]).toModel.unpack :=
      ⟨_, _, _, by decide, le_refl _, le_refl _, unpack_one⟩
    have hproduct := hround.mul hone (by omega)
    rw [if_neg Bool.false_ne_true, toModel_mul, toModel_toFloat hn hsmall,
      hround.unpack_pack (by omega) (by omega), hproduct.unpack_pack (by omega) (by omega)]
    exact hproduct.weaken (by omega) (by omega)
  · have hread := liesWithin_ofScientific hn
    rw [if_neg Bool.false_ne_true]
    change LiesWithin (-52) 14 (Float.Model.pack (UnpackedFloat.ofScientific Format.binary64 n 0)).unpack
    rw [hread.unpack_pack (by omega) (by omega)]
    exact hread.weaken (by omega) (by omega)

end SourceMetrics.Magnitude
