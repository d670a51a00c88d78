import SourceMetrics.Json.Token
import SourceMetrics.Proofs.Decimal.Shortest
import SourceMetrics.Proofs.Text.Run

/-! # Numerals that are read back

* `WellSpelt`: the numerals that a JSON text can spell.
* `SpellsExponent`: how an exponent may be spelt.
* `numeral?_append`: such a numeral is read from any of its spellings, if what follows does not
  continue it.
* `wellSpelt_ofFloat`: the numeral of a double is one. A positive double has a shortest decimal
  with a first digit other than zero.
* `toNat?_ofNat`: the numeral of a natural number is read as that number. -/

namespace SourceMetrics.Json

set_option autoImplicit false

namespace Numeral

/-- A numeral with digits only, at least one in front of the point, and no zero in front of
others. -/
structure WellSpelt (n : Numeral) : Prop where
  ne_nil : n.whole ≠ []
  isDigit_whole : ∀ c ∈ n.whole, c.isDigit = true
  eq_zero : n.whole.head? = some '0' → n.whole = ['0']
  isDigit_fraction : ∀ c ∈ n.fraction, c.isDigit = true

/-- The text of a numeral up to its exponent. -/
def frontText (n : Numeral) : List Char :=
  (if n.negative then ['-'] else []) ++ n.whole
    ++ (if n.fraction.isEmpty then [] else '.' :: n.fraction)

/-- Whether a character can continue a numeral in front of it. -/
def continues (c : Char) : Bool :=
  c.isDigit || c == '.' || c == 'e' || c == 'E'

/-! ## Digits -/

theorem head?_toDigits {n : Nat} (hn : 0 < n) : (Nat.toDigits 10 n).head? ≠ some '0' := by
  induction n using Nat.strongRecOn with
  | ind n ih =>
    rw [Nat.toDigits_eq_if (by decide)]
    split
    · rename_i hsmall
      have hall : ∀ m < 10, 0 < m → [m.digitChar].head? ≠ some '0' := by decide
      exact hall n hsmall hn
    · rename_i hlarge
      obtain ⟨c, digits, hdigits⟩ :=
        List.exists_cons_of_ne_nil (Nat.toDigits_ne_nil : Nat.toDigits 10 (n / 10) ≠ [])
      have hfront := ih (n / 10) (by omega) (by omega)
      rw [hdigits] at hfront ⊢
      exact hfront

theorem isDigit_toDigits {n : Nat} : ∀ c ∈ Nat.toDigits 10 n, c.isDigit = true :=
  fun _ hc => Nat.isDigit_of_mem_toDigits (by decide) (Nat.le_refl _) hc

theorem foldl_toDigits (n : Nat) :
    (Nat.toDigits 10 n).foldl (fun value c => 10 * value + digitValue c) 0 = n := by
  have h := Nat.ofDigitChars_toDigits (b := 10) (n := n) (by decide) (Nat.le_refl _)
  rwa [Nat.ofDigitChars_eq_foldl] at h

/-! ## Numerals of natural numbers -/

theorem wellSpelt_ofNat (n : Nat) : (ofNat n).WellSpelt where
  ne_nil := Nat.toDigits_ne_nil
  isDigit_whole := isDigit_toDigits
  eq_zero h := by
    obtain rfl | hn := Nat.eq_zero_or_pos n
    · rfl
    · exact absurd h (head?_toDigits hn)
  isDigit_fraction _ hc := absurd hc List.not_mem_nil

theorem toNat?_ofNat (n : Nat) : (ofNat n).toNat? = some n := by
  rw [toNat?, ofNat]
  exact congrArg some (foldl_toDigits n)

/-! ## Numerals of doubles -/

theorem isDigit_replicate {count : Nat} : ∀ c ∈ List.replicate count '0', c.isDigit = true := by
  intro c hc
  rw [List.eq_of_mem_replicate hc]
  rfl

/-- Digits of which the first one is not zero stay so when more digits follow. -/
theorem head?_take_append {digits : List Char} (hne : digits ≠ [])
    (hhead : digits.head? ≠ some '0') (count : Nat) (zeros : List Char) :
    (digits.take (count + 1) ++ zeros).head? ≠ some '0' := by
  cases digits with
  | nil => exact absurd rfl hne
  | cons c digits => simpa using hhead

theorem wellSpelt_ofDecimal (negative : Bool) {d : Decimal} (hd : 0 < d.digits) :
    (ofDecimal negative d).WellSpelt := by
  have hhead := head?_toDigits hd
  have hne : Nat.toDigits 10 d.digits ≠ [] := Nat.toDigits_ne_nil
  have hdigits := isDigit_toDigits (n := d.digits)
  unfold ofDecimal
  generalize Nat.toDigits 10 d.digits = digits at *
  have htake (count : Nat) : ∀ c ∈ digits.take count, c.isDigit = true :=
    fun c hc => hdigits c (List.mem_of_mem_take hc)
  have hdrop (count : Nat) : ∀ c ∈ digits.drop count, c.isDigit = true :=
    fun c hc => hdigits c (List.mem_of_mem_drop hc)
  simp only
  split
  · -- digits on both sides of the point
    refine ⟨?_, ?_, fun h => absurd h (head?_take_append hne hhead _ _), ?_⟩
    · simp [hne]
    · intro c hc
      exact (List.mem_append.mp hc).elim (htake _ c) (isDigit_replicate c)
    · intro c hc
      simp only at hc
      split at hc
      · rw [List.mem_singleton.mp hc]
        rfl
      · exact hdrop _ c hc
  · split
    · -- zero in front of the point
      refine ⟨List.cons_ne_nil _ _, ?_, fun _ => rfl, ?_⟩
      · intro c hc
        rw [List.mem_singleton.mp hc]
        rfl
      · intro c hc
        exact (List.mem_append.mp hc).elim (isDigit_replicate c) (hdigits c)
    · -- an exponent
      refine ⟨?_, htake 1, fun h => absurd h ?_, hdrop 1⟩
      · simp [hne]
      · simpa using head?_take_append hne hhead 0 []

theorem wellSpelt_ofFloat (x : Float) : (ofFloat x).WellSpelt := by
  rw [ofFloat]
  split
  · have hzero : ∀ c ∈ ['0'], c.isDigit = true := List.forall_mem_singleton.mpr rfl
    exact ⟨List.cons_ne_nil _ _, hzero, fun _ => rfl, hzero⟩
  · rename_i hmantissa
    exact wellSpelt_ofDecimal _ (Decimal.digits_pos_shortest (Nat.pos_of_ne_zero hmantissa))

end Numeral

namespace Token

open Numeral Text

/-! ## Reading a numeral -/

variable {rest : List Char}

theorem digits?_append {digits : List Char} (hne : digits ≠ [])
    (hdigits : ∀ c ∈ digits, c.isDigit = true) (hrest : Stops Char.isDigit rest) :
    digits? (digits ++ rest) = some digits := by
  rw [digits?, takeWhile_append_of_stops hdigits hrest]
  cases digits with
  | nil => exact absurd rfl hne
  | cons c digits => rfl

theorem whole?_append {n : Numeral} (h : n.WellSpelt) (hrest : Stops Char.isDigit rest) :
    whole? (n.whole ++ rest) = some n.whole := by
  have hdigits := digits?_append h.ne_nil h.isDigit_whole hrest
  have hzero := h.eq_zero
  cases hwhole : n.whole with
  | nil => exact absurd hwhole h.ne_nil
  | cons c whole =>
    rw [hwhole] at hdigits hzero
    by_cases hc : c = '0'
    · subst hc
      rw [hzero rfl]
      rfl
    · rw [List.cons_append, whole?]
      · exact hdigits
      · intro rest' hsame
        exact hc (List.cons.inj hsame).1

theorem fraction?_append {fraction : List Char} (hfraction : ∀ c ∈ fraction, c.isDigit = true)
    (hrest : Stops (fun c => c.isDigit || c == '.') rest) :
    fraction? ((if fraction.isEmpty then [] else '.' :: fraction) ++ rest) =
      some (fraction, rest) := by
  cases fraction with
  | nil =>
    rw [List.isEmpty_nil, if_pos rfl, List.nil_append, fraction?]
    rintro rest' rfl
    exact absurd (stops_cons.mp hrest) (by decide)
  | cons c fraction =>
    have hdigits : digits? (c :: fraction ++ rest) = some (c :: fraction) :=
      digits?_append (List.cons_ne_nil c fraction) hfraction fun c hc =>
        (Bool.or_eq_false_iff.mp (hrest c hc)).1
    simp only [List.isEmpty_cons, Bool.false_eq_true, if_false, List.cons_append, fraction?]
    rw [← List.cons_append, hdigits]
    simp

/-- How an exponent may be spelt: behind a mark of either case, with a sign or without one, in any
digits. An exponent that is missing is not spelt at all. -/
inductive SpellsExponent : Option Int → List Char → Prop
  | none : SpellsExponent none []
  | unsigned {mark : Char} {digits : List Char} : mark = 'e' ∨ mark = 'E' → digits ≠ [] →
      (∀ c ∈ digits, c.isDigit = true) →
      SpellsExponent (some (Nat.ofDigitChars 10 digits 0)) (mark :: digits)
  | positive {mark : Char} {digits : List Char} : mark = 'e' ∨ mark = 'E' → digits ≠ [] →
      (∀ c ∈ digits, c.isDigit = true) →
      SpellsExponent (some (Nat.ofDigitChars 10 digits 0)) (mark :: '+' :: digits)
  | negative {mark : Char} {digits : List Char} : mark = 'e' ∨ mark = 'E' → digits ≠ [] →
      (∀ c ∈ digits, c.isDigit = true) →
      SpellsExponent (some (-(Nat.ofDigitChars 10 digits 0 : Nat))) (mark :: '-' :: digits)

theorem spells_exponentText (exponent : Option Int) :
    SpellsExponent exponent ((exponent.map exponentText).getD []) := by
  cases exponent with
  | none => exact .none
  | some exponent =>
    have hvalue := Nat.ofDigitChars_toDigits (b := 10) (n := exponent.natAbs) (by decide)
      (Nat.le_refl _)
    rw [Option.map_some, Option.getD_some, exponentText]
    split
    · rename_i hsign
      have h := SpellsExponent.negative (.inl rfl) Nat.toDigits_ne_nil
        (isDigit_toDigits (n := exponent.natAbs))
      rw [hvalue, Int.ofNat_natAbs_of_nonpos (Int.le_of_lt hsign), Int.neg_neg] at h
      exact h
    · rename_i hsign
      have h := SpellsExponent.positive (.inl rfl) Nat.toDigits_ne_nil
        (isDigit_toDigits (n := exponent.natAbs))
      rw [hvalue, Int.natAbs_of_nonneg (Int.not_lt.mp hsign)] at h
      exact h

theorem foldl_digits_int (digits : List Char) :
    digits.foldl (fun (value : Int) c => 10 * value + digitValue c) 0 =
      (Nat.ofDigitChars 10 digits 0 : Nat) := by
  rw [Nat.ofDigitChars_eq_foldl]
  exact List.foldl_hom (fun value : Nat => (value : Int)) (by simp [digitValue])

theorem exponent?_append {exponent : Option Int} {spelled : List Char}
    (h : SpellsExponent exponent spelled) (hrest : Stops continues rest) :
    exponent? (spelled ++ rest) = some (exponent, rest) := by
  have hdigit : Stops Char.isDigit rest := by
    intro c hc
    have h := hrest c hc
    simp only [continues, Bool.or_eq_false_iff] at h
    exact h.1.1.1
  cases h with
  | none =>
    cases rest with
    | nil => rfl
    | cons c rest =>
      have hc := stops_cons.mp hrest
      simp only [continues, Bool.or_eq_false_iff, beq_eq_false_iff_ne] at hc
      simp [exponent?, hc]
  | @unsigned mark digits hmark hne hdigits =>
    have hread := digits?_append hne hdigits hdigit
    obtain ⟨d, digits, rfl⟩ := List.exists_cons_of_ne_nil hne
    have hd := hdigits d List.mem_cons_self
    have hminus : d ≠ '-' := by
      rintro rfl
      exact absurd hd (by decide)
    have hplus : d ≠ '+' := by
      rintro rfl
      exact absurd hd (by decide)
    rw [List.cons_append] at hread
    simp [exponent?, hmark, hminus, hplus, hread, foldl_digits_int, -List.foldl_cons]
  | @positive mark digits hmark hne hdigits =>
    have hread := digits?_append hne hdigits hdigit
    simp [exponent?, hmark, hread, foldl_digits_int]
  | @negative mark digits hmark hne hdigits =>
    have hread := digits?_append hne hdigits hdigit
    simp [exponent?, hmark, hread, foldl_digits_int]

theorem stops_exponent {exponent : Option Int} {spelled : List Char}
    (h : SpellsExponent exponent spelled) (hrest : Stops continues rest) :
    Stops (fun c => c.isDigit || c == '.') (spelled ++ rest) := by
  cases h with
  | none =>
    intro c hc
    have h := hrest c hc
    simp only [continues, Bool.or_eq_false_iff] at h
    exact Bool.or_eq_false_iff.mpr h.1.1
  | unsigned hmark _ _ => obtain rfl | rfl := hmark <;> exact stops_cons.mpr rfl
  | positive hmark _ _ => obtain rfl | rfl := hmark <;> exact stops_cons.mpr rfl
  | negative hmark _ _ => obtain rfl | rfl := hmark <;> exact stops_cons.mpr rfl

theorem stops_fraction (fraction : List Char)
    (hrest : Stops (fun c => c.isDigit || c == '.') rest) :
    Stops Char.isDigit ((if fraction.isEmpty then [] else '.' :: fraction) ++ rest) := by
  cases fraction with
  | nil => exact fun c hc => (Bool.or_eq_false_iff.mp (hrest c hc)).1
  | cons c fraction => exact stops_cons.mpr rfl

/-- A numeral is read however its exponent is spelt. -/
theorem numeral?_append {n : Numeral} (h : n.WellSpelt) {spelled : List Char}
    (hspelled : SpellsExponent n.exponent spelled) (hrest : Stops continues rest) :
    numeral? (n.frontText ++ spelled ++ rest) = some (n, rest) := by
  have hpoint := stops_exponent hspelled hrest
  have hwhole := whole?_append h (stops_fraction n.fraction hpoint)
  have hfraction := fraction?_append h.isDigit_fraction hpoint
  have hexponent := exponent?_append hspelled hrest
  obtain ⟨c, whole, hfront⟩ := List.exists_cons_of_ne_nil h.ne_nil
  have hminus : c ≠ '-' := by
    rintro rfl
    exact absurd (h.isDigit_whole '-' (by rw [hfront]; exact List.mem_cons_self)) (by decide)
  obtain ⟨negative, _, fraction, exponent⟩ := n
  dsimp only at hfront hwhole hfraction hexponent
  subst hfront
  rw [List.cons_append] at hwhole
  cases negative with
  | true =>
    simp only [frontText, numeral?, if_true, List.append_assoc, List.cons_append, List.nil_append]
    rw [hwhole]
    simp [hfraction, hexponent, -List.isEmpty_iff]
  | false => simp [frontText, numeral?, hminus, hwhole, hfraction, hexponent, -List.isEmpty_iff]

end Token

end SourceMetrics.Json
