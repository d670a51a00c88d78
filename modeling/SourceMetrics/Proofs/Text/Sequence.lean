import SourceMetrics.Proofs.Text.Boundary

/-! # Sequences of several bytes

A byte of 0x80 or above may open a sequence. The bytes behind it finish the sequence, or they break
off where the next byte cannot go on.

* `Opening.Finishes`, `Opening.Breaks`: what finishes an open sequence, and what begins to finish it
  and stops.
* `decodeFrom_open`: an open sequence ends in one of the two ways, and decoding begins anew behind it.
* `exists_finishes_iff`: the bytes that finish the sequence of a first byte are those that make up a
  character with it. -/

namespace SourceMetrics.Utf8

set_option autoImplicit false

/-! ## How an open sequence ends -/

namespace Opening

/-- These bytes finish the sequence, and its bits then have the given value. -/
inductive Finishes : Opening → List UInt8 → Nat → Prop
  | last {value : Nat} {low high byte : UInt8} (hlow : low ≤ byte) (hhigh : byte ≤ high) :
      Finishes ⟨value, 0, low, high⟩ [byte] (value * 64 + (byte.toNat - 0x80))
  | more {value remaining n : Nat} {low high byte : UInt8} {tail : List UInt8} (hlow : low ≤ byte)
      (hhigh : byte ≤ high)
      (h : Finishes ⟨value * 64 + (byte.toNat - 0x80), remaining, 0x80, 0xBF⟩ tail n) :
      Finishes ⟨value, remaining + 1, low, high⟩ (byte :: tail) n

/-- What finishes the sequence may begin with these bytes and then this one. -/
def GoesOn (opened : Opening) (front : List UInt8) (byte : UInt8) : Prop :=
  ∃ more n, opened.Finishes (front ++ byte :: more) n

/-- The bytes begin to finish the sequence, and `rest` does not go on with it. -/
structure Breaks (opened : Opening) (front rest : List UInt8) : Prop where
  unfinished : ∃ byte, opened.GoesOn front byte
  stopped : ∀ byte ∈ rest.head?, ¬ opened.GoesOn front byte

variable {value remaining n : Nat} {low high byte next : UInt8} {front tail : List UInt8}

theorem finishes_zero_iff : Finishes ⟨value, 0, low, high⟩ tail n ↔
    ∃ byte, tail = [byte] ∧ (low ≤ byte ∧ byte ≤ high) ∧ n = value * 64 + (byte.toNat - 0x80) := by
  constructor
  · intro h
    cases h with
    | last hlow hhigh => exact ⟨_, rfl, ⟨hlow, hhigh⟩, rfl⟩
  · rintro ⟨byte, rfl, ⟨hlow, hhigh⟩, hn⟩
    rw [hn]
    exact .last hlow hhigh

theorem finishes_succ_iff : Finishes ⟨value, remaining + 1, low, high⟩ tail n ↔
    ∃ byte behind, tail = byte :: behind ∧ (low ≤ byte ∧ byte ≤ high) ∧
      Finishes ⟨value * 64 + (byte.toNat - 0x80), remaining, 0x80, 0xBF⟩ behind n := by
  constructor
  · intro h
    cases h with
    | more hlow hhigh h => exact ⟨_, _, rfl, ⟨hlow, hhigh⟩, h⟩
  · rintro ⟨byte, behind, rfl, ⟨hlow, hhigh⟩, h⟩
    exact .more hlow hhigh h

theorem goesOn_nil_iff : GoesOn ⟨value, remaining, low, high⟩ [] byte ↔ low ≤ byte ∧ byte ≤ high := by
  constructor
  · rintro ⟨more, n, h⟩
    cases h with
    | last hlow hhigh => exact ⟨hlow, hhigh⟩
    | more hlow hhigh _ => exact ⟨hlow, hhigh⟩
  · rintro ⟨hlow, hhigh⟩
    induction remaining generalizing value low high byte with
    | zero => exact ⟨[], _, .last hlow hhigh⟩
    | succ remaining ih =>
      -- behind this byte any one in the widest range will do
      obtain ⟨more, n, h⟩ : GoesOn ⟨value * 64 + (byte.toNat - 0x80), remaining, 0x80, 0xBF⟩ [] 0x80 :=
        ih (UInt8.le_refl 0x80) (by decide)
      exact ⟨0x80 :: more, n, .more hlow hhigh h⟩

theorem goesOn_cons_iff (hlow : low ≤ byte) (hhigh : byte ≤ high) :
    GoesOn ⟨value, remaining + 1, low, high⟩ (byte :: front) next ↔
      GoesOn ⟨value * 64 + (byte.toNat - 0x80), remaining, 0x80, 0xBF⟩ front next := by
  constructor
  · rintro ⟨more, n, h⟩
    cases h with
    | more _ _ h => exact ⟨more, n, h⟩
  · rintro ⟨more, n, h⟩
    exact ⟨more, n, .more hlow hhigh h⟩

theorem Breaks.cons (hlow : low ≤ byte) (hhigh : byte ≤ high) {rest : List UInt8}
    (h : Breaks ⟨value * 64 + (byte.toNat - 0x80), remaining, 0x80, 0xBF⟩ front rest) :
    Breaks ⟨value, remaining + 1, low, high⟩ (byte :: front) rest := by
  constructor
  · obtain ⟨next, hnext⟩ := h.unfinished
    exact ⟨next, (goesOn_cons_iff hlow hhigh).mpr hnext⟩
  · intro next hnext hgoes
    exact h.stopped next hnext ((goesOn_cons_iff hlow hhigh).mp hgoes)

end Opening

open Opening

/-- **An open sequence is finished, or it breaks off.** -/
theorem decodeFrom_open {opened : Opening} (h : opened.low ≤ opened.high) (bytes : List UInt8) :
    (∃ tail n rest, bytes = tail ++ rest ∧ opened.Finishes tail n ∧
        decodeFrom (some opened) bytes = some (Char.ofNat n) :: decode rest) ∨
      ∃ front rest, bytes = front ++ rest ∧ opened.Breaks front rest ∧
        decodeFrom (some opened) bytes = none :: decode rest := by
  -- the induction is on the bytes still to be read, and each that goes on opens the next sequence
  induction bytes generalizing opened with
  | nil =>
    have hgoes : opened.GoesOn [] opened.low := goesOn_nil_iff.mpr ⟨UInt8.le_refl opened.low, h⟩
    exact .inr ⟨[], [], rfl, ⟨⟨opened.low, hgoes⟩, by simp⟩, rfl⟩
  | cons byte bytes ih =>
    obtain ⟨value, remaining, low, high⟩ := opened
    by_cases hin : low ≤ byte ∧ byte ≤ high
    · cases remaining with
      | zero =>
        refine .inl ⟨[byte], _, bytes, rfl, .last hin.1 hin.2, ?_⟩
        simp [decodeFrom, step, hin, decode]
      | succ remaining =>
        have hstep : decodeFrom (some ⟨value, remaining + 1, low, high⟩) (byte :: bytes) =
            decodeFrom (some ⟨value * 64 + (byte.toNat - 0x80), remaining, 0x80, 0xBF⟩) bytes := by
          simp [decodeFrom, step, hin]
        rw [hstep]
        rcases @ih ⟨_, remaining, 0x80, 0xBF⟩ (show (0x80 : UInt8) ≤ 0xBF by decide) with
          ⟨tail, n, rest, rfl, hfinishes, hdecode⟩ | ⟨front, rest, rfl, hbreaks, hdecode⟩
        · exact .inl ⟨byte :: tail, n, rest, rfl, .more hin.1 hin.2 hfinishes, hdecode⟩
        · exact .inr ⟨byte :: front, rest, rfl, hbreaks.cons hin.1 hin.2, hdecode⟩
    · refine .inr ⟨[], byte :: bytes, rfl, ⟨⟨low, ?_⟩, ?_⟩, ?_⟩
      · exact goesOn_nil_iff.mpr ⟨UInt8.le_refl low, h⟩
      · intro next hnext hgoes
        cases hnext
        exact hin (goesOn_nil_iff.mp hgoes)
      · simp [decodeFrom, step, hin, decode]

/-! ## The bytes of a character -/

section Bytes

variable {value : Nat} {first second third fourth : UInt8}

theorem encodeChar_ascii (h : first < 0x80) :
    String.utf8EncodeChar (Char.ofNat first.toNat) = [first] := by
  have hlt : first.toNat < 0x80 := UInt8.lt_iff_toNat_lt.mp h
  have hvalue : (Char.ofNat first.toNat).val.toNat = first.toNat := toNat_ofNat (by omega)
  unfold String.utf8EncodeChar
  rw [hvalue]
  dsimp only
  rw [if_pos (by omega), UInt8.ofNat_toNat]

theorem encodeChar_two (hfirst : first.toNat = value + 0xC0) (hvalue : 2 ≤ value ∧ value < 32)
    (hsecond : 0x80 ≤ second.toNat ∧ second.toNat ≤ 0xBF) :
    String.utf8EncodeChar (Char.ofNat (value * 64 + (second.toNat - 0x80))) = [first, second] := by
  generalize hn : value * 64 + (second.toNat - 0x80) = n
  have hvalue : (Char.ofNat n).val.toNat = n := toNat_ofNat (by omega)
  unfold String.utf8EncodeChar
  rw [hvalue]
  dsimp only
  rw [if_neg (by omega), if_pos (by omega)]
  simp only [List.cons.injEq, UInt8.ofNat_eq_iff_mod_eq_toNat, and_true]
  omega

theorem encodeChar_three (hfirst : first.toNat = value + 0xE0) (hvalue : value < 16)
    (hsecond : 0x80 ≤ second.toNat ∧ second.toNat ≤ 0xBF)
    (hlong : value = 0 → 0xA0 ≤ second.toNat) (hsurrogate : value = 13 → second.toNat ≤ 0x9F)
    (hthird : 0x80 ≤ third.toNat ∧ third.toNat ≤ 0xBF) :
    String.utf8EncodeChar (Char.ofNat
      ((value * 64 + (second.toNat - 0x80)) * 64 + (third.toNat - 0x80))) =
      [first, second, third] := by
  generalize hn : (value * 64 + (second.toNat - 0x80)) * 64 + (third.toNat - 0x80) = n
  have hvalue : (Char.ofNat n).val.toNat = n := toNat_ofNat (by omega)
  unfold String.utf8EncodeChar
  rw [hvalue]
  dsimp only
  rw [if_neg (by omega), if_neg (by omega), if_pos (by omega)]
  simp only [List.cons.injEq, UInt8.ofNat_eq_iff_mod_eq_toNat, and_true]
  omega

theorem encodeChar_four (hfirst : first.toNat = value + 0xF0) (hvalue : value < 5)
    (hsecond : 0x80 ≤ second.toNat ∧ second.toNat ≤ 0xBF)
    (hlong : value = 0 → 0x90 ≤ second.toNat) (hgreat : value = 4 → second.toNat ≤ 0x8F)
    (hthird : 0x80 ≤ third.toNat ∧ third.toNat ≤ 0xBF)
    (hfourth : 0x80 ≤ fourth.toNat ∧ fourth.toNat ≤ 0xBF) :
    String.utf8EncodeChar (Char.ofNat
      (((value * 64 + (second.toNat - 0x80)) * 64 + (third.toNat - 0x80)) * 64 +
        (fourth.toNat - 0x80))) = [first, second, third, fourth] := by
  generalize hn : ((value * 64 + (second.toNat - 0x80)) * 64 + (third.toNat - 0x80)) * 64 +
    (fourth.toNat - 0x80) = n
  have hvalue : (Char.ofNat n).val.toNat = n := toNat_ofNat (by omega)
  unfold String.utf8EncodeChar
  rw [hvalue]
  dsimp only
  rw [if_neg (by omega), if_neg (by omega), if_neg (by omega)]
  simp only [List.cons.injEq, UInt8.ofNat_eq_iff_mod_eq_toNat, and_true]
  omega

end Bytes

/-! ## First bytes -/

/-- What a first byte may announce, by the number of bytes of the character. -/
inductive Announces (first : UInt8) : Opening → Prop
  | two {value : Nat} {low high : UInt8} (hfirst : first.toNat = value + 0xC0)
      (hvalue : 2 ≤ value ∧ value < 32) (hrange : 0x80 ≤ low.toNat ∧ high.toNat ≤ 0xBF) :
      Announces first ⟨value, 0, low, high⟩
  | three {value : Nat} {low high : UInt8} (hfirst : first.toNat = value + 0xE0)
      (hvalue : value < 16) (hrange : 0x80 ≤ low.toNat ∧ high.toNat ≤ 0xBF)
      (hlong : value = 0 → 0xA0 ≤ low.toNat) (hsurrogate : value = 13 → high.toNat ≤ 0x9F) :
      Announces first ⟨value, 1, low, high⟩
  | four {value : Nat} {low high : UInt8} (hfirst : first.toNat = value + 0xF0)
      (hvalue : value < 5) (hrange : 0x80 ≤ low.toNat ∧ high.toNat ≤ 0xBF)
      (hlong : value = 0 → 0x90 ≤ low.toNat) (hgreat : value = 4 → high.toNat ≤ 0x8F) :
      Announces first ⟨value, 2, low, high⟩

theorem toNat_between {low high byte : UInt8} (h : low ≤ byte ∧ byte ≤ high) :
    low.toNat ≤ byte.toNat ∧ byte.toNat ≤ high.toNat :=
  ⟨UInt8.le_iff_toNat_le.mp h.1, UInt8.le_iff_toNat_le.mp h.2⟩

theorem Announces.encodeChar_eq {first : UInt8} {opened : Opening} {tail : List UInt8} {n : Nat}
    (h : Announces first opened) (hfinishes : opened.Finishes tail n) :
    String.utf8EncodeChar (Char.ofNat n) = first :: tail := by
  cases h with
  | two hfirst hvalue hrange =>
    obtain ⟨second, rfl, hsecond, hn⟩ := finishes_zero_iff.mp hfinishes
    have hbetween := toNat_between hsecond
    rw [hn]
    exact encodeChar_two hfirst hvalue (by omega)
  | three hfirst hvalue hrange hlong hsurrogate =>
    obtain ⟨second, _, rfl, hsecond, hbehind⟩ := finishes_succ_iff.mp hfinishes
    obtain ⟨third, rfl, hthird, hn⟩ := finishes_zero_iff.mp hbehind
    have hbetween := toNat_between hsecond
    rw [hn]
    exact encodeChar_three hfirst hvalue (by omega) (by omega) (by omega) (toNat_between hthird)
  | four hfirst hvalue hrange hlong hgreat =>
    obtain ⟨second, _, rfl, hsecond, hbehind⟩ := finishes_succ_iff.mp hfinishes
    obtain ⟨third, _, rfl, hthird, hlast⟩ := finishes_succ_iff.mp hbehind
    obtain ⟨fourth, rfl, hfourth, hn⟩ := finishes_zero_iff.mp hlast
    have hbetween := toNat_between hsecond
    rw [hn]
    exact encodeChar_four hfirst hvalue (by omega) (by omega) (by omega) (toNat_between hthird)
      (toNat_between hfourth)

section Lead

variable {first : UInt8} {opened : Opening} (h : lead? first = some opened)

include h

theorem announces_of_lead : Announces first opened := by
  have hlead := lead?_ofNat first.toNat_lt
  rw [UInt8.ofNat_toNat, h] at hlead
  clear h
  repeat' split at hlead
  all_goals first | contradiction | obtain rfl := Option.some.inj hlead
  · exact .two (by omega) (by omega) (by decide)
  · exact .three (by omega) (by decide) (by decide) (by decide) (by decide)
  · exact .three (by omega) (by decide) (by decide) (by decide) (by decide)
  · exact .three (by omega) (by omega) (by decide) (by omega) (by omega)
  · exact .four (by omega) (by decide) (by decide) (by decide) (by decide)
  · exact .four (by omega) (by decide) (by decide) (by decide) (by decide)
  · exact .four (by omega) (by omega) (by decide) (by omega) (by omega)

theorem low_le_high_of_lead : opened.low ≤ opened.high := by
  unfold lead? at h
  grind

theorem decode_cons_of_lead (bytes : List UInt8) :
    decode (first :: bytes) = decodeFrom (some opened) bytes := by
  have hfirst : 0x80 ≤ first.toNat := by
    cases announces_of_lead h <;> omega
  rw [← @UInt8.ofNat_toNat first] at h ⊢
  exact decode_lead hfirst first.toNat_lt h bytes

/-- **What finishes the sequence of a first byte makes up a character, and nothing else does.** -/
theorem exists_finishes_iff {tail : List UInt8} :
    (∃ n, opened.Finishes tail n) ↔ ∃ c, String.utf8EncodeChar c = first :: tail := by
  constructor
  · rintro ⟨n, hfinishes⟩
    exact ⟨Char.ofNat n, (announces_of_lead h).encodeChar_eq hfinishes⟩
  · rintro ⟨c, hc⟩
    have hdecode := decode_encodeChar c []
    rw [List.append_nil, hc, decode_cons_of_lead h] at hdecode
    rcases decodeFrom_open (low_le_high_of_lead h) tail with
      ⟨done, n, rest, rfl, hfinishes, -⟩ | ⟨front, rest, -, -, hnone⟩
    · have hdone := (announces_of_lead h).encodeChar_eq hfinishes
      rw [← List.cons_append, ← hdone, ← List.append_nil (String.utf8EncodeChar c)] at hc
      obtain ⟨-, rfl⟩ := encodeChar_append_inj hc
      rw [List.append_nil]
      exact ⟨n, hfinishes⟩
    · rw [hnone] at hdecode
      cases hdecode

end Lead

end SourceMetrics.Utf8
