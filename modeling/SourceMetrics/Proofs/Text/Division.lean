import SourceMetrics.Proofs.Text.Sequence

/-! # Characters and maximal invalid parts

What decoding finds, said without the states of the decoder. Bytes that need not be valid are divided
into the encodings of characters and into invalid parts. An invalid part stands where no character
does, and it is as long as it can be: the longest front of a character that stands there, or a single
byte if no character begins so.

* `Divided`: the bytes and the parts they are divided into.
* `Divided.unique`: bytes are divided in one way at most.
* `divided_decode`: the decoder divides them. The induction is on their number, as a part may take
  any number of them away.
* `decode_eq_iff`: so the decoder finds the one division there is. -/

namespace SourceMetrics.Utf8

set_option autoImplicit false

/-- The encoding of some character begins with these bytes. -/
def IsFront (front : List UInt8) : Prop :=
  ∃ c, front <+: String.utf8EncodeChar c

/-- Bytes that are a maximal invalid part where `rest` follows them. -/
structure IsInvalid (part rest : List UInt8) : Prop where
  ne_nil : part ≠ []
  /-- No character stands here. -/
  unreadable : ∀ c, ¬ String.utf8EncodeChar c <+: part ++ rest
  kind : IsFront part ∨ part.length = 1
  longest : ∀ front, front <+: part ++ rest → IsFront front → front.length ≤ part.length

/-- The bytes are the encodings of these characters, with a maximal invalid part for each `none`. -/
inductive Divided : List UInt8 → List (Option Char) → Prop
  | nil : Divided [] []
  | char (c : Char) {rest : List UInt8} {parts : List (Option Char)} (h : Divided rest parts) :
      Divided (String.utf8EncodeChar c ++ rest) (some c :: parts)
  | invalid {part rest : List UInt8} {parts : List (Option Char)} (hpart : IsInvalid part rest)
      (h : Divided rest parts) : Divided (part ++ rest) (none :: parts)

/-! ## One division -/

theorem IsInvalid.length_le {part rest other later : List UInt8} (h : IsInvalid part rest)
    (hother : IsInvalid other later) (hsame : part ++ rest = other ++ later) :
    other.length ≤ part.length := by
  rcases hother.kind with hfront | hsingle
  · apply h.longest other _ hfront
    rw [hsame]
    exact List.prefix_append other later
  · rw [hsingle]
    exact List.length_pos_iff.mpr h.ne_nil

theorem IsInvalid.unique {part rest other later : List UInt8} (h : IsInvalid part rest)
    (hother : IsInvalid other later) (hsame : part ++ rest = other ++ later) :
    part = other ∧ rest = later := by
  apply List.append_inj hsame
  exact Nat.le_antisymm (hother.length_le h hsame.symm) (h.length_le hother hsame)

theorem Divided.unique {bytes : List UInt8} {parts others : List (Option Char)}
    (h : Divided bytes parts) (hothers : Divided bytes others) : parts = others := by
  induction h generalizing others with
  | nil =>
    generalize hbytes : [] = bytes at hothers
    cases hothers with
    | nil => rfl
    | char c _ =>
      exact absurd (List.append_eq_nil_iff.mp hbytes.symm).1 String.utf8EncodeChar_ne_nil
    | invalid hpart _ => exact absurd (List.append_eq_nil_iff.mp hbytes.symm).1 hpart.ne_nil
  | @char c rest parts _ ih =>
    generalize hbytes : String.utf8EncodeChar c ++ rest = bytes at hothers
    cases hothers with
    | nil => exact absurd (List.append_eq_nil_iff.mp hbytes).1 String.utf8EncodeChar_ne_nil
    | char d hrest =>
      obtain ⟨rfl, rfl⟩ := encodeChar_append_inj hbytes
      rw [ih hrest]
    | invalid hpart _ => exact absurd ⟨rest, hbytes⟩ (hpart.unreadable c)
  | @invalid part rest parts hpart _ ih =>
    generalize hbytes : part ++ rest = bytes at hothers
    cases hothers with
    | nil => exact absurd (List.append_eq_nil_iff.mp hbytes).1 hpart.ne_nil
    | @char d later _ _ => exact absurd ⟨later, hbytes.symm⟩ (hpart.unreadable d)
    | invalid hother hrest =>
      obtain ⟨rfl, rfl⟩ := hpart.unique hother hbytes
      rw [ih hrest]

/-! ## Invalid parts -/

theorem eq_of_encodeChar_prefix {c d : Char}
    (h : String.utf8EncodeChar c <+: String.utf8EncodeChar d) : c = d := by
  obtain ⟨rest, hrest⟩ := h
  rw [← List.append_nil (String.utf8EncodeChar d)] at hrest
  exact (encodeChar_append_inj hrest).1

/-- A front that could go on but does not is invalid. -/
theorem IsInvalid.of_front {part rest : List UInt8} {byte : UInt8} (hne : part ≠ [])
    (hfront : IsFront (part ++ [byte])) (hstop : ∀ next ∈ rest.head?, ¬ IsFront (part ++ [next])) :
    IsInvalid part rest := by
  obtain ⟨c, hc⟩ := hfront
  have hpart : part <+: String.utf8EncodeChar c := (List.prefix_append part [byte]).trans hc
  have hlongest : ∀ front, front <+: part ++ rest → IsFront front → front.length ≤ part.length := by
    intro front hprefix hfront
    apply Nat.le_of_not_lt
    intro hlong
    obtain ⟨more, rfl⟩ := List.prefix_of_prefix_length_le (List.prefix_append part rest) hprefix
      (Nat.le_of_lt hlong)
    cases more with
    | nil => simp at hlong
    | cons next later =>
      obtain ⟨behind, rfl⟩ := (List.prefix_append_right_inj part).mp hprefix
      obtain ⟨d, hd⟩ := hfront
      exact hstop next rfl ⟨d, .trans ⟨later, by simp⟩ hd⟩
  refine ⟨hne, ?_, .inl ⟨c, hpart⟩, hlongest⟩
  -- a character that ended within the part would be the front of another one
  intro d hd
  have hwithin := List.prefix_of_prefix_length_le hd (List.prefix_append part rest)
    (hlongest _ hd ⟨d, List.prefix_refl _⟩)
  obtain rfl := eq_of_encodeChar_prefix (hwithin.trans hpart)
  have hle := hwithin.length_le
  have hlt := hc.length_le
  rw [List.length_append, List.length_singleton] at hlt
  omega

/-- A byte that begins no character is invalid by itself. -/
theorem IsInvalid.of_single {first : UInt8} (h : ∀ c tail, String.utf8EncodeChar c ≠ first :: tail)
    (rest : List UInt8) : IsInvalid [first] rest := by
  have hnil : ∀ front, front <+: [first] ++ rest → IsFront front → front = [] := by
    rintro front hprefix ⟨c, more, hc⟩
    cases front with
    | nil => rfl
    | cons byte front =>
      obtain ⟨rfl, -⟩ := List.cons_prefix_cons.mp hprefix
      exact absurd hc.symm (h c _)
  refine ⟨List.cons_ne_nil _ _, ?_, .inr rfl, ?_⟩
  · intro c hc
    exact String.utf8EncodeChar_ne_nil (hnil _ hc ⟨c, List.prefix_refl _⟩)
  · intro front hprefix hfront
    rw [hnil front hprefix hfront]
    exact Nat.zero_le _

/-! ## What the decoder finds -/

theorem exists_lead_of_encodeChar {c : Char} {first : UInt8} {tail : List UInt8}
    (hc : String.utf8EncodeChar c = first :: tail) (hascii : ¬ first < 0x80) :
    ∃ opened, lead? first = some opened := by
  apply Option.ne_none_iff_exists'.mp
  intro hnone
  have hdecode := decode_encodeChar c []
  rw [List.append_nil, hc] at hdecode
  simp [decode, decodeFrom, step, fresh, hascii, hnone] at hdecode

section Lead

variable {first : UInt8} {opened : Opening} (h : lead? first = some opened) {front : List UInt8}

include h

theorem goesOn_iff_isFront {byte : UInt8} :
    opened.GoesOn front byte ↔ IsFront (first :: front ++ [byte]) := by
  constructor
  · rintro ⟨more, hmore⟩
    obtain ⟨c, hc⟩ := (exists_finishes_iff h).mp hmore
    exact ⟨c, more, by simp [hc]⟩
  · rintro ⟨c, more, hc⟩
    exact ⟨more, (exists_finishes_iff h).mpr ⟨c, by simp [← hc]⟩⟩

theorem isInvalid_of_breaks {rest : List UInt8} (hbreaks : opened.Breaks front rest) :
    IsInvalid (first :: front) rest := by
  obtain ⟨byte, hbyte⟩ := hbreaks.unfinished
  apply IsInvalid.of_front (List.cons_ne_nil _ _) ((goesOn_iff_isFront h).mp hbyte)
  intro next hnext hfront
  exact hbreaks.stopped next hnext ((goesOn_iff_isFront h).mpr hfront)

end Lead

theorem divided_decode (bytes : List UInt8) : Divided bytes (decode bytes) := by
  induction hlength : bytes.length using Nat.strongRecOn generalizing bytes with
  | ind length ih =>
    have hrest : ∀ rest : List UInt8, rest.length < bytes.length → Divided rest (decode rest) := by
      intro rest hlt
      exact ih rest.length (hlength ▸ hlt) rest rfl
    cases bytes with
    | nil => exact .nil
    | cons first bytes =>
      by_cases hascii : first < 0x80
      · rw [decode, decodeFrom_ascii hascii (by simp)]
        have hchar := Divided.char (Char.ofNat first.toNat) (hrest bytes (by simp))
        rwa [encodeChar_ascii hascii] at hchar
      cases hlead : lead? first with
      | none =>
        have hdecode : decode (first :: bytes) = none :: decode bytes := by
          simp [decode, decodeFrom, step, fresh, hascii, hlead]
        have hpart : IsInvalid [first] bytes := by
          apply IsInvalid.of_single
          intro c tail hc
          obtain ⟨opened, hopened⟩ := exists_lead_of_encodeChar hc hascii
          rw [hlead] at hopened
          cases hopened
        rw [hdecode]
        exact .invalid hpart (hrest bytes (by simp))
      | some opened =>
        have hbehind : ∀ taken rest : List UInt8, bytes = taken ++ rest → Divided rest (decode rest) := by
          rintro taken rest rfl
          apply hrest
          rw [List.length_cons, List.length_append]
          omega
        rw [decode_cons_of_lead hlead]
        rcases decodeFrom_open (low_le_high_of_lead hlead) bytes with
          ⟨tail, n, rest, hbytes, hfinishes, hdecode⟩ | ⟨front, rest, hbytes, hbreaks, hdecode⟩
        · rw [hdecode, hbytes]
          have hchar := Divided.char (Char.ofNat n) (hbehind tail rest hbytes)
          rwa [(announces_of_lead hlead).encodeChar_eq hfinishes] at hchar
        · rw [hdecode, hbytes]
          exact .invalid (isInvalid_of_breaks hlead hbreaks) (hbehind front rest hbytes)

/-- **The decoder finds the one division into characters and maximal invalid parts.** -/
theorem decode_eq_iff {bytes : List UInt8} {parts : List (Option Char)} :
    decode bytes = parts ↔ Divided bytes parts := by
  constructor
  · rintro rfl
    exact divided_decode bytes
  · intro h
    exact (divided_decode bytes).unique h

end SourceMetrics.Utf8
