import SourceMetrics.Text.Utf8

/-! # Encoding and decoding in parts

A text is encoded character by character. A byte below 0x80 is a character of its own wherever it
stands: it continues no sequence, and one that is open in front of it ends there. So bytes can be
decoded in parts, cut at such a byte.

* `decodeLossy_append`: bytes are decoded in parts.
* `decode_encodeChar`: the bytes of a character are read as that character. The cases are those of
  the encoding; what may follow a first byte is read off it by `lead?_ofNat`.
* `decode?_encode`: a text is read back. -/

namespace SourceMetrics.Utf8

set_option autoImplicit false

theorem encode_append (text later : List Char) :
    encode (text ++ later) = encode text ++ encode later :=
  List.flatMap_append

/-- No byte below 0x80 continues the sequence. -/
def Opening.IsClosedToAscii (opened : Opening) : Prop :=
  0x80 ≤ opened.low

theorem isClosedToAscii_of_lead {byte : UInt8} {opened : Opening} (h : lead? byte = some opened) :
    opened.IsClosedToAscii := by
  unfold lead? at h
  unfold Opening.IsClosedToAscii
  grind

theorem isClosedToAscii_of_fresh {byte : UInt8} {opened : Opening}
    (h : (fresh byte).2 = some opened) : opened.IsClosedToAscii := by
  unfold fresh at h
  split at h
  · cases h
  · split at h
    · rename_i hlead
      obtain rfl := Option.some.inj h
      exact isClosedToAscii_of_lead hlead
    · cases h

theorem isClosedToAscii_of_step {opened : Option Opening} {byte : UInt8} {next : Opening}
    (h : (step opened byte).2 = some next) : next.IsClosedToAscii := by
  unfold step at h
  split at h
  · exact isClosedToAscii_of_fresh h
  · split at h
    · split at h
      · cases h
      · obtain rfl := Option.some.inj h
        exact UInt8.le_refl _
    · exact isClosedToAscii_of_fresh h

theorem fresh_ascii {byte : UInt8} (hbyte : byte < 0x80) :
    fresh byte = ([some (Char.ofNat byte.toNat)], none) :=
  if_pos hbyte

theorem decodeFrom_ascii {byte : UInt8} (hbyte : byte < 0x80) {opened : Option Opening}
    (hopened : ∀ o, opened = some o → o.IsClosedToAscii) (rest : List UInt8) :
    decodeFrom opened (byte :: rest) =
      decodeFrom opened [] ++ some (Char.ofNat byte.toNat) :: decode rest := by
  cases opened with
  | none =>
    simp [decodeFrom, step, fresh_ascii hbyte, decode]
  | some o =>
    -- the byte lies below every range, so what is open ends as invalid
    have hlow : ¬ o.low ≤ byte := by
      have h := hopened o rfl
      unfold Opening.IsClosedToAscii at h
      intro hle
      exact absurd hbyte (UInt8.not_lt.mpr (UInt8.le_trans h hle))
    simp [decodeFrom, step, fresh_ascii hbyte, decode, hlow]

theorem decodeFrom_append {byte : UInt8} (hbyte : byte < 0x80) {opened : Option Opening}
    (hopened : ∀ o, opened = some o → o.IsClosedToAscii) (bytes rest : List UInt8) :
    decodeFrom opened (bytes ++ byte :: rest) =
      decodeFrom opened bytes ++ some (Char.ofNat byte.toNat) :: decode rest := by
  induction bytes generalizing opened with
  | nil => exact decodeFrom_ascii hbyte hopened rest
  | cons first bytes ih =>
    have hnext : ∀ o, (step opened first).2 = some o → o.IsClosedToAscii :=
      fun o h => isClosedToAscii_of_step h
    simp only [List.cons_append, decodeFrom, ih hnext, List.append_assoc]

/-- Bytes are decoded in parts, cut at a byte that is a character of its own. -/
theorem decodeLossy_append {byte : UInt8} (hbyte : byte < 0x80) (bytes rest : List UInt8) :
    decodeLossy (bytes ++ byte :: rest) =
      decodeLossy bytes ++ Char.ofNat byte.toNat :: decodeLossy rest := by
  rw [decodeLossy, decode, decodeFrom_append hbyte (by simp)]
  simp [decodeLossy, decode]

/-! ## Texts that are read back -/

theorem toNat_ofNat {code : Nat} (h : code < 0xD800 ∨ 0xDFFF < code ∧ code < 0x110000) :
    (Char.ofNat code).toNat = code := by
  have hvalid : code.isValidChar := h
  rw [Char.ofNat, dif_pos hvalid]
  rfl

theorem lead?_ofNat {n : Nat} (h : n < 256) : lead? (UInt8.ofNat n) =
    if 0xC2 ≤ n ∧ n ≤ 0xDF then some ⟨n - 0xC0, 0, 0x80, 0xBF⟩
    else if n = 0xE0 then some ⟨0, 1, 0xA0, 0xBF⟩
    else if n = 0xED then some ⟨0xD, 1, 0x80, 0x9F⟩
    else if 0xE1 ≤ n ∧ n ≤ 0xEF then some ⟨n - 0xE0, 1, 0x80, 0xBF⟩
    else if n = 0xF0 then some ⟨0, 2, 0x90, 0xBF⟩
    else if n = 0xF4 then some ⟨4, 2, 0x80, 0x8F⟩
    else if 0xF1 ≤ n ∧ n ≤ 0xF3 then some ⟨n - 0xF0, 2, 0x80, 0xBF⟩
    else none := by
  have hn : (UInt8.ofNat n).toNat = n := UInt8.toNat_ofNat_of_lt' h
  simp only [lead?, Bool.and_eq_true, decide_eq_true_eq, beq_iff_eq, UInt8.le_iff_toNat_le,
    ← UInt8.toNat_inj, hn]
  rfl

theorem decode_lead {n : Nat} (hlow : 0x80 ≤ n) (hhigh : n < 256) {opened : Opening}
    (h : lead? (UInt8.ofNat n) = some opened) (rest : List UInt8) :
    decode (UInt8.ofNat n :: rest) = decodeFrom (some opened) rest := by
  have hbyte : ¬ UInt8.ofNat n < 0x80 := by
    rw [UInt8.lt_iff_toNat_lt, UInt8.toNat_ofNat_of_lt' hhigh]
    exact Nat.not_lt.mpr hlow
  simp only [decode, decodeFrom, step, fresh, if_neg hbyte, h, List.nil_append]

theorem decodeFrom_within {value remaining n : Nat} {low high : UInt8} (hlow : low.toNat ≤ n + 128)
    (hhigh : n + 128 ≤ high.toNat) (rest : List UInt8) :
    decodeFrom (some ⟨value, remaining, low, high⟩) (UInt8.ofNat (n + 128) :: rest) =
      match remaining with
      | 0 => some (Char.ofNat (value * 64 + n)) :: decode rest
      | more + 1 => decodeFrom (some ⟨value * 64 + n, more, 0x80, 0xBF⟩) rest := by
  have hbyte : (UInt8.ofNat (n + 128)).toNat = n + 128 :=
    UInt8.toNat_ofNat_of_lt' (Nat.lt_of_le_of_lt hhigh high.toNat_lt)
  have hin : (low ≤ UInt8.ofNat (n + 128) && UInt8.ofNat (n + 128) ≤ high) = true := by
    simp only [Bool.and_eq_true, decide_eq_true_eq, UInt8.le_iff_toNat_le, hbyte]
    exact ⟨hlow, hhigh⟩
  cases remaining <;>
    simp only [decodeFrom, step, hin, if_true, hbyte, Nat.add_sub_cancel, decode, List.nil_append,
      List.cons_append]

theorem decodeFrom_tail {value remaining n : Nat} (h : n < 64) (rest : List UInt8) :
    decodeFrom (some ⟨value, remaining, 0x80, 0xBF⟩) (UInt8.ofNat (n + 128) :: rest) =
      match remaining with
      | 0 => some (Char.ofNat (value * 64 + n)) :: decode rest
      | more + 1 => decodeFrom (some ⟨value * 64 + n, more, 0x80, 0xBF⟩) rest :=
  decodeFrom_within (Nat.le_add_left 128 n) (Nat.add_le_add_right (Nat.le_of_lt_succ h) 128) rest

theorem exists_lead_three {v : Nat} (hlow : 0x800 ≤ v) (hhigh : v < 0x10000)
    (hvalid : v < 0xD800 ∨ 0xDFFF < v) : ∃ low high : UInt8,
      lead? (UInt8.ofNat (v / 4096 % 16 + 224)) = some ⟨v / 4096, 1, low, high⟩ ∧
        low.toNat ≤ v / 64 % 64 + 128 ∧ v / 64 % 64 + 128 ≤ high.toNat := by
  rw [lead?_ofNat (by omega), if_neg (by omega)]
  by_cases hzero : v / 4096 = 0
  · rw [if_pos (by omega), hzero]
    exact ⟨0xA0, 0xBF, rfl, show 160 ≤ _ by omega, show _ ≤ 191 by omega⟩
  by_cases hsurrogates : v / 4096 = 13
  · rw [if_neg (by omega), if_pos (by omega), hsurrogates]
    exact ⟨0x80, 0x9F, rfl, show 128 ≤ _ by omega, show _ ≤ 159 by omega⟩
  · rw [if_neg (by omega), if_neg (by omega), if_pos (by omega),
      (by omega : v / 4096 % 16 + 224 - 0xE0 = v / 4096)]
    exact ⟨0x80, 0xBF, rfl, show 128 ≤ _ by omega, show _ ≤ 191 by omega⟩

theorem exists_lead_four {v : Nat} (hlow : 0x10000 ≤ v) (hhigh : v < 0x110000) :
    ∃ low high : UInt8,
      lead? (UInt8.ofNat (v / 262144 % 8 + 240)) = some ⟨v / 262144, 2, low, high⟩ ∧
        low.toNat ≤ v / 4096 % 64 + 128 ∧ v / 4096 % 64 + 128 ≤ high.toNat := by
  rw [lead?_ofNat (by omega), if_neg (by omega), if_neg (by omega), if_neg (by omega),
    if_neg (by omega)]
  by_cases hzero : v / 262144 = 0
  · rw [if_pos (by omega), hzero]
    exact ⟨0x90, 0xBF, rfl, show 144 ≤ _ by omega, show _ ≤ 191 by omega⟩
  by_cases hlast : v / 262144 = 4
  · rw [if_neg (by omega), if_pos (by omega), hlast]
    exact ⟨0x80, 0x8F, rfl, show 128 ≤ _ by omega, show _ ≤ 143 by omega⟩
  · rw [if_neg (by omega), if_neg (by omega), if_pos (by omega),
      (by omega : v / 262144 % 8 + 240 - 0xF0 = v / 262144)]
    exact ⟨0x80, 0xBF, rfl, show 128 ≤ _ by omega, show _ ≤ 191 by omega⟩

/-- A character is read back. -/
theorem decode_encodeChar (c : Char) (rest : List UInt8) :
    decode (String.utf8EncodeChar c ++ rest) = some c :: decode rest := by
  have hchar : Char.ofNat c.val.toNat = c := Char.ofNat_toNat c
  have hvalid : c.val.toNat < 0xD800 ∨ 0xDFFF < c.val.toNat ∧ c.val.toNat < 0x110000 := c.valid
  unfold String.utf8EncodeChar
  generalize c.val.toNat = v at hchar hvalid
  dsimp only
  split
  · rename_i hv
    have hbyte : UInt8.ofNat v < 0x80 := by
      rw [UInt8.lt_iff_toNat_lt, UInt8.toNat_ofNat_of_lt' (by omega : v < 256)]
      exact Nat.lt_succ_of_le hv
    rw [List.singleton_append, decode, decodeFrom_ascii hbyte (by simp),
      UInt8.toNat_ofNat_of_lt' (by omega : v < 256), hchar]
    rfl
  split
  · rename_i h1 h2
    have hlead := lead?_ofNat (by omega : v / 64 % 32 + 192 < 256)
    rw [if_pos (by omega)] at hlead
    simp only [List.cons_append, List.nil_append]
    rw [decode_lead (by omega) (by omega) hlead, decodeFrom_tail (by omega)]
    have hv : (v / 64 % 32 + 192 - 192) * 64 + v % 64 = v := by omega
    simp only [hv, hchar]
  split
  · obtain ⟨low, high, hlead, hfirst, hlast⟩ :=
      exists_lead_three (by omega : 0x800 ≤ v) (by omega) (by omega)
    simp only [List.cons_append, List.nil_append]
    rw [decode_lead (by omega) (by omega) hlead, decodeFrom_within hfirst hlast]
    dsimp only
    rw [decodeFrom_tail (by omega)]
    have hv : (v / 4096 * 64 + v / 64 % 64) * 64 + v % 64 = v := by omega
    simp only [hv, hchar]
  · obtain ⟨low, high, hlead, hfirst, hlast⟩ :=
      exists_lead_four (by omega : 0x10000 ≤ v) (by omega)
    simp only [List.cons_append, List.nil_append]
    rw [decode_lead (by omega) (by omega) hlead, decodeFrom_within hfirst hlast]
    dsimp only
    rw [decodeFrom_tail (by omega)]
    dsimp only
    rw [decodeFrom_tail (by omega)]
    have hv : ((v / 262144 * 64 + v / 4096 % 64) * 64 + v / 64 % 64) * 64 + v % 64 = v := by omega
    simp only [hv, hchar]

theorem decode_encode (text : List Char) : decode (encode text) = text.map some := by
  induction text with
  | nil => rfl
  | cons c text ih =>
    show decode (String.utf8EncodeChar c ++ encode text) = _
    rw [decode_encodeChar, ih, List.map_cons]

/-- A text is read back. -/
theorem decode?_encode (text : List Char) : decode? (encode text) = some text := by
  rw [decode?, decode_encode]
  induction text with
  | nil => rfl
  | cons c text ih =>
    simp [List.mapM_cons, ih]

end SourceMetrics.Utf8
