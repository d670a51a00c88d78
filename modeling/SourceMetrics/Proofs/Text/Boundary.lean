import SourceMetrics.Proofs.Text.Utf8

/-! # Characters in encoded texts

The bytes of a character show where it starts and where it ends. So what stands in the bytes of a
text and starts like a character stands in the text itself.

* `encodeChar_append_inj`: bytes start with those of one character at most.
* `exists_of_encode_eq`: a byte that starts a character parts the text, and not only its bytes.
* `encode_prefix_encode`, `encode_infix_encode`: texts may be searched by their bytes. -/

namespace SourceMetrics.Utf8

set_option autoImplicit false

/-! ## One character -/

theorem encodeChar_append_inj {c d : Char} {rest later : List UInt8}
    (h : String.utf8EncodeChar c ++ rest = String.utf8EncodeChar d ++ later) :
    c = d ∧ rest = later := by
  have hbytes := congrArg List.toByteArray h
  rw [List.toByteArray_append, List.toByteArray_append] at hbytes
  have hc := @ByteArray.utf8DecodeChar?_utf8EncodeChar_append rest.toByteArray c
  rw [hbytes, ByteArray.utf8DecodeChar?_utf8EncodeChar_append, Option.some.injEq] at hc
  subst hc
  exact ⟨rfl, List.append_cancel_left h⟩

theorem eq_nil_of_encodeChar_eq {c : Char} {front rest : List UInt8} {byte : UInt8}
    (h : String.utf8EncodeChar c = front ++ byte :: rest) (hbyte : byte.IsUTF8FirstByte) :
    front = [] := by
  have hlt : front.length < (String.utf8EncodeChar c).length := by
    rw [h]
    simp
  have hget : (String.utf8EncodeChar c)[front.length] = byte := by
    simp [h]
  apply List.eq_nil_of_length_eq_zero
  rw [← hget] at hbyte
  exact UInt8.isUTF8FirstByte_getElem_utf8EncodeChar.mp hbyte

theorem exists_encode_eq_cons {text : List Char} (h : text ≠ []) :
    ∃ byte rest, encode text = byte :: rest ∧ byte.IsUTF8FirstByte := by
  obtain ⟨c, text, rfl⟩ := List.exists_cons_of_ne_nil h
  have hfirst := @UInt8.isUTF8FirstByte_getElem_zero_utf8EncodeChar c
  cases hc : String.utf8EncodeChar c with
  | nil => exact absurd hc String.utf8EncodeChar_ne_nil
  | cons byte rest =>
    simp only [hc, List.getElem_cons_zero] at hfirst
    refine ⟨byte, rest ++ encode text, ?_, hfirst⟩
    rw [encode, List.flatMap_cons, hc]
    rfl

/-! ## Texts -/

theorem encode_cons (c : Char) (text : List Char) :
    encode (c :: text) = String.utf8EncodeChar c ++ encode text :=
  List.flatMap_cons

theorem exists_of_encode_eq {text : List Char} {front rest : List UInt8} {byte : UInt8}
    (h : encode text = front ++ byte :: rest) (hbyte : byte.IsUTF8FirstByte) :
    ∃ before behind, text = before ++ behind ∧ encode before = front ∧
      encode behind = byte :: rest := by
  induction text generalizing front with
  | nil => simp [encode] at h
  | cons c text ih =>
    have hwhole := h
    rw [encode_cons, List.append_eq_append_iff] at h
    rcases h with ⟨later, rfl, htext⟩ | ⟨middle, hc, hrest⟩
    · obtain ⟨before, behind, rfl, rfl, hbehind⟩ := ih htext
      exact ⟨c :: before, behind, rfl, encode_cons c before, hbehind⟩
    · cases middle with
      | nil =>
        rw [List.append_nil] at hc
        exact ⟨[c], text, rfl, by rw [encode_cons, hc]; simp [encode], hrest.symm⟩
      | cons first middle =>
        -- the byte is one of the bytes of the character, so it is the first of them
        obtain ⟨rfl, -⟩ := List.cons.inj hrest
        obtain rfl := eq_nil_of_encodeChar_eq hc hbyte
        exact ⟨[], c :: text, rfl, rfl, hwhole⟩

theorem encode_prefix_encode {text path : List Char} :
    encode text <+: encode path ↔ text <+: path := by
  constructor
  · intro h
    induction text generalizing path with
    | nil => exact List.nil_prefix
    | cons c text ih =>
      obtain ⟨rest, hrest⟩ := h
      rw [encode_cons, List.append_assoc] at hrest
      cases path with
      | nil =>
        have hnil := (List.append_eq_nil_iff.mp hrest).1
        exact absurd hnil String.utf8EncodeChar_ne_nil
      | cons d path =>
        rw [encode_cons] at hrest
        obtain ⟨rfl, hpath⟩ := encodeChar_append_inj hrest
        exact (List.prefix_cons_inj c).mpr (ih ⟨rest, hpath⟩)
  · rintro ⟨rest, rfl⟩
    rw [encode_append]
    exact List.prefix_append _ _

theorem encode_infix_encode {text path : List Char} :
    encode text <:+: encode path ↔ text <:+: path := by
  constructor
  · intro h
    by_cases hempty : text = []
    · rw [hempty]
      exact List.nil_infix
    · obtain ⟨byte, later, hfirst, hbyte⟩ := exists_encode_eq_cons hempty
      obtain ⟨front, rest, hpath⟩ := h
      rw [List.append_assoc, hfirst, List.cons_append] at hpath
      obtain ⟨before, behind, rfl, -, hbehind⟩ := exists_of_encode_eq hpath.symm hbyte
      have hfront : encode text <+: encode behind := ⟨rest, by rw [hfirst, hbehind]; rfl⟩
      exact (encode_prefix_encode.mp hfront).isInfix.trans (List.suffix_append _ _).isInfix
  · rintro ⟨front, rest, rfl⟩
    rw [encode_append, encode_append]
    exact List.infix_append _ _ _

end SourceMetrics.Utf8
