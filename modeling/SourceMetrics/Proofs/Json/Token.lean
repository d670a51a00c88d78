import SourceMetrics.Json.Printer
import SourceMetrics.Proofs.Json.Numeral

/-! # Tokens of printed texts

* `Reads`: a text is read as a row of tokens, told without a bound on the steps.
* `SpellsCode`, `Denotes`: how the codes in a string may be spelt, and which characters they are the
  codes of. `codes?_closed` and `chars?_of_denotes`: a string is read from any of its spellings.
* `Reads.string`, `Reads.numeral`, `Reads.word`, `Reads.mark`: what each kind of token is read
  from. -/

namespace SourceMetrics.Json.Token

set_option autoImplicit false

open Numeral Text

/-! ## Rows of tokens -/

/-- A text is read as a row of tokens: between the tokens there are spaces only. -/
inductive Reads : List Char → List Token → Prop
  | nil : Reads [] []
  | space {c : Char} {text : List Char} {tokens : List Token} :
      isSpace c = true → Reads text tokens → Reads (c :: text) tokens
  | token {text rest : List Char} {token : Token} {tokens : List Token} :
      Stops isSpace text → next? text = some (token, rest) → rest.length < text.length →
      Reads rest tokens → Reads text (token :: tokens)

variable {text rest : List Char} {tokens : List Token}

/-- As many steps as the text has characters are enough. -/
theorem Reads.readFrom?_eq (h : Reads text tokens) {fuel : Nat} (hfuel : text.length ≤ fuel) :
    readFrom? fuel text = some tokens := by
  induction h generalizing fuel with
  | nil => rw [readFrom?]
  | space hc _ ih =>
    obtain _ | fuel := fuel
    · simp at hfuel
    · rw [readFrom?, if_pos hc]
      exact ih (by simpa using hfuel)
  | @token text _ _ _ hstops hnext hless _ ih =>
    obtain _ | ⟨c, text⟩ := text
    · simp at hless
    · obtain _ | fuel := fuel
      · simp at hfuel
      · have hc : ¬ isSpace c = true := by simp [stops_cons.mp hstops]
        have hrest := @ih fuel (by simp at hfuel hless; omega)
        rw [readFrom?, if_neg hc, hnext]
        simp [hrest]

theorem Reads.read?_eq (h : Reads text tokens) : read? text = some tokens :=
  h.readFrom?_eq (Nat.le_refl _)

theorem Reads.spaces {blank : List Char} (hblank : ∀ c ∈ blank, isSpace c = true)
    (h : Reads rest tokens) : Reads (blank ++ rest) tokens := by
  induction blank with
  | nil => exact h
  | cons c blank ih =>
    obtain ⟨hc, hblank⟩ := List.forall_mem_cons.mp hblank
    exact .space hc (ih hblank)

theorem Reads.newLine (depth : Nat) (h : Reads rest tokens) :
    Reads (Json.newLine depth ++ rest) tokens := by
  refine h.spaces fun c hc => ?_
  obtain rfl | hc := List.mem_cons.mp hc
  · rfl
  · rw [List.eq_of_mem_replicate hc]
    rfl

/-- A mark of one character. -/
theorem Reads.mark {c : Char} {token : Token} (hc : isSpace c = false)
    (hnext : next? (c :: rest) = some (token, rest)) (h : Reads rest tokens) :
    Reads (c :: rest) (token :: tokens) :=
  .token (stops_cons.mpr hc) hnext (by simp) h

theorem Reads.word (word : String) {value : Json} {c : Char} {behind : List Char}
    (hword : word.toList = c :: behind) (hc : isSpace c = false)
    (hnext : next? (c :: behind ++ rest) = word? word value (c :: behind ++ rest))
    (h : Reads rest tokens) : Reads (word.toList ++ rest) (.scalar value :: tokens) := by
  have hfront : word.toList.isPrefixOf (c :: behind ++ rest) = true := by
    rw [hword, List.isPrefixOf_iff_prefix]
    exact List.prefix_append _ _
  have hdrop : (c :: behind ++ rest).drop word.length = rest := by
    rw [← String.length_toList, hword, List.drop_left]
  rw [word?, if_pos hfront, hdrop] at hnext
  rw [hword]
  have hless : rest.length < (c :: behind ++ rest).length := by
    rw [List.length_append, List.length_cons]
    omega
  exact .token (stops_cons.mpr hc) hnext hless h

/-! ## Numerals -/

theorem next?_numeral {c : Char} (hc : c.isDigit = true ∨ c = '-') :
    next? (c :: rest) =
      (numeral? (c :: rest)).map fun found => (.scalar (.number found.1), found.2) := by
  rw [next?]
  all_goals
    intro behind hsame
    obtain rfl := (List.cons.inj hsame).1
    exact absurd hc (by decide)

theorem not_isSpace {c : Char} (hc : c.isDigit = true ∨ c = '-') : isSpace c = false := by
  rw [Bool.eq_false_iff]
  intro hspace
  simp only [isSpace, Bool.or_eq_true, beq_iff_eq] at hspace
  obtain ((rfl | rfl) | rfl) | rfl := hspace <;> exact absurd hc (by decide)

theorem exists_frontText_eq_cons {n : Numeral} (hn : n.WellSpelt) :
    ∃ c behind, n.frontText = c :: behind ∧ (c.isDigit = true ∨ c = '-') := by
  obtain ⟨d, whole, hwhole⟩ := List.exists_cons_of_ne_nil hn.ne_nil
  have hd : d.isDigit = true := hn.isDigit_whole d (by rw [hwhole]; exact List.mem_cons_self)
  cases hnegative : n.negative with
  | true => exact ⟨'-', _, by rw [frontText, hnegative]; rfl, .inr rfl⟩
  | false => exact ⟨d, _, by rw [frontText, hnegative, hwhole]; rfl, .inl hd⟩

theorem Reads.numeral {n : Numeral} (hn : n.WellSpelt) {spelled : List Char}
    (hspelled : SpellsExponent n.exponent spelled) (hrest : Stops continues rest)
    (h : Reads rest tokens) :
    Reads (n.frontText ++ spelled ++ rest) (.scalar (.number n) :: tokens) := by
  have hread := numeral?_append hn hspelled hrest
  obtain ⟨c, behind, htext, hc⟩ := exists_frontText_eq_cons hn
  rw [htext, List.cons_append, List.cons_append] at hread ⊢
  have hless : rest.length < (c :: (behind ++ spelled ++ rest)).length := by
    rw [List.length_cons, List.length_append]
    omega
  refine .token (stops_cons.mpr (not_isSpace hc)) ?_ hless h
  rw [next?_numeral hc, hread]
  rfl

/-! ## Strings -/

/-- The letters that stand for a character behind a backslash, each with its character. -/
def escapes : List (Char × Char) :=
  [('"', '"'), ('\\', '\\'), ('/', '/'), ('b', '\x08'), ('f', '\x0C'), ('n', '\n'), ('r', '\r'),
    ('t', '\t')]

/-- A hexadecimal digit, of either case, with its value. -/
def IsHex (c : Char) (value : Nat) : Prop :=
  (c, value) ∈ "0123456789abcdef".toList.zipIdx ∨ (c, value) ∈ "0123456789ABCDEF".toList.zipIdx

/-- How a code may be spelt inside a string: a character by itself, by its letter behind a
backslash, and any code of 16 bits by four hexadecimal digits. -/
inductive SpellsCode : Nat → List Char → Prop
  | plain {c : Char} : c ≠ '"' → c ≠ '\\' → 0x20 ≤ c.toNat → SpellsCode c.toNat [c]
  | escaped {letter c : Char} : (letter, c) ∈ escapes → SpellsCode c.toNat ['\\', letter]
  | unicode {a b c d : Char} {first second third fourth : Nat} : IsHex a first → IsHex b second →
      IsHex c third → IsHex d fourth →
      SpellsCode (((first * 16 + second) * 16 + third) * 16 + fourth) ['\\', 'u', a, b, c, d]

/-- How codes may be spelt inside a string, one after the other. -/
inductive SpellsCodes : List Nat → List Char → Prop
  | nil : SpellsCodes [] []
  | cons {code : Nat} {codes : List Nat} {spelled text : List Char} : SpellsCode code spelled →
      SpellsCodes codes text → SpellsCodes (code :: codes) (spelled ++ text)

theorem hexValue?_of_isHex {c : Char} {value : Nat} (h : IsHex c value) :
    hexValue? c = some value ∧ value < 16 := by
  have hall : ∀ entry ∈ "0123456789abcdef".toList.zipIdx ++ "0123456789ABCDEF".toList.zipIdx,
      hexValue? entry.1 = some entry.2 ∧ entry.2 < 16 := by decide +kernel
  exact hall (c, value) (List.mem_append.mpr h)

theorem isHex_hexDigit {n : Nat} (hn : n < 16) : IsHex (hexDigit n) n := by
  have hall : ∀ n < 16, (hexDigit n, n) ∈ "0123456789abcdef".toList.zipIdx := by decide +kernel
  exact .inl (hall n hn)

theorem codes?_plain {c : Char} (hquote : c ≠ '"') (hslash : c ≠ '\\') (hc : 0x20 ≤ c.toNat) :
    codes? (c :: rest) = (codes? rest).map fun found => (c.toNat :: found.1, found.2) := by
  rw [codes?, if_neg (by omega), Option.map_eq_bind]
  · rfl
  · exact fun h => hquote h
  · intro a b x y later h _
    exact hslash h
  · intro d later h _
    exact hslash h

theorem codes?_escaped {c : Char} {code : Nat} (h : escapedCode? c = some code) :
    codes? ('\\' :: c :: rest) =
      (codes? rest).map fun found => (code :: found.1, found.2) := by
  rw [codes?, h, Option.map_eq_bind]
  · rfl
  · rintro a b x y later rfl
    cases h

/-- A code is read from each of its spellings. -/
theorem codes?_append {code : Nat} {spelled : List Char} (h : SpellsCode code spelled)
    (rest : List Char) :
    codes? (spelled ++ rest) = (codes? rest).map fun found => (code :: found.1, found.2) := by
  cases h with
  | plain hquote hslash hc => exact codes?_plain hquote hslash hc
  | @escaped letter c hmem =>
    have hall : ∀ entry ∈ escapes, escapedCode? entry.1 = some entry.2.toNat := by decide +kernel
    exact codes?_escaped (hall (letter, c) hmem)
  | @unicode a b c d first second third fourth ha hb hc hd =>
    have hcode : (first * 16 + second) * 256 + (third * 16 + fourth) =
        ((first * 16 + second) * 16 + third) * 16 + fourth := by omega
    simp only [List.cons_append, List.nil_append]
    rw [codes?, (hexValue?_of_isHex ha).1, (hexValue?_of_isHex hb).1, (hexValue?_of_isHex hc).1,
      (hexValue?_of_isHex hd).1]
    cases codes? rest with
    | none => rfl
    | some found => simp [hcode]

/-- The codes of a string are read up to its closing quote. -/
theorem codes?_closed {codes : List Nat} {text : List Char} (h : SpellsCodes codes text)
    (rest : List Char) : codes? (text ++ '"' :: rest) = some (codes, rest) := by
  induction h with
  | nil => rw [List.nil_append, codes?]
  | cons hcode _ ih => rw [List.append_assoc, codes?_append hcode, ih]; rfl

theorem spellsCode_lt {code : Nat} {spelled : List Char} (h : SpellsCode code spelled) :
    code < 0x110000 := by
  have hchar : ∀ c : Char, c.toNat < 0x110000 := by
    intro c
    have hvalid : c.toNat < 0xD800 ∨ 0xDFFF < c.toNat ∧ c.toNat < 0x110000 := c.valid
    omega
  cases h with
  | plain _ _ _ => exact hchar _
  | escaped _ => exact hchar _
  | unicode ha hb hc hd =>
    have hfirst := (hexValue?_of_isHex ha).2
    have hsecond := (hexValue?_of_isHex hb).2
    have hthird := (hexValue?_of_isHex hc).2
    have hfourth := (hexValue?_of_isHex hd).2
    omega

/-- A printed character is one of its spellings. -/
theorem spellsCode_escape (c : Char) : SpellsCode c.toNat (escape c) := by
  have named : ∀ {letter d : Char}, (letter, d) ∈ escapes → c = d →
      SpellsCode c.toNat ['\\', letter] := by
    rintro letter _ hmem rfl
    exact .escaped hmem
  unfold escape
  split
  · rename_i hc
    exact named (by decide : ('"', '"') ∈ escapes) hc
  split
  · rename_i hc
    exact named (by decide : ('\\', '\\') ∈ escapes) hc
  split
  · rename_i hquote hslash hc
    exact .plain hquote hslash hc
  split
  · rename_i hc
    exact named (by decide : ('n', '\n') ∈ escapes) hc
  split
  · rename_i hc
    exact named (by decide : ('r', '\r') ∈ escapes) hc
  split
  · rename_i hc
    exact named (by decide : ('t', '\t') ∈ escapes) hc
  split
  · rename_i hc
    exact named (by decide : ('b', '\x08') ∈ escapes) (Char.toNat_inj.mp hc)
  split
  · rename_i hc
    exact named (by decide : ('f', '\x0C') ∈ escapes) (Char.toNat_inj.mp hc)
  · rename_i hlow _ _ _ _ _
    have hhigh : c.toNat / 16 < 16 := by omega
    have hcode : ((0 * 16 + 0) * 16 + c.toNat / 16) * 16 + c.toNat % 16 = c.toNat := by omega
    have hzero : IsHex '0' 0 := isHex_hexDigit (by decide : 0 < 16)
    have h := SpellsCode.unicode hzero hzero (isHex_hexDigit hhigh)
      (isHex_hexDigit (Nat.mod_lt c.toNat (by decide)))
    rw [hcode] at h
    exact h

theorem spellsCodes_escape (text : List Char) :
    SpellsCodes (text.map Char.toNat) (text.flatMap escape) := by
  induction text with
  | nil => exact .nil
  | cons c text ih => exact .cons (spellsCode_escape c) ih

theorem not_surrogate (c : Char) : ¬ (0xD800 ≤ c.toNat ∧ c.toNat < 0xE000) := by
  have hvalid : c.toNat < 0xD800 ∨ 0xDFFF < c.toNat ∧ c.toNat < 0x110000 := c.valid
  omega

/-- The codes of characters: a character by itself, or above 16 bits by the two halves of a
surrogate pair. -/
inductive Denotes : List Nat → List Char → Prop
  | nil : Denotes [] []
  | char {c : Char} {codes : List Nat} {text : List Char} : Denotes codes text →
      Denotes (c.toNat :: codes) (c :: text)
  | pair {c : Char} {codes : List Nat} {text : List Char} : 0x10000 ≤ c.toNat →
      Denotes codes text → Denotes ((0xD800 + (c.toNat - 0x10000) / 0x400) ::
        (0xDC00 + (c.toNat - 0x10000) % 0x400) :: codes) (c :: text)

theorem denotes_toNat (text : List Char) : Denotes (text.map Char.toNat) text := by
  induction text with
  | nil => exact .nil
  | cons c text ih => exact .char ih

theorem chars?_cons {code : Nat} (h : ¬ (0xD800 ≤ code ∧ code < 0xE000)) (codes : List Nat) :
    chars? (code :: codes) = (chars? codes).map (Char.ofNat code :: ·) := by
  cases codes with
  | nil =>
    show chars? [code] = some [Char.ofNat code]
    rw [chars?, if_neg h]
  | cons low codes => rw [chars?, if_neg (by omega), if_neg (by omega)]

theorem chars?_pair {high low : Nat} (hhigh : 0xD800 ≤ high ∧ high < 0xDC00)
    (hlow : 0xDC00 ≤ low ∧ low < 0xE000) (codes : List Nat) :
    chars? (high :: low :: codes) = (chars? codes).map
      (Char.ofNat (0x10000 + (high - 0xD800) * 0x400 + (low - 0xDC00)) :: ·) := by
  rw [chars?, if_pos hhigh, if_pos hlow]

theorem chars?_of_denotes {codes : List Nat} {text : List Char} (h : Denotes codes text) :
    chars? codes = some text := by
  induction h with
  | nil => rw [chars?]
  | @char c _ _ _ ih => rw [chars?_cons (not_surrogate c), ih, Char.ofNat_toNat]; rfl
  | @pair c _ _ hc _ ih =>
    have hvalid : c.toNat < 0xD800 ∨ 0xDFFF < c.toNat ∧ c.toNat < 0x110000 := c.valid
    rw [chars?_pair (by omega) (by omega), ih]
    have hcode : 0x10000 + (0xD800 + (c.toNat - 0x10000) / 0x400 - 0xD800) * 0x400 +
        (0xDC00 + (c.toNat - 0x10000) % 0x400 - 0xDC00) = c.toNat := by omega
    rw [hcode, Char.ofNat_toNat]
    rfl

theorem Reads.string {codes : List Nat} {text : List Char} (hcodes : SpellsCodes codes text)
    (h : Reads rest tokens) : Reads ('"' :: (text ++ '"' :: rest))
      (.scalar (.string ((chars? codes).map String.ofList)) :: tokens) := by
  have hnext : next? ('"' :: (text ++ '"' :: rest)) =
      some (.scalar (.string ((chars? codes).map String.ofList)), rest) := by
    show (codes? (text ++ '"' :: rest)).map _ = _
    rw [codes?_closed hcodes]
    rfl
  exact .token (stops_cons.mpr rfl) hnext (by simp; omega) h

theorem Reads.quote (text : String) (h : Reads rest tokens) :
    Reads (Json.quote text ++ rest) (.scalar (.string (some text)) :: tokens) := by
  have hread := h.string (spellsCodes_escape text.toList)
  rw [chars?_of_denotes (denotes_toNat text.toList), Option.map_some, String.ofList_toList] at hread
  rw [Json.quote, List.append_assoc]
  exact hread

end SourceMetrics.Json.Token
