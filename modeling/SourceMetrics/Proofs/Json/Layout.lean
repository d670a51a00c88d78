import Mathlib.Data.List.Chain
import SourceMetrics.Proofs.Json.Parser
import SourceMetrics.Proofs.Text.Utf8

/-! # Layouts of JSON texts

A JSON text need not be laid out as it is printed. Between the tokens of a value there may be any
spaces, tabs and line ends, and a numeral or a string may be spelt in several ways.

* `Token.Spells`: what a token may be spelt as.
* `Token.Spaced`, `IsLaidOut`: the texts of a row of tokens, and of a value.
* `Token.Reads.spelling`: a token is read from any of its spellings, if what follows does not
  continue it.
* `isApart`: no two scalars stand side by side in the tokens of a value, so nothing continues the
  numeral in front of it. The induction is on the value.
* `parse?_of_layout`: a value is read from any of its texts.
* `isLaidOut_spread`: the text of a value with the same blank in front of each token is one. -/

namespace SourceMetrics.Json

set_option autoImplicit false

open Numeral Text
open Utf8 (toNat_ofNat)

namespace Token

/-! ## Spellings -/

/-- What a token may be spelt as. -/
inductive Spells : Token → List Char → Prop
  | openArray : Spells .openArray ['[']
  | closeArray : Spells .closeArray [']']
  | openObject : Spells .openObject ['\x7b']
  | closeObject : Spells .closeObject ['\x7d']
  | comma : Spells .comma [',']
  | colon : Spells .colon [':']
  | null : Spells (.scalar .null) "null".toList
  | true : Spells (.scalar (.bool true)) "true".toList
  | false : Spells (.scalar (.bool false)) "false".toList
  | number {n : Numeral} {spelled : List Char} : n.WellSpelt → SpellsExponent n.exponent spelled →
      Spells (.scalar (.number n)) (n.frontText ++ spelled)
  | string {codes : List Nat} {spelled : List Char} {text : String} : SpellsCodes codes spelled →
      Denotes codes text.toList → Spells (.scalar (.string (some text))) ('"' :: (spelled ++ ['"']))
  /-- A string with half of a surrogate pair, which denotes no text. -/
  | half {codes : List Nat} {spelled : List Char} : SpellsCodes codes spelled →
      (∀ text, ¬ Denotes codes text) → Spells (.scalar (.string none)) ('"' :: (spelled ++ ['"']))

/-- A row of characters that may stand between tokens. -/
def IsBlank (text : List Char) : Prop :=
  ∀ c ∈ text, c = ' ' ∨ c = '\t' ∨ c = '\n' ∨ c = '\r'

/-- The texts of a row of tokens: blanks in front of each token and at the end. -/
inductive Spaced : List Token → List Char → Prop
  | nil {blank : List Char} : IsBlank blank → Spaced [] blank
  | cons {blank spelled text : List Char} {token : Token} {tokens : List Token} : IsBlank blank →
      Spells token spelled → Spaced tokens text →
      Spaced (token :: tokens) (blank ++ (spelled ++ text))

def isScalar : Token → Bool
  | .scalar _ => Bool.true
  | _ => Bool.false

/-! ## Strings -/

/-- Codes that are read as characters are the codes of these characters. -/
theorem denotes_of_chars? {codes : List Nat} {text : List Char}
    (hcodes : ∀ code ∈ codes, code < 0x110000) (h : chars? codes = some text) :
    Denotes codes text := by
  have single : ∀ {code : Nat} {rest : List Nat} {text : List Char}, code < 0x110000 →
      ¬ (0xD800 ≤ code ∧ code < 0xE000) → Denotes rest text →
      Denotes (code :: rest) (Char.ofNat code :: text) := by
    intro code rest text hcode hnot hrest
    have hchar := Denotes.char (c := Char.ofNat code) hrest
    rwa [toNat_ofNat (by omega)] at hchar
  induction codes using chars?.induct generalizing text with
  | case1 =>
    rw [chars?] at h
    cases h
    exact .nil
  | case2 high low rest hhigh hlow ih =>
    obtain ⟨-, hrest⟩ := List.forall_mem_cons.mp (List.forall_mem_cons.mp hcodes).2
    rw [chars?_pair hhigh hlow] at h
    obtain ⟨behind, hbehind, rfl⟩ := Option.map_eq_some_iff.mp h
    have hpair := Denotes.pair
      (c := Char.ofNat (0x10000 + (high - 0xD800) * 0x400 + (low - 0xDC00)))
      (by rw [toNat_ofNat (by omega)]; omega) (ih hrest hbehind)
    rw [toNat_ofNat (by omega)] at hpair
    have hfirst : 0xD800 + (0x10000 + (high - 0xD800) * 0x400 + (low - 0xDC00) - 0x10000) / 0x400 =
        high := by omega
    have hsecond : 0xDC00 + (0x10000 + (high - 0xD800) * 0x400 + (low - 0xDC00) - 0x10000) % 0x400 =
        low := by omega
    rwa [hfirst, hsecond] at hpair
  | case3 high low rest hhigh hlow =>
    rw [chars?, if_pos hhigh, if_neg hlow] at h
    cases h
  | case4 high low rest hhigh hlow =>
    rw [chars?, if_neg hhigh, if_pos hlow] at h
    cases h
  | case5 high low rest hhigh hlow ih =>
    obtain ⟨hcode, hrest⟩ := List.forall_mem_cons.mp hcodes
    rw [chars?_cons (by omega)] at h
    obtain ⟨behind, hbehind, rfl⟩ := Option.map_eq_some_iff.mp h
    exact single hcode (by omega) (ih hrest hbehind)
  | case6 code hcode =>
    rw [chars?, if_pos hcode] at h
    cases h
  | case7 code hcode =>
    rw [chars?, if_neg hcode] at h
    cases h
    exact single (hcodes code List.mem_cons_self) hcode .nil

theorem SpellsCodes.lt {codes : List Nat} {spelled : List Char} (h : SpellsCodes codes spelled) :
    ∀ code ∈ codes, code < 0x110000 := by
  induction h with
  | nil => exact fun _ hcode => absurd hcode List.not_mem_nil
  | cons hcode _ ih => exact List.forall_mem_cons.mpr ⟨spellsCode_lt hcode, ih⟩

/-- Codes that denote no text are not read as characters. -/
theorem chars?_eq_none {codes : List Nat} {spelled : List Char} (h : SpellsCodes codes spelled)
    (hnone : ∀ text, ¬ Denotes codes text) : chars? codes = none := by
  cases hchars : chars? codes with
  | none => rfl
  | some text => exact absurd (denotes_of_chars? h.lt hchars) (hnone text)

/-! ## From texts to tokens -/

variable {rest text spelled : List Char} {token : Token} {tokens : List Token}

/-- A token is read from each of its spellings. -/
theorem Reads.spelling (hspells : Spells token spelled)
    (hrest : token.isScalar = true → Stops continues rest) (h : Reads rest tokens) :
    Reads (spelled ++ rest) (token :: tokens) := by
  cases hspells with
  | openArray => exact h.mark rfl rfl
  | closeArray => exact h.mark rfl rfl
  | openObject => exact h.mark rfl rfl
  | closeObject => exact h.mark rfl rfl
  | comma => exact h.mark rfl rfl
  | colon => exact h.mark rfl rfl
  | null => exact h.word "null" rfl rfl rfl
  | true => exact h.word "true" rfl rfl rfl
  | false => exact h.word "false" rfl rfl rfl
  | number hn hspelled => exact h.numeral hn hspelled (hrest rfl)
  | string hcodes hdenotes =>
    have hread := h.string hcodes
    rw [chars?_of_denotes hdenotes, Option.map_some, String.ofList_toList] at hread
    rwa [List.cons_append, List.append_assoc]
  | half hcodes hnone =>
    have hread := h.string hcodes
    rw [chars?_eq_none hcodes hnone, Option.map_none] at hread
    rwa [List.cons_append, List.append_assoc]

theorem IsBlank.isSpace {blank : List Char} (h : IsBlank blank) :
    ∀ c ∈ blank, isSpace c = true := by
  intro c hc
  obtain rfl | rfl | rfl | rfl := h c hc <;> rfl

theorem IsBlank.stops {blank : List Char} (h : IsBlank blank) : Stops continues blank := by
  intro c hc
  obtain rfl | rfl | rfl | rfl := h c (List.mem_of_mem_head? hc) <;> rfl

/-- Nothing that begins with a mark, or with a blank, continues a numeral. -/
theorem Spaced.stops (h : Spaced tokens text)
    (hfirst : ∀ token ∈ tokens.head?, token.isScalar = false) :
    Stops continues text := by
  cases h with
  | nil hblank => exact hblank.stops
  | cons hblank hspells _ =>
    refine stops_append hblank.stops ?_
    have hmark := hfirst _ rfl
    cases hspells with
    | openArray => exact stops_cons.mpr rfl
    | closeArray => exact stops_cons.mpr rfl
    | openObject => exact stops_cons.mpr rfl
    | closeObject => exact stops_cons.mpr rfl
    | comma => exact stops_cons.mpr rfl
    | colon => exact stops_cons.mpr rfl
    | null => cases hmark
    | true => cases hmark
    | false => cases hmark
    | number _ _ => cases hmark
    | string _ _ => cases hmark
    | half _ _ => cases hmark

/-- Whether two tokens may stand side by side in a value: two scalars may not. -/
def MayPrecede (first second : Token) : Prop :=
  first.isScalar = true → second.isScalar = false

/-- A row of tokens without scalars side by side is read from each of its texts. -/
theorem Spaced.reads (h : Spaced tokens text) (hchain : tokens.IsChain MayPrecede) :
    Reads text tokens := by
  induction h with
  | nil hblank =>
    have hread := Reads.nil.spaces hblank.isSpace
    rwa [List.append_nil] at hread
  | cons hblank hspells hspaced ih =>
    obtain ⟨hfirst, hchain⟩ := List.isChain_cons.mp hchain
    exact ((ih hchain).spelling hspells fun hscalar =>
      hspaced.stops fun next hnext => hfirst next hnext hscalar).spaces hblank.isSpace

end Token

/-! ## From tokens to values -/

open Token

/-- The tokens of a value have no scalars side by side, also where no scalar follows them. -/
def IsApart (value : Json) : Prop :=
  ∀ row : List Token, row.IsChain MayPrecede → (∀ token ∈ row.head?, token.isScalar = false) →
    (value.tokens ++ row).IsChain MayPrecede

theorem isChain_mark {mark : Token} {row : List Token} (hmark : mark.isScalar = false)
    (h : row.IsChain MayPrecede) : (mark :: row).IsChain MayPrecede :=
  List.isChain_cons.mpr ⟨fun _ _ hscalar => absurd hscalar (by simp [hmark]), h⟩

theorem isChain_itemTokens {items : List Json} (h : ∀ item ∈ items, IsApart item) {row : List Token}
    (hrow : row.IsChain MayPrecede) (hfirst : ∀ token ∈ row.head?, token.isScalar = false) :
    (itemTokens items ++ row).IsChain MayPrecede ∧
      ∀ token ∈ (itemTokens items ++ row).head?, token.isScalar = false := by
  induction items with
  | nil => exact ⟨hrow, hfirst⟩
  | cons item items ih =>
    obtain ⟨hitem, hitems⟩ := List.forall_mem_cons.mp h
    obtain ⟨hchain, hhead⟩ := ih hitems
    rw [itemTokens, List.cons_append, List.append_assoc]
    refine ⟨isChain_mark rfl (hitem _ hchain hhead), fun token htoken => ?_⟩
    cases htoken
    rfl

theorem isChain_memberTokens (name : Option String) {value : Json} (h : IsApart value)
    {row : List Token} (hrow : row.IsChain MayPrecede)
    (hfirst : ∀ token ∈ row.head?, token.isScalar = false) :
    (memberTokens (name, value) ++ row).IsChain MayPrecede := by
  rw [memberTokens, List.cons_append, List.cons_append]
  refine List.isChain_cons.mpr ⟨fun token htoken _ => ?_, isChain_mark rfl (h row hrow hfirst)⟩
  cases htoken
  rfl

theorem isChain_membersTokens {members : List (Option String × Json)}
    (h : ∀ member ∈ members, IsApart member.2) {row : List Token} (hrow : row.IsChain MayPrecede)
    (hfirst : ∀ token ∈ row.head?, token.isScalar = false) :
    (membersTokens members ++ row).IsChain MayPrecede ∧
      ∀ token ∈ (membersTokens members ++ row).head?, token.isScalar = false := by
  induction members with
  | nil => exact ⟨hrow, hfirst⟩
  | cons member members ih =>
    obtain ⟨hmember, hmembers⟩ := List.forall_mem_cons.mp h
    obtain ⟨hchain, hhead⟩ := ih hmembers
    rw [membersTokens, List.cons_append, List.append_assoc]
    refine ⟨isChain_mark rfl (isChain_memberTokens member.1 hmember hchain hhead),
      fun token htoken => ?_⟩
    cases htoken
    rfl

theorem isApart (value : Json) : IsApart value := by
  have close : ∀ {mark : Token} {row : List Token}, mark.isScalar = false →
      row.IsChain MayPrecede → (mark :: row).IsChain MayPrecede ∧
        ∀ token ∈ (mark :: row).head?, token.isScalar = false := by
    intro mark row hmark hrow
    refine ⟨isChain_mark hmark hrow, fun token htoken => ?_⟩
    cases htoken
    exact hmark
  refine inductionOn ?_ ?_ ?_ value
  · intro value hvalue row hrow hfirst
    rw [hvalue]
    exact List.isChain_cons.mpr ⟨fun token htoken _ => hfirst token htoken, hrow⟩
  · intro items hitems row hrow hfirst
    obtain ⟨hclose, hhead⟩ := close (rfl : Token.closeArray.isScalar = false) hrow
    cases items with
    | nil => exact isChain_mark rfl hclose
    | cons item items =>
      obtain ⟨hitem, hitems⟩ := List.forall_mem_cons.mp hitems
      obtain ⟨hchain, hnext⟩ := isChain_itemTokens hitems hclose hhead
      simp only [tokens, List.cons_append, List.append_assoc, List.nil_append]
      exact isChain_mark rfl (hitem _ hchain hnext)
  · intro members hmembers row hrow hfirst
    obtain ⟨hclose, hhead⟩ := close (rfl : Token.closeObject.isScalar = false) hrow
    cases members with
    | nil => exact isChain_mark rfl hclose
    | cons member members =>
      obtain ⟨hmember, hmembers⟩ := List.forall_mem_cons.mp hmembers
      obtain ⟨hchain, hnext⟩ := isChain_membersTokens hmembers hclose hhead
      simp only [tokens, List.cons_append, List.append_assoc, List.nil_append]
      exact isChain_mark rfl (isChain_memberTokens member.1 hmember hchain hnext)

/-- A text is laid out as a value: it is a text of its tokens. -/
def IsLaidOut (value : Json) (text : List Char) : Prop :=
  Spaced value.tokens text

/-- **A value is read from each of its texts**, whatever the layout. -/
theorem parse?_of_layout {value : Json} {text : List Char} (h : value.IsLaidOut text) :
    parse? text = some value := by
  have hchain := isApart value [] .nil fun _ htoken => absurd htoken (by simp)
  rw [List.append_nil] at hchain
  exact parse?_of_reads (h.reads hchain)

/-! ## Spreading tokens out -/

/-- A token as it is printed. -/
def Token.printed : Token → List Char
  | .openArray => ['[']
  | .closeArray => [']']
  | .openObject => ['\x7b']
  | .closeObject => ['\x7d']
  | .comma => [',']
  | .colon => [':']
  | .scalar value => print 0 value

/-- The text of a row of tokens with the same blank in front of each token and at the end. -/
def spread (blank : List Char) (tokens : List Token) : List Char :=
  tokens.flatMap (fun token => blank ++ token.printed) ++ blank

/-- A token is spelt as it is printed. -/
def Token.IsPrinted (token : Token) : Prop :=
  Spells token token.printed

theorem spaced_spread {blank : List Char} (hblank : IsBlank blank) {tokens : List Token}
    (h : ∀ token ∈ tokens, token.IsPrinted) : Spaced tokens (spread blank tokens) := by
  induction tokens with
  | nil => exact .nil hblank
  | cons token tokens ih =>
    obtain ⟨htoken, htokens⟩ := List.forall_mem_cons.mp h
    rw [spread, List.flatMap_cons, List.append_assoc, List.append_assoc]
    exact .cons hblank htoken (ih htokens)

theorem isPrinted_string (text : String) : Token.IsPrinted (.scalar (.string (some text))) :=
  .string (spellsCodes_escape text.toList) (denotes_toNat text.toList)

theorem isPrinted_itemTokens {items : List Json}
    (h : ∀ item ∈ items, ∀ token ∈ item.tokens, token.IsPrinted) :
    ∀ token ∈ itemTokens items, token.IsPrinted := by
  induction items with
  | nil => exact fun _ htoken => absurd htoken List.not_mem_nil
  | cons item items ih =>
    obtain ⟨hitem, hitems⟩ := List.forall_mem_cons.mp h
    exact List.forall_mem_cons.mpr ⟨.comma, List.forall_mem_append.mpr ⟨hitem, ih hitems⟩⟩

theorem isPrinted_memberTokens (name : String) {value : Json}
    (h : ∀ token ∈ value.tokens, token.IsPrinted) :
    ∀ token ∈ memberTokens (some name, value), token.IsPrinted :=
  List.forall_mem_cons.mpr ⟨isPrinted_string name, List.forall_mem_cons.mpr ⟨.colon, h⟩⟩

theorem isPrinted_membersTokens {members : List (Option String × Json)}
    (hnames : ∀ member ∈ members, ∃ name, member.1 = some name)
    (h : ∀ member ∈ members, ∀ token ∈ member.2.tokens, token.IsPrinted) :
    ∀ token ∈ membersTokens members, token.IsPrinted := by
  induction members with
  | nil => exact fun _ htoken => absurd htoken List.not_mem_nil
  | cons member members ih =>
    obtain ⟨⟨name, hname⟩, hothers⟩ := List.forall_mem_cons.mp hnames
    obtain ⟨hmember, hmembers⟩ := List.forall_mem_cons.mp h
    obtain ⟨_, value⟩ := member
    obtain rfl : _ = some name := hname
    exact List.forall_mem_cons.mpr ⟨.comma, List.forall_mem_append.mpr
      ⟨isPrinted_memberTokens name hmember, ih hothers hmembers⟩⟩

/-- The tokens of a well-spelt value are spelt as they are printed. -/
theorem isPrinted_tokens {value : Json} (h : value.WellSpelt) :
    ∀ token ∈ value.tokens, token.IsPrinted := by
  have closed : ∀ {mark : Token} {row : List Token}, mark.IsPrinted →
      (∀ token ∈ row, token.IsPrinted) → ∀ token ∈ row ++ [mark], token.IsPrinted :=
    fun hmark hrow => List.forall_mem_append.mpr ⟨hrow, List.forall_mem_singleton.mpr hmark⟩
  induction h with
  | null => exact List.forall_mem_singleton.mpr .null
  | bool value =>
    cases value with
    | true => exact List.forall_mem_singleton.mpr .true
    | false => exact List.forall_mem_singleton.mpr .false
  | @number numeral hnumeral =>
    exact List.forall_mem_singleton.mpr
      (.number hnumeral (spells_exponentText numeral.exponent))
  | string text => exact List.forall_mem_singleton.mpr (isPrinted_string text)
  | @array items _ ih =>
    cases items with
    | nil => exact List.forall_mem_cons.mpr ⟨.openArray, List.forall_mem_singleton.mpr .closeArray⟩
    | cons item items =>
      obtain ⟨hitem, hitems⟩ := List.forall_mem_cons.mp ih
      exact List.forall_mem_cons.mpr ⟨.openArray, closed .closeArray
        (List.forall_mem_append.mpr ⟨hitem, isPrinted_itemTokens hitems⟩)⟩
  | @object members hnamed _ ih =>
    cases members with
    | nil =>
      exact List.forall_mem_cons.mpr ⟨.openObject, List.forall_mem_singleton.mpr .closeObject⟩
    | cons member members =>
      obtain ⟨⟨name, hname⟩, hnames⟩ := List.forall_mem_cons.mp hnamed
      obtain ⟨hmember, hmembers⟩ := List.forall_mem_cons.mp ih
      obtain ⟨_, value⟩ := member
      obtain rfl : _ = some name := hname
      exact List.forall_mem_cons.mpr ⟨.openObject, closed .closeObject (List.forall_mem_append.mpr
        ⟨isPrinted_memberTokens name hmember, isPrinted_membersTokens hnames hmembers⟩)⟩

theorem isLaidOut_spread {value : Json} (h : value.WellSpelt) {blank : List Char}
    (hblank : IsBlank blank) : value.IsLaidOut (spread blank value.tokens) :=
  spaced_spread hblank (isPrinted_tokens h)

end SourceMetrics.Json
