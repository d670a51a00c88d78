import Mathlib.Computability.Language
import SourceMetrics.Glob.Match

/-! # The language of a glob

What a glob matches, read off its pieces as a language of bytes, and the proof that the marks decide
it: moving marks over a part turns the marks of a language into those of its product with the
language of the part.

* `Atom.language`, `Piece.language`, `rowLanguage`: what the parts of a glob match.
* `marksOf`: the marks of a language on some bytes, at every place behind which a word of it stands.
* `rowBefore_marksOf`: the marks in front of a row are those of a product.
* `accepts_iff`: a glob accepts the words of its language and no others. -/

namespace SourceMetrics.Glob

set_option autoImplicit false

open SourceMetrics.Path (slash)

/-! ## Languages -/

/-- The words of a single byte of a kind. -/
def oneOf (kind : UInt8 → Bool) : Language UInt8 :=
  {word | ∃ byte, kind byte = true ∧ word = [byte]}

/-- The words of bytes of a kind. -/
def manyOf (kind : UInt8 → Bool) : Language UInt8 :=
  {word | ∀ byte ∈ word, kind byte = true}

/-- What a part matches. -/
def Atom.language : Atom → Language UInt8
  | .literal c => {String.utf8EncodeChar c}
  | .any => oneOf (· != slash)
  | .star => manyOf (· != slash)
  | .set negated ranges => oneOf fun byte => isInRanges ranges byte != negated
  | .leading => 1 + ⊤ * {[slash]}
  | .between => {[slash]} * (1 + ⊤ * {[slash]})
  | .trailing => {[slash]} * ⊤
  | .anything => ⊤

mutual

/-- What a piece matches. -/
def Piece.language : Piece → Language UInt8
  | .atom part => part.language
  | .choice [] => 1
  | .choice (row :: rows) => rowLanguage row + rowsLanguage rows

def rowLanguage : List Piece → Language UInt8
  | [] => 1
  | piece :: row => piece.language * rowLanguage row

def rowsLanguage : List (List Piece) → Language UInt8
  | [] => 0
  | row :: rows => rowLanguage row + rowsLanguage rows

end

/-- What a glob matches. -/
def language (glob : Glob) : Language UInt8 :=
  rowLanguage glob.pieces

@[simp] theorem mem_top_language (word : List UInt8) : word ∈ (⊤ : Language UInt8) := trivial

@[simp] theorem mem_word (word other : List UInt8) :
    other ∈ ({word} : Language UInt8) ↔ other = word := Iff.rfl

theorem word_cons (byte : UInt8) (word : List UInt8) :
    ({byte :: word} : Language UInt8) = oneOf (· == byte) * {word} := by
  ext other
  rw [Language.mem_mul]
  constructor
  · intro h
    exact ⟨[byte], ⟨byte, by simp, rfl⟩, word, rfl, h.symm⟩
  · rintro ⟨_, ⟨b, hb, rfl⟩, _, rfl, rfl⟩
    rw [beq_iff_eq] at hb
    rw [hb]
    rfl

theorem word_nil : ({[]} : Language UInt8) = 1 := rfl

@[simp] theorem mem_oneOf (kind : UInt8 → Bool) (word : List UInt8) :
    word ∈ oneOf kind ↔ ∃ byte, kind byte = true ∧ word = [byte] := Iff.rfl

@[simp] theorem mem_manyOf (kind : UInt8 → Bool) (word : List UInt8) :
    word ∈ manyOf kind ↔ ∀ byte ∈ word, kind byte = true := Iff.rfl

theorem manyOf_true : manyOf (fun _ => true) = ⊤ := by
  ext word
  rw [mem_manyOf]
  exact ⟨fun _ => trivial, fun _ _ _ => rfl⟩

theorem nil_notMem_oneOf_mul (kind : UInt8 → Bool) (language : Language UInt8) :
    [] ∉ oneOf kind * language := by
  rw [Language.mem_mul]
  rintro ⟨_, ⟨byte, -, rfl⟩, _, -, h⟩
  simp at h

theorem cons_mem_oneOf_mul {kind : UInt8 → Bool} {language : Language UInt8} {byte : UInt8}
    {rest : List UInt8} :
    byte :: rest ∈ oneOf kind * language ↔ kind byte = true ∧ rest ∈ language := by
  rw [Language.mem_mul]
  constructor
  · rintro ⟨_, ⟨b, hb, rfl⟩, tail, ht, h⟩
    obtain ⟨rfl, rfl⟩ := List.cons.inj h
    exact ⟨hb, ht⟩
  · rintro ⟨hb, hr⟩
    exact ⟨[byte], ⟨byte, hb, rfl⟩, rest, hr, rfl⟩

theorem nil_mem_manyOf_mul {kind : UInt8 → Bool} {language : Language UInt8} :
    [] ∈ manyOf kind * language ↔ [] ∈ language := by
  rw [Language.mem_mul]
  constructor
  · rintro ⟨a, -, b, hb, h⟩
    obtain ⟨-, rfl⟩ := List.append_eq_nil_iff.mp h
    exact hb
  · exact fun h => ⟨[], by simp, [], h, rfl⟩

theorem cons_mem_manyOf_mul {kind : UInt8 → Bool} {language : Language UInt8} {byte : UInt8}
    {rest : List UInt8} :
    byte :: rest ∈ manyOf kind * language ↔
      byte :: rest ∈ language ∨ kind byte = true ∧ rest ∈ manyOf kind * language := by
  rw [Language.mem_mul]
  constructor
  · rintro ⟨a, ha, b, hb, h⟩
    cases a with
    | nil => exact .inl (h ▸ hb)
    | cons first a =>
      obtain ⟨rfl, rfl⟩ := List.cons.inj h
      have hfirst := ha first List.mem_cons_self
      exact .inr ⟨hfirst, a, fun c hc => ha c (List.mem_cons_of_mem _ hc), b, hb, rfl⟩
  · rintro (h | ⟨hbyte, a, ha, b, hb, rfl⟩)
    · exact ⟨[], by simp, _, h, rfl⟩
    · refine ⟨byte :: a, fun c hc => ?_, b, hb, rfl⟩
      rcases List.mem_cons.mp hc with rfl | hc
      · exact hbyte
      · exact ha c hc

/-! ## Marks of a language -/

open Classical in
noncomputable def hasWord (language : Language UInt8) (word : List UInt8) : Bool :=
  decide (word ∈ language)

@[simp] theorem hasWord_iff (language : Language UInt8) (word : List UInt8) :
    hasWord language word = true ↔ word ∈ language := by
  simp [hasWord]

/-- The marks of a language: a place is marked if what stands behind it is a word of it. -/
noncomputable def marksOf (language : Language UInt8) : List UInt8 → Marks
  | [] => [hasWord language []]
  | byte :: rest => hasWord language (byte :: rest) :: marksOf language rest

open Marks

theorem first_marksOf (language : Language UInt8) (bytes : List UInt8) :
    first (marksOf language bytes) = hasWord language bytes := by
  cases bytes <;> rfl

theorem atEnd_eq (bytes : List UInt8) : atEnd bytes = marksOf 1 bytes := by
  induction bytes with
  | nil => simp [atEnd, marksOf, hasWord]
  | cons byte rest ih =>
    rw [marksOf, ← ih]
    simp [atEnd, hasWord]

theorem nowhere_eq (bytes : List UInt8) : nowhere bytes = marksOf 0 bytes := by
  induction bytes with
  | nil => simp [nowhere, marksOf, hasWord]
  | cons byte rest ih =>
    rw [marksOf, ← ih]
    simp [nowhere, hasWord]

theorem either_marksOf (a b : Language UInt8) (bytes : List UInt8) :
    either (marksOf a bytes) (marksOf b bytes) = marksOf (a + b) bytes := by
  have hmark (word : List UInt8) : (hasWord a word || hasWord b word) = hasWord (a + b) word := by
    rw [Bool.eq_iff_iff, Bool.or_eq_true, hasWord_iff, hasWord_iff, hasWord_iff, Language.mem_add]
  induction bytes with
  | nil => simp only [either, marksOf, List.zipWith_cons_cons, List.zipWith_nil_left, hmark]
  | cons byte rest ih =>
    rw [either] at ih
    simp only [either, marksOf, List.zipWith_cons_cons, hmark, ih]

theorem beforeOne_marksOf (kind : UInt8 → Bool) (language : Language UInt8) (bytes : List UInt8) :
    beforeOne kind bytes (marksOf language bytes) = marksOf (oneOf kind * language) bytes := by
  induction bytes with
  | nil => simp [beforeOne, marksOf, hasWord, nil_notMem_oneOf_mul]
  | cons byte rest ih =>
    have hmark : (kind byte && hasWord language rest) =
        hasWord (oneOf kind * language) (byte :: rest) := by
      rw [Bool.eq_iff_iff, Bool.and_eq_true, hasWord_iff, hasWord_iff, cons_mem_oneOf_mul]
    simp only [beforeOne, marksOf, List.tail_cons, ih, first_marksOf, hmark]

theorem beforeMany_marksOf (kind : UInt8 → Bool) (language : Language UInt8) (bytes : List UInt8) :
    beforeMany kind bytes (marksOf language bytes) = marksOf (manyOf kind * language) bytes := by
  induction bytes with
  | nil => simp [beforeMany, marksOf, first, hasWord, nil_mem_manyOf_mul]
  | cons byte rest ih =>
    have hmark : (hasWord language (byte :: rest) ||
        kind byte && hasWord (manyOf kind * language) rest) =
          hasWord (manyOf kind * language) (byte :: rest) := by
      rw [Bool.eq_iff_iff, Bool.or_eq_true, Bool.and_eq_true, hasWord_iff, hasWord_iff,
        hasWord_iff, cons_mem_manyOf_mul]
    rw [beforeMany, first_marksOf]
    simp only [marksOf, List.tail_cons, ih, first_marksOf, hmark]

theorem beforeWord_marksOf (language : Language UInt8) (bytes word : List UInt8) :
    word.foldr (fun byte marks => beforeOne (· == byte) bytes marks) (marksOf language bytes) =
      marksOf ({word} * language) bytes := by
  induction word with
  | nil => rw [List.foldr_nil, word_nil, one_mul]
  | cons byte word ih => rw [List.foldr_cons, ih, beforeOne_marksOf, word_cons, mul_assoc]

theorem oneOf_slash : oneOf (· == slash) = {[slash]} := by
  rw [word_cons, word_nil, mul_one]

/-! ## The marks decide the language -/

theorem Atom.before_marksOf (part : Atom) (language : Language UInt8) (bytes : List UInt8) :
    part.before bytes (marksOf language bytes) = marksOf (part.language * language) bytes := by
  cases part with
  | literal c => exact beforeWord_marksOf language bytes _
  | any => exact beforeOne_marksOf _ language bytes
  | star => exact beforeMany_marksOf _ language bytes
  | set negated ranges => exact beforeOne_marksOf _ language bytes
  | leading =>
    simp only [Atom.before, Atom.language, beforeOne_marksOf, beforeMany_marksOf, either_marksOf,
      oneOf_slash, manyOf_true, add_mul, one_mul, mul_assoc]
  | between =>
    simp only [Atom.before, Atom.language, beforeOne_marksOf, beforeMany_marksOf, either_marksOf,
      oneOf_slash, manyOf_true, add_mul, one_mul, mul_assoc]
  | trailing =>
    simp only [Atom.before, Atom.language, beforeOne_marksOf, beforeMany_marksOf, oneOf_slash,
      manyOf_true, mul_assoc]
  | anything => simp only [Atom.before, Atom.language, beforeMany_marksOf, manyOf_true]

mutual

theorem Piece.before_marksOf (language : Language UInt8) (bytes : List UInt8) :
    ∀ piece : Piece,
      piece.before bytes (marksOf language bytes) = marksOf (piece.language * language) bytes
  | .atom part => part.before_marksOf language bytes
  | .choice [] => by rw [Piece.before, Piece.language, one_mul]
  | .choice (row :: rows) => by
    rw [Piece.before, Piece.language, rowBefore_marksOf language bytes row,
      rowsBefore_marksOf language bytes rows, either_marksOf, add_mul]

theorem rowBefore_marksOf (language : Language UInt8) (bytes : List UInt8) :
    ∀ row : List Piece,
      rowBefore bytes (marksOf language bytes) row = marksOf (rowLanguage row * language) bytes
  | [] => by rw [rowBefore, rowLanguage, one_mul]
  | piece :: row => by
    rw [rowBefore, rowLanguage, rowBefore_marksOf language bytes row,
      Piece.before_marksOf (rowLanguage row * language) bytes piece, mul_assoc]

theorem rowsBefore_marksOf (language : Language UInt8) (bytes : List UInt8) :
    ∀ rows : List (List Piece),
      rowsBefore bytes (marksOf language bytes) rows = marksOf (rowsLanguage rows * language) bytes
  | [] => by rw [rowsBefore, rowsLanguage, zero_mul, nowhere_eq]
  | row :: rows => by
    rw [rowsBefore, rowsLanguage, rowBefore_marksOf language bytes row,
      rowsBefore_marksOf language bytes rows, either_marksOf, add_mul]

end

/-- A glob accepts the words of its language and no others. -/
theorem accepts_iff (glob : Glob) (bytes : List UInt8) :
    glob.accepts bytes = true ↔ bytes ∈ glob.language := by
  rw [accepts, atEnd_eq, rowBefore_marksOf, mul_one, first_marksOf, hasWord_iff, language]

end SourceMetrics.Glob
