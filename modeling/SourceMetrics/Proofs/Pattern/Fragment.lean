import SourceMetrics.Proofs.Pattern.Occurrence
import SourceMetrics.Proofs.Text.Boundary

/-! # Plain fragments

A pattern in which no character has a meaning of its own, slashes apart, is searched for as it
stands: it matches the paths that contain it. A slash in front of it is also found at the start of a
path that has none there.

* `parse?_fragment`: as a glob, a fragment is the row of its characters.
* `mem_found_word`: what is found around a single word.
* `accepts_iff_isInfix`: a fragment is accepted, and matches the paths that contain it. -/

namespace SourceMetrics.Pattern

set_option autoImplicit false

open Glob Glob.Symbol

/-- A character that stands for itself in a pattern. -/
def isPlain (c : Char) : Bool :=
  !(['?', '*', '[', '{', '}', '\\'].contains c)

/-! ## Fragments as globs -/

/-- A character that stands for itself, as a symbol. -/
def plainSymbol (c : Char) : Symbol :=
  if c = '/' then .slash else .atom (.literal c)

theorem token_of_isPlain {c : Char} (h : isPlain c = true) : Token 0 [c] (plainSymbol c) 0 := by
  unfold plainSymbol
  split
  · rename_i hslash
    subst hslash
    exact .slash 0
  · rename_i hslash
    apply Token.plain 0 c _ fun _ => rfl
    simp only [isPlain, List.contains_cons, List.contains_nil, Bool.or_false, Bool.not_eq_true',
      Bool.or_eq_false_iff, beq_eq_false_iff_ne] at h
    simp [isSpecial, h, hslash]

theorem reads_fragment {text : List Char} (h : ∀ c ∈ text, isPlain c = true) :
    Reads 0 text (text.map plainSymbol) 0 := by
  induction text with
  | nil => exact .nil 0
  | cons c text ih =>
    obtain ⟨hc, htext⟩ := List.forall_mem_cons.mp h
    exact .cons (token_of_isPlain hc) (ih htext)

theorem resolveFrom_fragment (before : Before) (text : List Char) :
    resolveFrom 0 before (text.map plainSymbol) =
      before.release ++ text.map fun c => .atom (.literal c) := by
  induction text generalizing before with
  | nil => rw [List.map_nil, List.map_nil, List.append_nil, resolveFrom]
  | cons c text ih =>
    have hstar : plainSymbol c ≠ .atom .star := by
      unfold plainSymbol
      split <;> simp
    rw [List.map_cons, List.map_cons, resolveFrom_cons hstar]
    by_cases hslash : c = '/'
    · subst hslash
      exact congrArg (before.release ++ ·) (ih (.held (.literal '/')))
    · have hkept : isReplaced 0 c = false := by simp [isReplaced, hslash]
      have hrest : resolveFrom 0 .other (text.map plainSymbol) =
          text.map fun c => .atom (.literal c) := ih .other
      simp [plainSymbol, hslash, emitted, heldBehind, depthBehind, hkept, hrest]

theorem rowOf_literals (text : List Char) :
    Nests 0 (text.map fun c => .atom (.literal c)) 0 ∧
      rowOf (text.map fun c => .atom (.literal c)) =
        text.map fun c => Piece.atom (.literal c) := by
  induction text with
  | nil => exact ⟨.nil 0, rfl⟩
  | cons c text ih =>
    obtain ⟨hnests, hrow⟩ := ih
    rw [List.map_cons, List.map_cons, rowOf_cons_atom _ hnests, hrow]
    exact ⟨nests_cons_atom.mpr hnests, rfl⟩

/-- As a glob, a fragment is the row of its characters. -/
theorem parse?_fragment {text : List Char} (h : ∀ c ∈ text, isPlain c = true) :
    parse? text = .ok ⟨text.map fun c => .atom (.literal c)⟩ := by
  have hrow : rowOf (resolve (text.map plainSymbol)) =
      text.map fun c => Piece.atom (.literal c) := by
    rw [resolve, resolveFrom_fragment, show Before.start.release = [] from rfl, List.nil_append]
    exact (rowOf_literals text).2
  refine parse?_eq_ok.mpr ⟨_, reads_fragment h, ?_⟩
  rw [ofSymbols, hrow]
  cases text <;> rfl

theorem word_mul_word (word later : List UInt8) :
    ({word} : Language UInt8) * {later} = {word ++ later} := by
  ext other
  rw [Language.mem_mul]
  constructor
  · rintro ⟨_, rfl, _, rfl, rfl⟩
    rfl
  · intro hother
    exact ⟨word, rfl, later, rfl, hother.symm⟩

theorem rowLanguage_literals (text : List Char) :
    rowLanguage (text.map fun c => .atom (.literal c)) = {Utf8.encode text} := by
  induction text with
  | nil => rfl
  | cons c text ih =>
    rw [List.map_cons, rowLanguage_atom, ih, Atom.language, word_mul_word, Utf8.encode_cons]

theorem rowDepth_literals (text : List Char) :
    rowDepth (text.map fun c => .atom (.literal c)) = 0 := by
  induction text with
  | nil => rfl
  | cons c text ih =>
    rw [List.map_cons, rowDepth, ih]
    rfl

/-! ## Words around which anything may stand -/

theorem isOpenBehind_fragment {text : List Char} (h : ∀ c ∈ text, isPlain c = true) :
    isOpenBehind text = true := by
  have hstars : ['*', '*'].isSuffixOf text = false := by
    rw [Bool.eq_false_iff, ne_eq, List.isSuffixOf_iff_suffix]
    intro hsuffix
    have hstar := h '*' (hsuffix.subset List.mem_cons_self)
    exact absurd hstar (by decide)
  rw [isOpenBehind, hstars, Bool.not_false, Bool.or_true]

theorem mem_top_mul_word_mul_top {word path : List UInt8} :
    path ∈ ⊤ * (({word} : Language UInt8) * ⊤) ↔ word <:+: path := by
  rw [Language.mem_mul]
  constructor
  · rintro ⟨front, -, _, ⟨_, rfl, rest, -, rfl⟩, rfl⟩
    exact ⟨front, rest, by simp⟩
  · rintro ⟨front, rest, rfl⟩
    exact ⟨front, trivial, word ++ rest, ⟨word, rfl, rest, trivial, rfl⟩, by simp⟩

theorem mem_found_word {text : List Char} (h : ∀ c ∈ text, isPlain c = true)
    {word path : List UInt8} :
    path ∈ found text {word} ↔
      word <:+: if ['/'].isPrefixOf text then Path.slash :: path else path := by
  have hstars : ¬ ['*', '*'].isPrefixOf text = true := by
    rw [List.isPrefixOf_iff_prefix]
    intro hfront
    have hstar := h '*' (hfront.subset List.mem_cons_self)
    exact absurd hstar (by decide)
  rw [found, behind, if_pos (isOpenBehind_fragment h), inFront, if_neg hstars]
  split
  · exact mem_top_mul_word_mul_top
  · exact mem_top_mul_word_mul_top

/-! ## Searching for fragments -/

/-- A slash in front of a fragment is found at the start of a path as if the path had one there. -/
theorem isInfix_slash_cons {text path : List Char} :
    text <:+: '/' :: path ↔
      text <:+: path ∨ ∃ rest, text = '/' :: rest ∧ rest <+: path := by
  rw [List.infix_cons_iff, or_comm]
  constructor
  · rintro (hwithin | hfront)
    · exact .inl hwithin
    · cases text with
      | nil => exact .inl List.nil_infix
      | cons c rest =>
        obtain ⟨rfl, hrest⟩ := List.cons_prefix_cons.mp hfront
        exact .inr ⟨rest, rfl, hrest⟩
  · rintro (hwithin | ⟨rest, rfl, hrest⟩)
    · exact .inl hwithin
    · exact .inr ((List.prefix_cons_inj '/').mpr hrest)

theorem isInfix_slash_cons_of_not_prefix {text path : List Char} (h : ¬ ['/'].isPrefixOf text = true) :
    text <:+: '/' :: path ↔ text <:+: path := by
  rw [isInfix_slash_cons, or_iff_left_iff_imp]
  rintro ⟨rest, rfl, -⟩
  exact absurd rfl h

theorem encode_mem_found {text path : List Char} (h : ∀ c ∈ text, isPlain c = true) :
    Utf8.encode path ∈ found text {Utf8.encode text} ↔ text <:+: '/' :: path := by
  rw [mem_found_word h]
  split
  · have hpath : Path.slash :: Utf8.encode path = Utf8.encode ('/' :: path) := rfl
    rw [hpath, Utf8.encode_infix_encode]
  · rename_i hslash
    rw [Utf8.encode_infix_encode, isInfix_slash_cons_of_not_prefix hslash]

theorem exists_compile_fragment {source : String} (hplain : ∀ c ∈ source.toList, isPlain c = true) :
    ∃ pattern, compile source = .ok pattern := by
  have hdeep : Glob.isTooDeep ⟨source.toList.map fun c => .atom (.literal c)⟩ = false := by
    rw [Glob.isTooDeep, rowDepth_literals]
    rfl
  exact compile_of_parse (parse?_fragment hplain) hdeep

theorem accepts_fragment {source : String} (hplain : ∀ c ∈ source.toList, isPlain c = true)
    {pattern : Pattern} (hread : read source = .ok pattern) (path : List Char) :
    pattern.accepts path = true ↔ source.toList <:+: '/' :: path := by
  rw [accepts_iff_found (parse?_fragment hplain) hread, Glob.language, rowLanguage_literals]
  exact encode_mem_found hplain

/-- **A plain fragment is searched for as it stands.** It is accepted as a pattern, and matches a path
if it is part of it; a slash in front of it may stand for the start of the path. -/
theorem accepts_iff_isInfix {source : String} (hplain : ∀ c ∈ source.toList, isPlain c = true) :
    ∃ pattern, compile source = .ok pattern ∧
      ∀ path : List Char, pattern.accepts path = true ↔
        source.toList <:+: path ∨ ∃ rest, source.toList = '/' :: rest ∧ rest <+: path := by
  obtain ⟨pattern, hcompile⟩ := exists_compile_fragment hplain
  refine ⟨pattern, hcompile, fun path => ?_⟩
  rw [accepts_fragment hplain (read_of_compile hcompile), isInfix_slash_cons]

/-- A fragment with slashes at its ends and one beyond ASCII is found in the middle of a path, and at
its start without the first slash. -/
theorem accepts_iff_isInfix_slashes :
    (∀ c ∈ "/é//".toList, isPlain c = true) ∧ ∃ pattern, compile "/é//" = .ok pattern ∧
      pattern.accepts "a/é//b".toList = true ∧ pattern.accepts "é//b".toList = true ∧
      pattern.accepts "aé//b".toList = false := by
  have hplain : ∀ c ∈ "/é//".toList, isPlain c = true := List.all_eq_true.mp (by decide +kernel)
  obtain ⟨pattern, hcompile, haccepts⟩ := accepts_iff_isInfix hplain
  refine ⟨hplain, pattern, hcompile, ?_, ?_, ?_⟩
  · exact (haccepts _).mpr (.inl ⟨['a'], ['b'], by decide⟩)
  · exact (haccepts _).mpr (.inr ⟨"é//".toList, by decide, ⟨['b'], by decide⟩⟩)
  · rw [Bool.eq_false_iff, ne_eq, haccepts]
    rintro (hwithin | ⟨rest, hrest, hfront⟩)
    · exact absurd hwithin (by decide)
    · obtain rfl : ['é', '/', '/'] = rest := (List.cons.inj hrest).2
      exact absurd hfront (by decide)

end SourceMetrics.Pattern
