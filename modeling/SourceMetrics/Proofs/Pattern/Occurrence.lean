import SourceMetrics.Proofs.Pattern.Widening
import SourceMetrics.Proofs.Text.Utf8

/-! # Occurrences of a pattern

A pattern that is a glob by itself matches the paths in which the glob occurs, with what may stand
around it.

* `compile_of_parse`: such a pattern is accepted, and finds what `found` says.
* `accepts_surrounded`: directories in front of an occurrence and behind it are found where the
  pattern is open there, and nothing is found where it is not.
* `occurs_of_accepts`: a path that the pattern matches contains an occurrence. -/

namespace SourceMetrics.Pattern

set_option autoImplicit false

open Glob

/-- What a pattern finds that is a glob by itself. -/
theorem accepts_iff_found {source : String} {glob : Glob} {pattern : Pattern}
    (hglob : parse? source.toList = .ok glob) (hread : read source = .ok pattern)
    (path : List Char) :
    pattern.accepts path = true ↔ Utf8.encode path ∈ found source.toList glob.language := by
  obtain ⟨globs, hglobs, -, hfound⟩ := exists_widened hglob
  rw [read_eq_ok.mpr ⟨globs, rfl, hglobs⟩, Except.ok.injEq] at hread
  subst hread
  rw [accepts, List.any_eq_true, ← hfound]
  exact exists_congr fun widened => and_congr_right fun _ => widened.accepts_iff _

theorem compile_of_parse {source : String} {glob : Glob} (hglob : parse? source.toList = .ok glob)
    (hdeep : glob.isTooDeep = false) : ∃ pattern, compile source = .ok pattern := by
  obtain ⟨globs, hglobs, hdepth, -⟩ := exists_widened hglob
  have hshallow : ∀ widened ∈ globs, widened.isTooDeep = false := by
    intro widened hwidened
    have hle := hdepth widened hwidened
    have hlimit : ¬ nestingLimit < 1 + rowDepth glob.pieces := of_decide_eq_false hdeep
    rw [nestingLimit] at hlimit
    exact decide_eq_false (by rw [nestingLimit]; omega)
  have hnesting : PatternFault.ofNesting [source] globs = .ok () :=
    ofNesting_eq_ok.mpr fun widened hwidened _ => hshallow widened hwidened
  exact ⟨⟨source, globs⟩, compile_eq_ok.mpr ⟨read_eq_ok.mpr ⟨globs, rfl, hglobs⟩, hnesting⟩⟩

/-! ## Occurrences -/

theorem mem_behind {text : List Char} {word : List UInt8} {language : Language UInt8} :
    word ∈ behind text language ↔
      ∃ v w, word = v ++ w ∧ v ∈ language ∧ (w = [] ∨ isOpenBehind text = true) := by
  unfold behind
  split
  · rename_i hopen
    rw [Language.mem_mul]
    constructor
    · rintro ⟨v, hv, w, -, rfl⟩
      exact ⟨v, w, rfl, hv, .inr hopen⟩
    · rintro ⟨v, w, rfl, hv, -⟩
      exact ⟨v, hv, w, trivial, rfl⟩
  · rename_i hclosed
    constructor
    · exact fun h => ⟨word, [], (List.append_nil word).symm, h, .inl rfl⟩
    · rintro ⟨v, w, rfl, hv, rfl | hopen⟩
      · rwa [List.append_nil]
      · exact absurd hopen hclosed

theorem isOpenInFront_of_not_isPrefixOf {text : List Char}
    (h : ¬ ['*', '*'].isPrefixOf text = true) : isOpenInFront text = true := by
  unfold isOpenInFront
  split
  · exact absurd rfl h
  · rfl

theorem IsReached.exists_append {text : List Char} {word rest : List UInt8}
    (h : IsReached text word rest) :
    ∃ u, (word = u ++ rest ∨ text.head? = some '/' ∧ Path.slash :: word = u ++ rest) ∧
      (u = [] ∨ isOpenInFront text = true) := by
  by_cases hstars : ['*', '*'].isPrefixOf text = true
  · rw [IsReached, if_pos hstars] at h
    exact ⟨[], .inl h.symm, .inl rfl⟩
  · have hopen := isOpenInFront_of_not_isPrefixOf hstars
    rw [IsReached, if_neg hstars] at h
    split at h
    · rename_i hslash
      obtain ⟨u, hu⟩ := h
      obtain ⟨later, rfl⟩ := List.isPrefixOf_iff_prefix.mp hslash
      exact ⟨u, .inr ⟨rfl, hu.symm⟩, .inr hopen⟩
    · obtain ⟨u, hu⟩ := h
      exact ⟨u, .inl hu.symm, .inr hopen⟩

/-- What is found holds a word of the language, with text only around the ends that are open. -/
theorem exists_occurrence {text : List Char} {language : Language UInt8} {word : List UInt8}
    (h : word ∈ found text language) :
    ∃ u v w, (word = u ++ v ++ w ∨ text.head? = some '/' ∧ Path.slash :: word = u ++ v ++ w) ∧
      v ∈ language ∧ (u = [] ∨ isOpenInFront text = true) ∧
      (w = [] ∨ isOpenBehind text = true) := by
  obtain ⟨rest, hrest, hreached⟩ := mem_inFront.mp h
  obtain ⟨v, w, rfl, hv, hw⟩ := mem_behind.mp hrest
  obtain ⟨u, hu, hopen⟩ := hreached.exists_append
  rw [← List.append_assoc] at hu
  exact ⟨u, v, w, hu, hv, hopen, hw⟩

/-- **A path that a pattern matches contains an occurrence of it.** At the start of the path it may
lack the slash that the pattern starts with. -/
theorem occurs_of_accepts {source : String} {glob : Glob} {pattern : Pattern}
    (hglob : parse? source.toList = .ok glob) (hcompile : compile source = .ok pattern)
    {path : List Char} (haccepts : pattern.accepts path = true) :
    ∃ u v w, (Utf8.encode path = u ++ v ++ w ∨
        source.toList.head? = some '/' ∧ Path.slash :: Utf8.encode path = u ++ v ++ w) ∧
      glob.accepts v = true := by
  have hfound := (accepts_iff_found hglob (read_of_compile hcompile) path).mp haccepts
  obtain ⟨u, v, w, hword, hv, -, -⟩ := exists_occurrence hfound
  exact ⟨u, v, w, hword, (glob.accepts_iff v).mpr hv⟩

/-- A slash at the start of a pattern is found at the start of a path that has none there. -/
theorem occurs_of_accepts_rooted :
    ∃ glob pattern, (parse? "/a*".toList = .ok glob ∧ compile "/a*" = .ok pattern ∧
      pattern.accepts "ab".toList = true) ∧
      ∃ u v w, (Utf8.encode "ab".toList = u ++ v ++ w ∨ "/a*".toList.head? = some '/' ∧
        Path.slash :: Utf8.encode "ab".toList = u ++ v ++ w) ∧ glob.accepts v = true := by
  obtain ⟨glob, hglob⟩ : ∃ glob, parse? "/a*".toList = .ok glob := ⟨_, rfl⟩
  obtain ⟨pattern, hcompile, haccepts⟩ : ∃ pattern, compile "/a*" = .ok pattern ∧
      pattern.accepts "ab".toList = true := ⟨_, rfl, by decide⟩
  exact ⟨glob, pattern, ⟨hglob, hcompile, haccepts⟩, occurs_of_accepts hglob hcompile haccepts⟩

/-! ## Directories around an occurrence -/

theorem leading_mul_of_isOpenInFront {text : List Char} {glob : Glob} (h : parse? text = .ok glob)
    (hstars : ['*', '*'].isPrefixOf text = true) (hopen : isOpenInFront text = true) :
    Atom.leading.language * glob.language = glob.language := by
  obtain ⟨symbols, hreads, rfl⟩ := parse?_eq_ok.mp h
  obtain ⟨rest, rfl⟩ := List.isPrefixOf_iff_prefix.mp hstars
  obtain ⟨second, rfl, hsecond⟩ := Symbol.readFrom_of_star hreads.read_eq
  obtain ⟨third, rfl, hthird⟩ := Symbol.readFrom_of_star hsecond
  cases rest with
  | nil =>
    cases hthird
    rw [language_stars, leading_mul_top]
  | cons c rest =>
    have hc : c = '/' := beq_iff_eq.mp hopen
    subst hc
    obtain ⟨later, rfl, hlater⟩ := Symbol.readFrom_of_slash hthird
    exact leading_mul_language (Symbol.reads_of_read hlater).nests

theorem surrounded_mem_found {text : List Char} {glob : Glob} {u v w : List UInt8}
    (h : parse? text = .ok glob) (hv : v ∈ glob.language)
    (hu : u = [] ∨ u ∈ Atom.leading.language ∧ isOpenInFront text = true)
    (hw : w = [] ∨ isOpenBehind text = true) : u ++ v ++ w ∈ found text glob.language := by
  have hrest : v ++ w ∈ behind text glob.language := mem_behind.mpr ⟨v, w, rfl, hv, hw⟩
  rw [List.append_assoc, found]
  by_cases hstars : ['*', '*'].isPrefixOf text = true
  · rw [inFront, if_pos hstars]
    rcases hu with rfl | ⟨hleading, hopen⟩
    · exact hrest
    · have hall := leading_mul_of_isOpenInFront h hstars hopen
      have hbehind : Atom.leading.language * behind text glob.language =
          behind text glob.language := by
        unfold behind
        split
        · rw [← mul_assoc, hall]
        · exact hall
      rw [← hbehind]
      exact Language.append_mem_mul hleading hrest
  · rw [mem_inFront]
    refine ⟨v ++ w, hrest, ?_⟩
    unfold IsReached
    rw [if_neg hstars]
    split
    · exact ⟨Path.slash :: u, rfl⟩
    · exact List.suffix_append u (v ++ w)

theorem encode_mem_leading {text : List Char} (h : text.getLast? = some '/') :
    Utf8.encode text ∈ Atom.leading.language := by
  obtain ⟨front, rfl⟩ := List.getLast?_eq_some_iff.mp h
  rw [Utf8.encode_append]
  exact mem_leading.mpr (.inr ⟨Utf8.encode front, rfl⟩)

/-- **A pattern is found with directories in front of it and behind it**, except at an end where two
stars stand without making up a segment. There nothing is found around what the glob itself
matches. That the glob is not nested too deep is part of its being usable by itself. -/
theorem accepts_surrounded {source : String} {glob : Glob}
    (hglob : parse? source.toList = .ok glob) (hdeep : glob.isTooDeep = false) :
    ∃ pattern, compile source = .ok pattern ∧
      (∀ u v w : List Char, glob.accepts (Utf8.encode v) = true →
        (u = [] ∨ u.getLast? = some '/' ∧ isOpenInFront source.toList = true) →
        (w = [] ∨ w.head? = some '/' ∧ isOpenBehind source.toList = true) →
        pattern.accepts (u ++ v ++ w) = true) ∧
      ∀ path : List Char, pattern.accepts path = true →
        ∃ u v w, (Utf8.encode path = u ++ v ++ w ∨
            source.toList.head? = some '/' ∧ Path.slash :: Utf8.encode path = u ++ v ++ w) ∧
          glob.accepts v = true ∧ (u = [] ∨ isOpenInFront source.toList = true) ∧
          (w = [] ∨ isOpenBehind source.toList = true) := by
  obtain ⟨pattern, hcompile⟩ := compile_of_parse hglob hdeep
  have haccepts := accepts_iff_found hglob (read_of_compile hcompile)
  refine ⟨pattern, hcompile, ?_, ?_⟩
  · intro u v w hv hu hw
    rw [Glob.accepts_iff] at hv
    rw [haccepts, Utf8.encode_append, Utf8.encode_append]
    apply surrounded_mem_found hglob hv
    · rcases hu with rfl | ⟨hslash, hopen⟩
      · exact .inl rfl
      · exact .inr ⟨encode_mem_leading hslash, hopen⟩
    · rcases hw with rfl | ⟨-, hopen⟩
      · exact .inl rfl
      · exact .inr hopen
  · intro path hpath
    obtain ⟨u, v, w, hword, hv, hu, hw⟩ := exists_occurrence ((haccepts path).mp hpath)
    exact ⟨u, v, w, hword, (glob.accepts_iff v).mpr hv, hu, hw⟩

/-- Directories around an occurrence of a pattern with a star. -/
theorem accepts_surrounded_star :
    ∃ glob pattern, (parse? "b*".toList = .ok glob ∧ glob.isTooDeep = false) ∧
      compile "b*" = .ok pattern ∧ pattern.accepts ("a/".toList ++ "bc".toList ++ "/d".toList) := by
  obtain ⟨glob, hglob, hdeep, hv⟩ : ∃ glob, parse? "b*".toList = .ok glob ∧
      glob.isTooDeep = false ∧ glob.accepts (Utf8.encode "bc".toList) = true :=
    ⟨_, rfl, by decide, by decide⟩
  obtain ⟨pattern, hcompile, hsurrounded, -⟩ := accepts_surrounded hglob hdeep
  exact ⟨glob, pattern, ⟨hglob, hdeep⟩, hcompile,
    hsurrounded _ _ _ hv (.inr ⟨by decide, by decide⟩) (.inr ⟨by decide, by decide⟩)⟩

/-- Two stars in front of a letter do not make up a segment: a directory in front of what the glob
matches is not found. -/
theorem exists_not_surrounded :
    ∃ glob pattern, parse? "**a".toList = .ok glob ∧ glob.isTooDeep = false ∧
      compile "**a" = .ok pattern ∧ glob.accepts (Utf8.encode "ba".toList) = true ∧
      pattern.accepts ("x/".toList ++ "ba".toList ++ "".toList) = false :=
  ⟨_, _, rfl, by decide, rfl, by decide, by decide⟩

end SourceMetrics.Pattern
