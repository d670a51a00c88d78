import SourceMetrics.Proofs.Path
import SourceMetrics.Proofs.Pattern.Union
import SourceMetrics.Proofs.Pattern.Widening

/-! # What lies below a matched directory

A pattern that lets text stand behind it and matches a path that ends in a slash also matches all
that is below. This holds of every pattern that is accepted, whether or not it is a glob by itself:
a pattern may end in a backslash that only gets something to escape when the pattern is widened.

* `exists_mem_append`: the widened globs of one text.
* `Pattern.accepts_append`: a pattern.
* `PatternList.matchesFile_of_isBelow`: a list of patterns, asked for a directory and then for a
  path below it. -/

namespace SourceMetrics

set_option autoImplicit false

namespace Pattern

open Glob Glob.Symbol

/-! ## A single text -/

theorem isOpenBehind_opening {text : List Char} (h : isOpenBehind text = true) :
    isOpenBehind (opening text ++ text) = true := by
  by_cases hstar : text = ['*']
  · subst hstar
    rfl
  · by_cases hboth : text = ['*', '*']
    · subst hboth
      rfl
    · simp only [isOpenBehind, stars_opening hstar, Bool.or_eq_true, beq_iff_eq, hboth, false_or,
        List.isSuffixOf_iff_suffix] at h ⊢
      rcases h with hsegment | hstars
      · exact .inl (.inr (hsegment.trans (List.suffix_append _ _)))
      · exact .inr hstars

/-- The words of a glob whose text ends in an escaped star end in a star. -/
theorem getLast?_of_mem {symbols : List Symbol} (hnests : Nests 0 symbols 0) {word : List UInt8}
    (hword : word ∈ (ofSymbols (symbols ++ [.atom (.literal '*')])).language) :
    word.getLast? = some 0x2A := by
  have hall : Nests 0 (symbols ++ [.atom (.literal '*')]) 0 := hnests.append (nests_atom 0 _)
  obtain ⟨out, held, h⟩ := exists_settles hall (by simp) .start
  obtain ⟨rfl, front, rfl⟩ := (h.last rfl _ List.getLast?_concat).2 (by simp [IsSlash])
  obtain ⟨middle, hfront, hlast⟩ := h.nests.split
  rw [nests_cons_atom, nests_nil] at hlast
  subst hlast
  have hresolve := h.resolve []
  rw [List.append_nil] at hresolve
  have hrow : rowOf (resolve (symbols ++ [.atom (.literal '*')])) =
      rowOf front ++ [.atom (.literal '*')] := by
    have hnone : resolveFrom 0 .other [] = [] := rfl
    rw [resolve, hresolve, hnone, List.append_nil, rowOf_append hfront (nests_atom 0 _)]
    rfl
  rw [ofSymbols, hrow, ofRow_language, rowLanguage_append, rowLanguage_single,
    Language.mem_mul] at hword
  · obtain ⟨start, -, _, rfl, rfl⟩ := hword
    exact List.getLast?_concat
  · intro hsame
    cases hpieces : rowOf front <;> simp [hpieces] at hsame

/-- The words of a glob whose text ends in a segment of two stars may go on behind that. -/
theorem append_mem {text : List Char} {glob : Glob} (h : parse? text = .ok glob)
    (hsegment : ['/', '*', '*'] <:+ text) {word : List UInt8} (hword : word ∈ glob.language)
    (more : List UInt8) : word ++ more ∈ glob.language := by
  obtain ⟨symbols, hreads, rfl⟩ := parse?_eq_ok.mp h
  obtain ⟨front, rfl, hnests, hfront⟩ := stars_of_suffix hreads (.inr hsegment)
  rw [← language_stars_mul_top hnests hfront]
  exact Language.append_mem_mul hword trivial

/-- A text can be read if one of its widened texts can, unless it ends in a backslash. -/
theorem reads_of_spell {text : List Char} {globs : List Glob} (h : Spell (endings text) globs) :
    (∃ symbols, Reads 0 text symbols 0) ∨
      ∃ symbols glob, globs = [ofSymbols (symbols ++ [.atom (.literal '*')]), glob] ∧
        Nests 0 symbols 0 ∧ parse? (text ++ ['*', '/', '*', '*']) = .ok glob := by
  unfold endings at h
  split at h
  · obtain ⟨glob, _, hglob, -, -⟩ := List.forall₂_cons_left_iff.mp h
    obtain ⟨symbols, hreads, -⟩ := parse?_eq_ok.mp hglob
    exact .inl ⟨symbols, hreads⟩
  · split at h
    · rename_i hslash
      obtain ⟨glob, _, hglob, -, -⟩ := List.forall₂_cons_left_iff.mp h
      obtain ⟨symbols, hreads, -⟩ := parse?_eq_ok.mp hglob
      have hend : text.getLast? ≠ some '\\' := by
        obtain ⟨other, rfl⟩ := List.isSuffixOf_iff_suffix.mp hslash
        simp
      obtain ⟨front, -, hfront⟩ := hreads.of_append_stars hend 2
      exact .inl ⟨front, hfront⟩
    · obtain ⟨glob, _, hglob, hrest, rfl⟩ := List.forall₂_cons_left_iff.mp h
      obtain ⟨longer, _, hlonger, hnil, rfl⟩ := List.forall₂_cons_left_iff.mp hrest
      obtain rfl := List.forall₂_nil_left_iff.mp hnil
      obtain ⟨symbols, hreads, rfl⟩ := parse?_eq_ok.mp hglob
      -- a backslash at the end of the text escapes the star that is put behind it
      rcases hreads.of_concat_star with ⟨shorter, -, hshorter⟩ | ⟨rest, shorter, -, rfl, hshorter⟩
      · exact .inl ⟨shorter, hshorter⟩
      · exact .inr ⟨shorter, longer, rfl, hshorter.nests, hlonger⟩

/-- What the widened globs of a text match and what ends in a slash may go on behind that. -/
theorem exists_mem_append {text : List Char} {globs : List Glob} (h : Spell (endings text) globs)
    (hopen : isOpenBehind text = true) {word : List UInt8}
    (hslash : word.getLast? = some Path.slash) (hword : ∃ glob ∈ globs, word ∈ glob.language)
    (more : List UInt8) : ∃ glob ∈ globs, word ++ more ∈ glob.language := by
  rcases reads_of_spell h with ⟨symbols, hreads⟩ | ⟨symbols, longer, rfl, hnests, hlonger⟩
  · obtain ⟨ends, hends, hending, hlanguage⟩ := exists_endings hreads
    have hspell : Spell (endings text)
        (ends.map fun ending => ofSymbols (symbols ++ ending.symbols)) := by
      rw [hends]
      exact spell_of_reads fun ending hmem => hreads.append (hending ending hmem).1
    obtain rfl := hspell.unique h
    simp only [List.mem_map, exists_exists_and_eq_and, hlanguage, behind, if_pos hopen] at hword ⊢
    obtain ⟨front, hfront, rest, -, rfl⟩ := Language.mem_mul.mp hword
    rw [List.append_assoc]
    exact Language.append_mem_mul hfront trivial
  · obtain ⟨glob, hglob, hmem⟩ := hword
    -- the first glob only matches what ends in a star, so it was not the one
    rcases List.mem_pair.mp hglob with rfl | rfl
    · rw [getLast?_of_mem hnests hmem] at hslash
      exact absurd hslash (by decide)
    · refine ⟨glob, hglob, append_mem hlonger ?_ hmem more⟩
      exact ⟨text ++ ['*'], by simp⟩

/-! ## Patterns -/

/-- **A pattern that lets text stand behind it matches all that is below a path it matches.** -/
theorem accepts_append {source : String} {pattern : Pattern} (hread : read source = .ok pattern)
    (hopen : isOpenBehind source.toList = true) {path : List Char}
    (haccepts : pattern.accepts path = true) (hslash : path.getLast? = some '/')
    (more : List Char) : pattern.accepts (path ++ more) = true := by
  obtain ⟨globs, rfl, hglobs⟩ := read_eq_ok.mp hread
  simp only [accepts, List.any_eq_true, accepts_iff, Utf8.encode_append] at haccepts ⊢
  refine exists_mem_append hglobs (isOpenBehind_opening hopen) ?_ haccepts (Utf8.encode more)
  obtain ⟨front, rfl⟩ := List.getLast?_eq_some_iff.mp hslash
  rw [Utf8.encode_append]
  exact List.getLast?_concat

end Pattern

/-! ## Paths below a directory -/

namespace Path

/-- The bytes of a path with a slash at their end. -/
def closed (path : Path) : List UInt8 :=
  if path.bytes.getLast? = some slash then path.bytes else path.bytes ++ [slash]

/-- `path` lies below `directory`, at any depth. -/
def IsBelow (directory path : Path) : Prop :=
  ∃ rest, path.bytes = directory.closed ++ rest

theorem IsBelow.exists_normalized {directory path : Path} (h : IsBelow directory path) :
    ∃ more, path.normalized = PatternList.closed directory.normalized ++ more := by
  obtain ⟨rest, hpath⟩ := h
  obtain ⟨directory⟩ := directory
  obtain ⟨path⟩ := path
  simp only [closed] at hpath
  subst hpath
  unfold PatternList.closed
  split
  · rename_i hslash
    obtain ⟨front, rfl⟩ := List.getLast?_eq_some_iff.mp hslash
    have hdirectory : normalized ⟨front ++ [slash]⟩ = normalized ⟨front⟩ ++ ['/'] :=
      normalized_append front []
    rw [List.append_assoc, List.singleton_append, normalized_append, hdirectory,
      List.getLast?_concat, if_pos rfl]
    exact ⟨normalized ⟨rest⟩, by simp⟩
  · rw [List.append_assoc, List.singleton_append, normalized_append]
    -- a backslash at the end of the directory becomes the slash that its text is to end in
    split
    · exact ⟨'/' :: normalized ⟨rest⟩, rfl⟩
    · exact ⟨normalized ⟨rest⟩, by simp⟩

end Path

namespace PatternList

theorem getLast?_closed (text : List Char) : (closed text).getLast? = some '/' := by
  unfold closed
  split
  · assumption
  · exact List.getLast?_concat

/-- **A list of patterns that let text stand behind them, and that matches a directory, matches
every path below it.** -/
theorem matchesFile_of_isBelow {sources : List String} {list : PatternList}
    (hlist : compile sources = .ok list)
    (hopen : ∀ source ∈ sources, Pattern.isOpenBehind source.toList = true)
    {directory path : Path} (hbelow : directory.IsBelow path)
    (hmatches : list.matchesDirectory directory = true) : list.matchesFile path = true := by
  obtain ⟨more, hmore⟩ := hbelow.exists_normalized
  obtain ⟨source, hsource, pattern, hcompile, haccepts⟩ := (accepts_iff hlist _).mp hmatches
  refine (accepts_iff hlist _).mpr ⟨source, hsource, pattern, hcompile, ?_⟩
  have hread := Pattern.read_of_compile hcompile
  rw [hmore]
  exact Pattern.accepts_append hread (hopen source hsource) haccepts (getLast?_closed _) more

end PatternList

end SourceMetrics
