import SourceMetrics.Proofs.Pattern.Union
import SourceMetrics.Proofs.Pattern.Widening

/-! # Well-formed patterns

A pattern can be used if its text is a glob by itself. What is put in front of the text and behind it
neither mends a text that is no glob nor spoils one that is, unless the text ends in a backslash,
which then escapes what stands behind it.

* `IsWellFormed`: a text is a glob by itself.
* `readFrom_danglingEscape`: only a backslash at the end of a text lacks something to escape.
* `isWellFormed_of_first`: a text is well formed if its first widened text is.
* `read_eq_error`: the fault of a pattern is that of its first widened text.
* `PatternList.compile_eq_error`: the fault of a list is that of its first malformed pattern. -/

namespace SourceMetrics

set_option autoImplicit false

/-! ## Well-formed texts -/

namespace Glob

/-- A text is a glob by itself. -/
def IsWellFormed (text : List Char) : Prop :=
  ∃ glob, parse? text = .ok glob

theorem not_isWellFormed {text : List Char} :
    ¬ IsWellFormed text ↔ ∃ reason, parse? text = .error reason := by
  unfold IsWellFormed
  cases parse? text <;> simp

namespace Symbol

theorem OpenClass.read_ne_danglingEscape (c : Char) (opened : OpenClass) :
    opened.read c ≠ .error .danglingEscape := by
  unfold OpenClass.read
  repeat' split
  all_goals simp

/-- Only a backslash at the end of a text has nothing to escape. -/
theorem readFrom_danglingEscape {depth : Nat} {opened : Option OpenClass} {text : List Char}
    (h : readFrom depth opened text = .error .danglingEscape) : text.getLast? = some '\\' := by
  have hcons {c : Char} {rest : List Char} (h : rest.getLast? = some '\\') :
      (c :: rest).getLast? = some '\\' := by
    rw [List.getLast?_cons, h]
    rfl
  have hbehind {depth : Nat} {symbol : Symbol} {rest : List Char}
      (h : (readFrom depth none rest >>= fun later => pure (symbol :: later)) =
        .error .danglingEscape) : readFrom depth none rest = .error .danglingEscape := by
    obtain h | ⟨_, _, hpure⟩ := bind_eq_error.mp h
    · exact h
    · cases hpure
  fun_induction readFrom depth opened text with
  | case1 | case2 | case3 | case11 => cases h
  | case4 depth opened c rest ihClass ih =>
    obtain hread | ⟨result, -, h⟩ := bind_eq_error.mp h
    · exact absurd hread (opened.read_ne_danglingEscape c)
    · cases result with
      | inl opened => exact hcons (ihClass opened h)
      | inr symbol => exact hcons (ih (hbehind h))
  | case5 => rfl
  | case6 depth c rest ih => exact hcons (hcons (ih (hbehind h)))
  | case7 depth rest ih => exact hcons (hcons (ih h))
  | case8 depth rest ih => exact hcons (hcons (ih h))
  | case9 depth rest _ _ ih => exact hcons (ih h)
  | _ =>
    rename_i ih
    exact hcons (ih (hbehind h))

end Symbol

theorem ne_danglingEscape {text : List Char} (hend : text.getLast? ≠ some '\\') {reason : Fault}
    (h : parse? text = .error reason) : reason ≠ .danglingEscape := by
  rintro rfl
  cases hread : Symbol.read text with
  | ok symbols => simp [parse?, hread, Except.map] at h
  | error fault =>
    simp only [parse?, hread, Except.map, Except.error.injEq] at h
    subst h
    exact hend (Symbol.readFrom_danglingEscape hread)

end Glob

/-! ## Widened texts -/

namespace Pattern

open Glob Glob.Symbol

/-- The first widened text: the pattern, with stars and slashes in front of it and stars behind. -/
theorem exists_widen (text : List Char) :
    ∃ count others, widen text = (opening text ++ (text ++ List.replicate count '*')) :: others := by
  unfold widen endings
  split
  · exact ⟨0, [], by simp⟩
  · split
    · exact ⟨2, [], by simp⟩
    · exact ⟨1, _, by simp; rfl⟩

theorem isWellFormed_of_first {text first : List Char} {others : List (List Char)}
    (hend : text.getLast? ≠ some '\\') (hwiden : widen text = first :: others)
    (h : IsWellFormed first) : IsWellFormed text := by
  obtain ⟨count, rest, hfirst⟩ := exists_widen text
  obtain ⟨rfl, -⟩ := List.cons.inj (hwiden.symm.trans hfirst)
  obtain ⟨glob, hglob⟩ := h
  obtain ⟨symbols, hreads, -⟩ := parse?_eq_ok.mp hglob
  -- what is put in front of the text is read by itself
  have hread := hreads.read_eq
  rw [Symbol.read, (reads_opening text).readFrom_append] at hread
  cases hbehind : readFrom 0 none (text ++ List.replicate count '*') with
  | error fault => simp [hbehind, Except.map] at hread
  | ok later =>
    obtain ⟨front, -, hfront⟩ := (reads_of_readFrom hbehind).of_append_stars hend count
    exact ⟨_, parse?_eq_ok.mpr ⟨front, hfront, rfl⟩⟩

theorem isWellFormed_widened {text : List Char} (h : IsWellFormed text) :
    ∀ widened ∈ widen text, IsWellFormed widened := by
  obtain ⟨glob, hglob⟩ := h
  obtain ⟨globs, hspell, -, -⟩ := exists_widened hglob
  exact exists_results.mp ⟨globs, hspell⟩

/-- Widening makes no glob of a text that is none, and spoils none. -/
theorem isWellFormed_iff_widened {text : List Char} (hend : text.getLast? ≠ some '\\') :
    IsWellFormed text ↔ ∀ widened ∈ widen text, IsWellFormed widened := by
  refine ⟨isWellFormed_widened, fun h => ?_⟩
  obtain ⟨count, others, hwiden⟩ := exists_widen text
  exact isWellFormed_of_first hend hwiden (h _ (hwiden ▸ List.mem_cons_self))

/-! ## Patterns that are read -/

/-- The fault of a pattern is about its first widened text. -/
def Blames (fault : PatternFault) (source : String) : Prop :=
  ∃ first others reason, widen source.toList = first :: others ∧ parse? first = .error reason ∧
    fault = .malformed source (String.ofList first) reason

theorem exists_read_iff {source : String} (hend : source.toList.getLast? ≠ some '\\') :
    (∃ pattern, read source = .ok pattern) ↔ IsWellFormed source.toList := by
  rw [isWellFormed_iff_widened hend]
  constructor
  · rintro ⟨pattern, hread⟩
    obtain ⟨globs, -, hspell⟩ := read_eq_ok.mp hread
    exact exists_results.mp ⟨globs, hspell⟩
  · intro h
    obtain ⟨globs, hspell⟩ := exists_results.mpr h
    exact ⟨⟨source, globs⟩, read_eq_ok.mpr ⟨globs, rfl, hspell⟩⟩

theorem read_eq_error {source : String} {fault : PatternFault}
    (hend : source.toList.getLast? ≠ some '\\') (h : read source = .error fault) :
    ¬ IsWellFormed source.toList ∧ Blames fault source := by
  have hnot : ¬ IsWellFormed source.toList := by
    intro hformed
    obtain ⟨pattern, hread⟩ := (exists_read_iff hend).mpr hformed
    cases h.symm.trans hread
  refine ⟨hnot, ?_⟩
  obtain hmap | ⟨_, _, hpure⟩ := bind_eq_error.mp h
  · obtain ⟨front, widened, rest, hsplit, hfront, hwidened⟩ := mapM_eq_error.mp hmap
    cases front with
    | nil =>
      obtain ⟨reason, hreason, rfl⟩ := mapError_eq_error.mp hwidened
      exact ⟨widened, rest, reason, hsplit, hreason, rfl⟩
    | cons first front =>
      -- a later widened text is looked at only if the first one is a glob
      obtain ⟨glob, hglob⟩ := hfront first List.mem_cons_self
      have hfirst : IsWellFormed first := ⟨glob, mapError_eq_ok.mp hglob⟩
      exact absurd (isWellFormed_of_first hend hsplit hfirst) hnot
  · cases hpure

/-- The globs of a pattern that is read are not nested too deep. -/
def KeepsLimit (source : String) : Prop :=
  ∀ pattern, read source = .ok pattern → PatternFault.ofNesting [source] pattern.globs = .ok ()

theorem exists_compile_iff {source : String} (hend : source.toList.getLast? ≠ some '\\')
    (hlimit : KeepsLimit source) :
    (∃ pattern, compile source = .ok pattern) ↔ IsWellFormed source.toList := by
  rw [← exists_read_iff hend]
  refine exists_congr fun pattern => ?_
  rw [compile_eq_ok]
  exact ⟨And.left, fun hread => ⟨hread, hlimit pattern hread⟩⟩

end Pattern

/-! ## Lists of patterns -/

namespace PatternList

open Glob Pattern

variable {sources : List String}

theorem exists_compile_iff (hend : ∀ source ∈ sources, source.toList.getLast? ≠ some '\\')
    (hlimit : ∀ source ∈ sources, KeepsLimit source) :
    (∃ list, compile sources = .ok list) ↔ ∀ source ∈ sources, IsWellFormed source.toList := by
  have heach : (∀ source ∈ sources, IsWellFormed source.toList) ↔
      ∀ source ∈ sources, ∃ pattern, Pattern.compile source = .ok pattern :=
    forall₂_congr fun source hsource =>
      (Pattern.exists_compile_iff (hend source hsource) (hlimit source hsource)).symm
  rw [heach]
  constructor
  · rintro ⟨list, hlist⟩
    obtain ⟨patterns, hpatterns, -⟩ := compile_eq_ok.mp hlist
    exact exists_results.mp ⟨patterns, hpatterns⟩
  · exact exists_compile

/-- The fault of a list is that of its first malformed pattern. -/
theorem compile_eq_error (hend : ∀ source ∈ sources, source.toList.getLast? ≠ some '\\')
    (hlimit : ∀ source ∈ sources, KeepsLimit source) {fault : PatternFault}
    (h : compile sources = .error fault) :
    ∃ front source rest, sources = front ++ source :: rest ∧
      (∀ other ∈ front, IsWellFormed other.toList) ∧ ¬ IsWellFormed source.toList ∧
        Blames fault source := by
  obtain hread | ⟨patterns, hread, -⟩ := bind_eq_error.mp h
  · obtain ⟨front, source, rest, rfl, hfront, hsource⟩ := mapM_eq_error.mp hread
    have hends := List.forall_mem_append.mp hend
    refine ⟨front, source, rest, rfl, fun other hother => ?_,
      Pattern.read_eq_error (hends.2 source List.mem_cons_self) hsource⟩
    exact (exists_read_iff (hends.1 other hother)).mp (hfront other hother)
  · -- all patterns are read, so nothing could be refused but their nesting
    have hformed : ∀ source ∈ sources, IsWellFormed source.toList := fun source hsource =>
      (exists_read_iff (hend source hsource)).mp
        (exists_results.mp ⟨patterns, mapM_eq_ok.mp hread⟩ source hsource)
    obtain ⟨list, hlist⟩ := (exists_compile_iff hend hlimit).mpr hformed
    cases h.symm.trans hlist

end PatternList

end SourceMetrics
