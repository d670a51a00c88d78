import SourceMetrics.Proofs.Pattern.Fragment
import SourceMetrics.Proofs.Pattern.Union
import SourceMetrics.Settings

/-! # What the standard patterns match

The standard patterns are plain fragments, some of them with the stars in front that a fragment is
widened by anyway. They match wherever their fragments stand in a path.

* `SearchesFor`: a pattern is widened like a plain fragment, and matches what contains it.
* `exists_compile_fragments`: patterns that search for fragments are accepted as a list, and match
  what contains one of the fragments.
* `exists_standardIncluded`, `exists_standardExcluded`: the texts that the standard lists match.
* `IsIncluded`, `IsExcluded`: what the standard patterns find, told by parts of the text.
* `wants_iff`, `prunes_iff`: the files and directories that the standard settings take up.
* `standard_reach`: the files and directories that they reach. -/

namespace SourceMetrics

set_option autoImplicit false

namespace Pattern

/-- Patterns that are widened alike are accepted alike. -/
theorem compile_of_widen {source other : String} (h : widen source.toList = widen other.toList)
    {pattern : Pattern} (hcompile : compile other = .ok pattern) :
    compile source = .ok ⟨source, pattern.globs⟩ := by
  obtain ⟨hread, hnesting⟩ := compile_eq_ok.mp hcompile
  obtain ⟨globs, rfl, hspell⟩ := read_eq_ok.mp hread
  exact compile_eq_ok.mpr ⟨read_eq_ok.mpr ⟨globs, rfl, h ▸ hspell⟩,
    ofNesting_eq_ok.mpr (ofNesting_eq_ok.mp hnesting)⟩

/-- The pattern is widened like a plain fragment. -/
structure SearchesFor (source fragment : String) : Prop where
  widened : widen source.toList = widen fragment.toList
  plain : fragment.toList.all isPlain = true

namespace SearchesFor

variable {source fragment : String} (h : SearchesFor source fragment)

include h

theorem exists_compile : ∃ pattern, compile source = .ok pattern := by
  obtain ⟨pattern, hcompile⟩ := exists_compile_fragment (List.all_eq_true.mp h.plain)
  exact ⟨_, compile_of_widen h.widened hcompile⟩

/-- It matches a text that contains the fragment. -/
theorem accepts_iff (text : List Char) :
    (∃ pattern, compile source = .ok pattern ∧ pattern.accepts text = true) ↔
      fragment.toList <:+: '/' :: text := by
  obtain ⟨pattern, hcompile⟩ := exists_compile_fragment (List.all_eq_true.mp h.plain)
  have haccepts := accepts_fragment (List.all_eq_true.mp h.plain) (read_of_compile hcompile) text
  rw [compile_of_widen h.widened hcompile, ← haccepts]
  constructor
  · rintro ⟨_, hsame, hsource⟩
    cases hsame
    exact hsource
  · intro hfragment
    exact ⟨_, rfl, hfragment⟩

end SearchesFor

end Pattern

namespace PatternList

open Pattern

/-- Patterns that search for fragments match together what contains one of the fragments. -/
theorem exists_compile_fragments {sources fragments : List String}
    (h : List.Forall₂ SearchesFor sources fragments) :
    ∃ list, compile sources = .ok list ∧ ∀ text, list.accepts text = true ↔
      ∃ fragment ∈ fragments, fragment.toList <:+: '/' :: text := by
  have heach : ∀ source ∈ sources, ∃ pattern, Pattern.compile source = .ok pattern := by
    induction h with
    | nil => simp
    | cons hfirst _ ih => exact List.forall_mem_cons.mpr ⟨hfirst.exists_compile, ih⟩
  obtain ⟨list, hlist⟩ := exists_compile heach
  refine ⟨list, hlist, fun text => (accepts_iff hlist text).trans ?_⟩
  clear heach hlist
  induction h with
  | nil => simp
  | cons hfirst _ ih =>
    rw [List.exists_mem_cons_iff, List.exists_mem_cons_iff, ih, hfirst.accepts_iff]

end PatternList

namespace Settings

open Pattern PatternList

/-! ## Standard lists -/

/-- The longer extensions are found with the shorter ones. -/
theorem exists_standardIncluded :
    ∃ list, compile standardIncluded = .ok list ∧ ∀ text, list.accepts text = true ↔
      ".ts".toList <:+: text ∨ ".js".toList <:+: text := by
  have hfragments : List.Forall₂ SearchesFor standardIncluded [".ts", ".js", ".tsx", ".jsx"] := by
    simp only [standardIncluded, List.forall₂_cons, List.forall₂_nil_left_iff, and_true]
    exact ⟨⟨rfl, rfl⟩, ⟨rfl, rfl⟩, ⟨rfl, rfl⟩, ⟨rfl, rfl⟩⟩
  obtain ⟨list, hlist, haccepts⟩ := exists_compile_fragments hfragments
  refine ⟨list, hlist, fun text => (haccepts text).trans ?_⟩
  have hshorter {extension : List Char} (h : extension ++ ['x'] <:+: text) : extension <:+: text :=
    (List.prefix_append extension ['x']).isInfix.trans h
  simp (disch := decide) only [List.exists_mem_cons_iff, List.not_mem_nil, false_and, exists_false,
    or_false, isInfix_slash_cons_of_not_prefix]
  constructor
  · rintro (hts | hjs | htsx | hjsx)
    · exact .inl hts
    · exact .inr hjs
    · exact .inl (hshorter htsx)
    · exact .inr (hshorter hjsx)
  · rintro (hts | hjs)
    · exact .inl hts
    · exact .inr (.inl hjs)

/-- What the patterns for directories match. -/
theorem exists_standardExcluded :
    ∃ list, compile standardExcluded = .ok list ∧ ∀ text, list.accepts text = true ↔
      "/node_modules/".toList <:+: '/' :: text ∨ "/dist/".toList <:+: '/' :: text := by
  have hfragments : List.Forall₂ SearchesFor standardExcluded standardExcluded := by
    simp only [standardExcluded, List.forall₂_cons, List.forall₂_nil_left_iff, and_true]
    exact ⟨⟨rfl, rfl⟩, ⟨rfl, rfl⟩⟩
  obtain ⟨list, hlist, haccepts⟩ := exists_compile_fragments hfragments
  refine ⟨list, hlist, fun text => (haccepts text).trans ?_⟩
  simp [standardExcluded]

/-! ## What the lists say of a path -/

/-- The standard patterns find the extension of a script in a text. -/
def IsIncluded (text : List Char) : Prop :=
  ".ts".toList <:+: text ∨ ".js".toList <:+: text

/-- The standard patterns find a directory of dependencies or of build output in a text that a slash
is put in front of. -/
def IsExcluded (text : List Char) : Prop :=
  "/node_modules/".toList <:+: '/' :: text ∨ "/dist/".toList <:+: '/' :: text

theorem exists_standard : ∃ included excluded : PatternList,
    (∀ text, included.accepts text = true ↔ IsIncluded text) ∧
      (∀ text, excluded.accepts text = true ↔ IsExcluded text) ∧
      ∀ limit, ofPatterns none none limit = .ok ⟨⟨included, excluded⟩, limit⟩ := by
  obtain ⟨included, hincluded, hwanted⟩ := exists_standardIncluded
  obtain ⟨excluded, hexcluded, hpassed⟩ := exists_standardExcluded
  refine ⟨included, excluded, hwanted, hpassed, fun limit => ?_⟩
  rw [ofPatterns, Option.getD_none, Option.getD_none, hincluded, hexcluded]
  rfl

section Paths

variable {limit : Option Nat} {settings : Settings}
  (h : ofPatterns none none limit = .ok settings) (path : Path)

include h

theorem wants_iff : settings.filter.wants path = true ↔
    IsIncluded path.normalized ∧ ¬ IsExcluded path.normalized := by
  obtain ⟨included, excluded, hwanted, hpassed, hlimit⟩ := exists_standard
  cases (hlimit limit).symm.trans h
  rw [Filter.wants, Bool.and_eq_true, Bool.not_eq_true', ← hwanted, ← hpassed, Bool.not_eq_true]
  rfl

theorem prunes_iff :
    settings.filter.prunes path = true ↔ IsExcluded (PatternList.closed path.normalized) := by
  obtain ⟨included, excluded, -, hpassed, hlimit⟩ := exists_standard
  cases (hlimit limit).symm.trans h
  exact hpassed _

end Paths

theorem IsExcluded.append {text : List Char} (h : IsExcluded text) (more : List Char) :
    IsExcluded (text ++ more) :=
  have hlonger := (List.prefix_append ('/' :: text) more).isInfix
  h.imp (fun h => h.trans hlonger) fun h => h.trans hlonger

/-- A text that ends in a separator does not reach into what has none. -/
theorem isInfix_of_append {word text more : List Char} {last : Char}
    (hlast : word.getLast? = some last) (hmore : last ∉ more) (h : word <:+: text ++ more) :
    word <:+: text := by
  induction more using List.reverseRecOn with
  | nil => rwa [List.append_nil] at h
  | append_singleton more c ih =>
    rw [List.mem_append, not_or, List.mem_singleton] at hmore
    rw [← List.append_assoc, List.infix_concat_iff] at h
    refine ih hmore.1 (h.resolve_left ?_)
    rintro ⟨front, hfront⟩
    have hend := congrArg List.getLast? hfront
    rw [List.getLast?_concat, List.getLast?_append, hlast] at hend
    exact hmore.2 (Option.some.inj hend)

theorem IsExcluded.of_append {text more : List Char} (h : IsExcluded (text ++ more))
    (hmore : '/' ∉ more) : IsExcluded text :=
  h.imp (isInfix_of_append rfl hmore) (isInfix_of_append rfl hmore)

/-! ## The whole reach -/

/-- **The standard patterns look for parts of a path.** A file is included if `.ts` or `.js` stands
anywhere in its path, and excluded with the files below a directory `node_modules` or `dist`, which
are passed over themselves. -/
theorem standard_reach : ∃ included excluded,
    (∀ limit, ofPatterns none none limit = .ok ⟨⟨included, excluded⟩, limit⟩) ∧
      standard = .ok ⟨⟨included, excluded⟩, some standardLimit⟩ ∧
      ∀ path : Path,
        (included.matchesFile path = true ↔
          ".ts".toList <:+: path.normalized ∨ ".js".toList <:+: path.normalized) ∧
        (excluded.matchesFile path = true ↔
          "/node_modules/".toList <:+: '/' :: path.normalized ∨
            "/dist/".toList <:+: '/' :: path.normalized) ∧
        (excluded.matchesDirectory path = true ↔
          "/node_modules/".toList <:+: '/' :: closed path.normalized ∨
            "/dist/".toList <:+: '/' :: closed path.normalized) ∧
        ((Filter.mk included excluded).wants path = true ↔
          (".ts".toList <:+: path.normalized ∨ ".js".toList <:+: path.normalized) ∧
            ¬ ("/node_modules/".toList <:+: '/' :: path.normalized ∨
              "/dist/".toList <:+: '/' :: path.normalized)) := by
  obtain ⟨included, excluded, hwanted, hpassed, hlimit⟩ := exists_standard
  exact ⟨included, excluded, hlimit, hlimit _, fun path =>
    ⟨hwanted _, hpassed _, hpassed _, wants_iff (hlimit none) path⟩⟩

end Settings

end SourceMetrics
