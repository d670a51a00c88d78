import SourceMetrics.Proofs.Pattern.Reading

/-! # Lists of patterns as unions

The globs of a list are matched together, whichever patterns they come from. What the list matches
is what its patterns match one by one.

* `compile_eq_ok`: a list is accepted if each of its patterns is, and its pool holds their globs.
* `accepts_iff`: a list matches what one of its patterns matches alone.
* `accepts_of_subset`: patterns that are added only add matches.
* `matches_union`: files, directories, order and repetition. -/

namespace SourceMetrics

set_option autoImplicit false

namespace Pattern

theorem source_of_read {source : String} {pattern : Pattern} (h : read source = .ok pattern) :
    pattern.source = source := by
  obtain ⟨globs, rfl, -⟩ := read_eq_ok.mp h
  rfl

/-- Globs are passed one by one, whatever names them in a fault. -/
theorem ofNesting_append (names others : List String) {sources : List String}
    {globs more : List Glob} :
    PatternFault.ofNesting sources (globs ++ more) = .ok () ↔
      PatternFault.ofNesting names globs = .ok () ∧ PatternFault.ofNesting others more = .ok () := by
  rw [ofNesting_eq_ok, ofNesting_eq_ok, ofNesting_eq_ok, List.forall_mem_append]

/-- Patterns are accepted one by one if they can be read and their globs are passed together. -/
theorem forall₂_compile {names sources : List String} {patterns : List Pattern} :
    List.Forall₂ (fun source pattern => compile source = .ok pattern) sources patterns ↔
      List.Forall₂ (fun source pattern => read source = .ok pattern) sources patterns ∧
        PatternFault.ofNesting names (patterns.flatMap (·.globs)) = .ok () := by
  constructor
  · intro h
    induction h with
    | nil => exact ⟨.nil, ofNesting_eq_ok.mpr (by simp)⟩
    | cons hfirst _ ih =>
      obtain ⟨hread, hnesting⟩ := compile_eq_ok.mp hfirst
      rw [List.flatMap_cons]
      exact ⟨.cons hread ih.1, (ofNesting_append _ _).mpr ⟨hnesting, ih.2⟩⟩
  · rintro ⟨h, hnesting⟩
    induction h with
    | nil => exact .nil
    | @cons source pattern _ _ hread _ ih =>
      rw [List.flatMap_cons, ofNesting_append [source] names] at hnesting
      exact .cons (compile_eq_ok.mpr ⟨hread, hnesting.1⟩) (ih hnesting.2)

end Pattern

namespace PatternList

theorem compile_eq_ok {sources : List String} {list : PatternList} :
    compile sources = .ok list ↔
      ∃ patterns,
        List.Forall₂ (fun source pattern => Pattern.compile source = .ok pattern) sources patterns ∧
          list = ⟨sources, patterns.flatMap (·.globs)⟩ := by
  have hsources {patterns : List Pattern}
      (h : List.Forall₂ (fun source pattern => Pattern.read source = .ok pattern) sources patterns) :
      patterns.map (·.source) = sources := by
    induction h with
    | nil => rfl
    | cons hread _ ih => rw [List.map_cons, Pattern.source_of_read hread, ih]
  simp only [compile, bind_eq_ok, mapM_eq_ok, pure_eq_ok]
  constructor
  · rintro ⟨patterns, hread, _, hnesting, rfl⟩
    exact ⟨patterns, Pattern.forall₂_compile.mpr ⟨hread, hnesting⟩, by rw [hsources hread]⟩
  · rintro ⟨patterns, hcompile, rfl⟩
    obtain ⟨hread, hnesting⟩ := Pattern.forall₂_compile.mp hcompile
    exact ⟨patterns, hread, (), hnesting, by rw [hsources hread]⟩

theorem sources_of_compile {sources : List String} {list : PatternList}
    (h : compile sources = .ok list) : list.sources = sources := by
  obtain ⟨patterns, -, rfl⟩ := compile_eq_ok.mp h
  rfl

/-- A list matches what one of its patterns matches alone. -/
theorem accepts_iff {sources : List String} {list : PatternList} (h : compile sources = .ok list)
    (text : List Char) :
    list.accepts text = true ↔
      ∃ source ∈ sources, ∃ pattern, Pattern.compile source = .ok pattern ∧
        pattern.accepts text = true := by
  obtain ⟨patterns, hpatterns, rfl⟩ := compile_eq_ok.mp h
  rw [← exists_mem_results hpatterns, accepts, List.any_flatMap, List.any_eq_true]
  rfl

theorem exists_compile {sources : List String}
    (h : ∀ source ∈ sources, ∃ pattern, Pattern.compile source = .ok pattern) :
    ∃ list, compile sources = .ok list := by
  obtain ⟨patterns, hpatterns⟩ := exists_results.mpr h
  exact ⟨_, compile_eq_ok.mpr ⟨patterns, hpatterns, rfl⟩⟩

/-- Patterns that are added only add matches. -/
theorem accepts_of_subset {sources more : List String} {list longer : PatternList}
    (h : compile sources = .ok list) (h' : compile more = .ok longer) (hsubset : sources ⊆ more)
    {text : List Char} (haccepts : list.accepts text = true) : longer.accepts text = true := by
  obtain ⟨source, hsource, pattern, hpattern⟩ := (accepts_iff h text).mp haccepts
  exact (accepts_iff h' text).mpr ⟨source, hsubset hsource, pattern, hpattern⟩

/-- Order and repetition do not matter. -/
theorem accepts_congr {sources others : List String} {list other : PatternList}
    (h : compile sources = .ok list) (h' : compile others = .ok other)
    (hsame : ∀ source, source ∈ others ↔ source ∈ sources) (text : List Char) :
    other.accepts text = list.accepts text := by
  rw [Bool.eq_iff_iff]
  exact ⟨accepts_of_subset h' h fun source => (hsame source).mp,
    accepts_of_subset h h' fun source => (hsame source).mpr⟩

/-- **A list of patterns is the union of its patterns.** It is accepted if each of them is, keeps
their texts in order, and matches the file or the directory that one of them matches alone. -/
theorem matches_union {sources : List String}
    (h : ∀ source ∈ sources, ∃ pattern, Pattern.compile source = .ok pattern) :
    ∃ list, compile sources = .ok list ∧ list.sources = sources ∧
      (∀ path, list.matchesFile path = true ↔
        ∃ source ∈ sources, ∃ pattern, Pattern.compile source = .ok pattern ∧
          pattern.accepts path.normalized = true) ∧
      (∀ path, list.matchesDirectory path = true ↔
        ∃ source ∈ sources, ∃ pattern, Pattern.compile source = .ok pattern ∧
          pattern.accepts (closed path.normalized) = true) ∧
      (∀ others, (∀ source, source ∈ others ↔ source ∈ sources) →
        ∃ other, compile others = .ok other ∧ ∀ path,
          other.matchesFile path = list.matchesFile path ∧
            other.matchesDirectory path = list.matchesDirectory path) ∧
      (∀ more longer, compile more = .ok longer → sources ⊆ more → ∀ path,
        (list.matchesFile path = true → longer.matchesFile path = true) ∧
          (list.matchesDirectory path = true → longer.matchesDirectory path = true)) ∧
      (sources = [] → list = empty ∧ ∀ path, list.matchesFile path = false ∧
        list.matchesDirectory path = false) := by
  obtain ⟨list, hlist⟩ := exists_compile h
  refine ⟨list, hlist, sources_of_compile hlist, fun path => accepts_iff hlist _,
    fun path => accepts_iff hlist _, ?_, ?_, ?_⟩
  · intro others hsame
    obtain ⟨other, hother⟩ := exists_compile fun source hsource => h source ((hsame source).mp hsource)
    exact ⟨other, hother, fun path =>
      ⟨accepts_congr hlist hother hsame _, accepts_congr hlist hother hsame _⟩⟩
  · intro more longer hlonger hsubset path
    exact ⟨accepts_of_subset hlist hlonger hsubset, accepts_of_subset hlist hlonger hsubset⟩
  · rintro rfl
    cases hlist
    exact ⟨rfl, fun path => ⟨rfl, rfl⟩⟩

/-- A pattern that is given twice, and one that matches a directory by the slash at its end. -/
theorem matches_union_repeated :
    (∀ source ∈ ["a*", "/d/", "a*"], ∃ pattern, Pattern.compile source = .ok pattern) ∧
    ∃ list, compile ["a*", "/d/", "a*"] = .ok list ∧ list.sources = ["a*", "/d/", "a*"] ∧
      list.matchesDirectory (.ofText "d") = true ∧ list.matchesFile (.ofText "d") = false := by
  have haccepted : ∀ source ∈ ["a*", "/d/", "a*"], ∃ pattern, Pattern.compile source = .ok pattern := by
    simp only [List.forall_mem_cons]
    exact ⟨⟨_, rfl⟩, ⟨_, rfl⟩, ⟨_, rfl⟩, by simp⟩
  obtain ⟨list, hlist, hsources, hfile, hdirectory, -⟩ := matches_union haccepted
  refine ⟨haccepted, list, hlist, hsources, ?_, ?_⟩
  · exact (hdirectory _).mpr ⟨"/d/", by simp, _, rfl, by decide⟩
  · rw [Bool.eq_false_iff, ne_eq, hfile]
    rintro ⟨source, hsource, pattern, hpattern, haccepts⟩
    simp only [List.mem_cons, List.not_mem_nil, or_false] at hsource
    rcases hsource with rfl | rfl | rfl <;> (cases hpattern; revert haccepts; decide)

end PatternList

end SourceMetrics
