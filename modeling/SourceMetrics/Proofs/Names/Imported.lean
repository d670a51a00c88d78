import SourceMetrics.Proofs.Names.Clause
import SourceMetrics.Proofs.Phrase.Findings
import SourceMetrics.Proofs.Phrase.Taking

/-! # Import statements behind any text

The clause of an import statement may hold any text without quotes and semicolons, the word `import`
among it, and a quoted module any text without quotes. So a statement that is begun in front of another
one may end inside it. Where it takes the other statement for a part of its own clause, the names behind
the first comma are still found; where it ends at the quote of the other statement, none is.

* `importReader_eq_some_iff`: what an import statement looks like.
* `runsOn_of_covered`: how an earlier statement reaches over the place of another one.
* `imported_of_not_runsOn`: the names of a statement. -/

namespace SourceMetrics.Names

set_option autoImplicit false

open Text Phrase

/-- Whether a character can stand between `import` and the quoted module. -/
def inStatement (c : Char) : Bool :=
  !isQuote c && c != ';'

/-- What stands between `import` and the quoted module. -/
def statementBody (names : List (List Char)) : List Char :=
  ' ' :: (namedClause names ++ " from ".toList)

/-- A statement that imports names from a module. -/
def importStatement (names : List (List Char)) (path : List Char) : List Char :=
  "import".toList ++ (statementBody names ++ '\x27' :: (path ++ "\x27;".toList))

example : importStatement ["a".toList, "b".toList] "m".toList =
    "import \x7b a, b \x7d from \x27m\x27;".toList := by
  decide

/-- A statement that is found in the text begins in `front`, which ends before the quoted module of it. -/
def ClauseRunsOn (front rest : List Char) : Prop :=
  ∃ finding ∈ importReader.findings (front ++ rest), ∃ body,
    front = finding.front ++ ("import".toList ++ body) ∧ ∀ c ∈ body, inStatement c = true

/-- A statement that is found in the text begins in `front`, which ends in the quoted module of it. -/
def ModuleRunsOn (front rest : List Char) : Prop :=
  ∃ finding ∈ importReader.findings (front ++ rest), ∃ body opening path,
    front = finding.front ++ ("import".toList ++ (body ++ opening :: path)) ∧
      (∀ c ∈ body, inStatement c = true) ∧ isQuote opening = true ∧ ∀ c ∈ path, isQuote c = false

variable {before : Option Char} {word : String} {text front rest clause path : List Char}
  {names : List (List Char)}

/-! ## What an import statement looks like -/

theorem behind?_eq_some_iff : behind? word text = some rest ↔ text = word.toList ++ rest := by
  rw [behind?]
  constructor
  · intro h
    split at h
    · rename_i hfront
      obtain ⟨behind, rfl⟩ := List.isPrefixOf_iff_prefix.mp hfront
      rw [← String.length_toList, List.drop_left] at h
      rw [Option.some.inj h]
    · cases h
  · rintro rfl
    rw [if_pos (List.isPrefixOf_iff_prefix.mpr (List.prefix_append _ _)), ← String.length_toList,
      List.drop_left]

theorem quotedLength?_eq_some_iff {length : Nat} :
    quotedLength? text = some length ↔ ∃ opening path closing rest,
      text = opening :: (path ++ closing :: rest) ∧ isQuote opening = true ∧ path ≠ [] ∧
        (∀ c ∈ path, isQuote c = false) ∧ isQuote closing = true ∧ length = path.length + 2 := by
  constructor
  · intro h
    cases text with
    | nil => cases h
    | cons opening behind =>
      rw [quotedLength?] at h
      split at h
      · rename_i hopening
        simp only [Option.bind_eq_bind, Option.bind_eq_some_iff, run?_eq_some_iff] at h
        obtain ⟨path, ⟨hpath, hne⟩, hlength⟩ := h
        obtain ⟨path', rest, rfl, hpath', hstops⟩ := exists_run (fun c => !isQuote c) behind
        rw [takeWhile_append_of_stops hpath' hstops] at hpath
        subst hpath
        rw [List.drop_left] at hlength
        cases rest with
        | nil => cases hlength
        | cons closing rest =>
          refine ⟨opening, path', closing, rest, rfl, hopening, hne, ?_, ?_, ?_⟩
          · simpa using hpath'
          · simpa using stops_cons.mp hstops
          · exact (Option.some.inj hlength).symm
      · cases h
  · rintro ⟨opening, path, closing, rest, rfl, hopening, hne, hpath, hclosing, rfl⟩
    have htake : (path ++ closing :: rest).takeWhile (fun c => !isQuote c) = path :=
      takeWhile_append_of_stops (by simpa using hpath) (stops_cons.mpr (by simp [hclosing]))
    rw [quotedLength?, if_pos hopening, run?_eq_some_iff.mpr ⟨htake, hne⟩]
    simp only [Option.bind_eq_bind, Option.bind_some, List.drop_left]
    rfl

theorem stops_of_isQuote {c : Char} (hc : isQuote c = true) : Stops inStatement (c :: rest) :=
  stops_cons.mpr (by simp [inStatement, hc])

/-- An import statement is the word, a text without quotes and semicolons that holds the clause, and a
quoted module. -/
theorem importReader_eq_some_iff {covered : Nat} :
    importReader before text = some (clause, covered) ↔ ∃ body opening path closing rest,
      text = "import".toList ++ (body ++ opening :: (path ++ closing :: rest)) ∧
        (∀ c ∈ body, inStatement c = true) ∧ clause? body = some clause ∧ isQuote opening = true ∧
        path ≠ [] ∧ (∀ c ∈ path, isQuote c = false) ∧ isQuote closing = true ∧
        covered = 6 + body.length + (path.length + 2) := by
  simp only [importReader, Option.bind_eq_bind, Option.bind_eq_some_iff, Option.pure_def,
    Option.some.injEq, Prod.mk.injEq, behind?_eq_some_iff, quotedLength?_eq_some_iff]
  constructor
  · rintro ⟨behind, rfl, _, hclause, _, hquoted, rfl, rfl⟩
    obtain ⟨body, rest, rfl, hbody, hstops⟩ := exists_run inStatement behind
    have htake : (body ++ rest).takeWhile (fun c => !isQuote c && c != ';') = body :=
      takeWhile_append_of_stops hbody hstops
    rw [htake] at hclause hquoted ⊢
    rw [List.drop_left] at hquoted
    obtain ⟨opening, path, closing, rest', rfl, hopening, hne, hpath, hclosing, rfl⟩ := hquoted
    exact ⟨body, opening, path, closing, rest', rfl, hbody, hclause, hopening, hne, hpath, hclosing, rfl⟩
  · rintro ⟨body, opening, path, closing, rest, rfl, hbody, hclause, hopening, hne, hpath, hclosing, rfl⟩
    have htake : (body ++ opening :: (path ++ closing :: rest)).takeWhile
        (fun c => !isQuote c && c != ';') = body :=
      takeWhile_append_of_stops hbody (stops_of_isQuote hopening)
    refine ⟨_, rfl, clause, by rwa [htake], path.length + 2, ?_, rfl, by rw [htake]⟩
    rw [htake, List.drop_left]
    exact ⟨opening, path, closing, rest, rfl, hopening, hne, hpath, hclosing, rfl⟩

/-! ## The clause -/

theorem clause?_append {lead : List Char} (hlead : ∀ c ∈ lead, isBlank c = true) (hne : lead ≠ [])
    (hclause : Stops isBlank clause) (hclausene : clause ≠ []) :
    clause? (lead ++ (clause ++ " from ".toList)) = some clause := by
  have hreverse : (lead ++ (clause ++ " from ".toList)).reverse =
      [' '] ++ ("morf".toList ++ (lead ++ (clause ++ [' '])).reverse) := by
    simp
  have hblank : run? isBlank ([' '] ++ ("morf".toList ++ (lead ++ (clause ++ [' '])).reverse)) =
      some [' '] :=
    run?_eq_some_iff.mpr ⟨takeWhile_append_of_stops all_isBlank_space (stops_cons.mpr (by decide)),
      List.cons_ne_nil _ _⟩
  have hstops : Stops isBlank (clause ++ [' ']) := by
    obtain ⟨c, others, rfl⟩ := List.exists_cons_of_ne_nil hclausene
    exact hclause
  have hrun : run? isBlank (lead ++ (clause ++ [' '])) = some lead :=
    run?_eq_some_iff.mpr ⟨takeWhile_append_of_stops hlead hstops, hne⟩
  have hword : behind? "morf" ("morf".toList ++ (lead ++ (clause ++ [' '])).reverse) =
      some (lead ++ (clause ++ [' '])).reverse :=
    behind?_eq_some_iff.mpr rfl
  have hlast : (clause ++ [' ']).getLast?.any isBlank = true := by
    rw [List.getLast?_concat]
    decide
  have hdrop : (clause ++ [' ']).dropLast = clause := List.dropLast_concat
  obtain ⟨c, others, hcons⟩ := List.exists_cons_of_ne_nil (List.concat_ne_nil ' ' clause)
  rw [clause?, hreverse, hblank]
  simp only [Option.bind_eq_bind, Option.bind_some, List.drop_left, hword, List.reverse_reverse, hrun]
  rw [hcons] at hlast hdrop ⊢
  simp only [hlast, hdrop, if_true]

theorem exists_blank_of_clause? (h : clause? text = some clause) :
    ∃ c rest, text = c :: rest ∧ isBlank c = true := by
  simp only [clause?, Option.bind_eq_bind, Option.bind_eq_some_iff, behind?_eq_some_iff,
    run?_eq_some_iff] at h
  obtain ⟨behindFrom, -, rest, hrest, lead, ⟨hlead, hne⟩, -⟩ := h
  obtain ⟨c, others, rfl⟩ := List.exists_cons_of_ne_nil hne
  have hwhole := congrArg List.reverse (List.take_append_drop behindFrom.length text.reverse)
  rw [hrest, List.reverse_reverse, List.reverse_append, List.reverse_append, List.append_assoc] at hwhole
  have hfront : c :: others <+: text := by
    rw [← hlead]
    exact (List.takeWhile_prefix _).trans ⟨_, hwhole⟩
  obtain ⟨behind, rfl⟩ := hfront
  refine ⟨c, others ++ behind, rfl, ?_⟩
  exact List.all_eq_true.mp List.all_takeWhile c (by rw [hlead]; exact List.mem_cons_self)

/-! ## A statement behind a text -/

theorem all_inStatement_body (hnames : ∀ name ∈ names, IsName name) :
    ∀ c ∈ statementBody names, inStatement c = true := by
  have hinName : ∀ c, inName c = true → inStatement c = true := by
    intro c hc
    have hquote : isQuote c = false :=
      Bool.or_eq_false_iff.mpr ⟨beq_false_of_ne (ne_of_inName hc (by decide)),
        beq_false_of_ne (ne_of_inName hc (by decide))⟩
    rw [inStatement, hquote, Bool.not_false, Bool.true_and, bne_iff_ne]
    exact ne_of_inName hc (by decide)
  have hlisted : ∀ c ∈ ", ".toList.intercalate names, inStatement c = true :=
    forall_mem_intercalate (List.all_eq_true.mp (by decide)) fun name hname c hc => hinName c ((hnames name hname).2 c hc)
  rw [statementBody, namedClause, List.forall_mem_cons, List.forall_mem_append, List.forall_mem_append,
    List.forall_mem_append]
  exact ⟨by decide, ⟨List.all_eq_true.mp (by decide), hlisted, List.all_eq_true.mp (by decide)⟩,
    List.all_eq_true.mp (by decide)⟩

theorem namedClause_ne_nil : namedClause names ≠ [] :=
  List.append_ne_nil_of_left_ne_nil (by decide) _

theorem stops_namedClause : Stops isBlank (namedClause names) :=
  stops_cons.mpr (by decide)

theorem importReader_importStatement (before : Option Char) (hnames : ∀ name ∈ names, IsName name)
    (hpath : path ≠ []) (hquotes : ∀ c ∈ path, isQuote c = false) :
    ∃ covered, importReader before (importStatement names path) = some (namedClause names, covered) := by
  have hclause : clause? (statementBody names) = some (namedClause names) :=
    clause?_append all_isBlank_space (List.cons_ne_nil _ _) stops_namedClause namedClause_ne_nil
  exact ⟨_, importReader_eq_some_iff.mpr ⟨statementBody names, '\x27', path, '\x27', [';'], rfl,
    all_inStatement_body hnames, hclause, by decide, hpath, hquotes, by decide, rfl⟩⟩

/-- A clause that goes on with another statement ends in the names of it. -/
theorem exists_lead_of_clause? {body : List Char}
    (h : clause? (body ++ ("import".toList ++ statementBody names)) = some clause) :
    ∃ lead, clause = lead ++ namedClause names := by
  obtain ⟨lead, others, rfl, hlead, hothers⟩ := exists_run isBlank body
  have hstops : ∀ rest, Stops isBlank (others ++ ("import ".toList ++ rest)) :=
    fun rest => stops_append hothers (stops_cons.mpr (by decide))
  have hparts : lead ++ others ++ ("import".toList ++ statementBody names) =
      lead ++ (others ++ ("import ".toList ++ namedClause names) ++ " from ".toList) := by
    simp [statementBody]
  rw [hparts] at h
  have hne : lead ≠ [] := by
    rintro rfl
    obtain ⟨c, rest, hfirst, hblank⟩ := exists_blank_of_clause? h
    rw [List.nil_append, List.append_assoc, List.append_assoc] at hfirst
    have hnot := hstops (namedClause names ++ " from ".toList)
    rw [hfirst, stops_cons, hblank] at hnot
    cases hnot
  rw [clause?_append hlead hne (hstops _) (by simp)] at h
  obtain rfl := Option.some.inj h
  exact ⟨others ++ "import ".toList, (List.append_assoc _ _ _).symm⟩

theorem lineFeed_not_mem_import : '\n' ∉ "import".toList := by
  decide

theorem length_import : "import".toList.length = 6 := by
  decide

/-- What is read from `import` on and reaches over the end of a line begins in front of it. -/
theorem exists_behind_import {taken behind : List Char} (hlast : taken.getLast? = some '\n')
    (h : taken ++ rest = "import".toList ++ behind) :
    ∃ body, taken = "import".toList ++ body ∧ behind = body ++ rest := by
  obtain ⟨between, hword, -⟩ | ⟨body, htaken, hbehind⟩ := List.append_eq_append_iff.mp h
  · refine absurd ?_ lineFeed_not_mem_import
    rw [hword]
    exact List.mem_append_left _ (List.mem_of_getLast? hlast)
  · exact ⟨body, htaken, hbehind⟩

/-- What a statement in the text looks like. -/
theorem exists_statement {finding : Reader.Finding (List Char)}
    (h : finding ∈ importReader.findings (front ++ rest)) {taken : List Char}
    (hfront : front = finding.front ++ taken) :
    ∃ body opening path closing behind,
      taken ++ rest = "import".toList ++ (body ++ opening :: (path ++ closing :: behind)) ∧
        (∀ c ∈ body, inStatement c = true) ∧ clause? body = some finding.value ∧
        isQuote opening = true ∧ (∀ c ∈ path, isQuote c = false) ∧ isQuote closing = true ∧
        finding.covered = "import".toList.length + body.length + (path.length + 2) := by
  obtain ⟨behind, htext, -, hread⟩ := Reader.exists_of_mem_findings h
  obtain ⟨body, opening, path, closing, rest', rfl, hbody, hclause, hopening, -, hpath, hclosing,
    hcovered⟩ := importReader_eq_some_iff.mp hread
  rw [hfront, List.append_assoc] at htext
  exact ⟨body, opening, path, closing, rest', List.append_cancel_left htext, hbody, hclause, hopening,
    hpath, hclosing, hcovered⟩

/-- Where an earlier statement ends behind the place of another one, the place is in the clause of the
earlier one or in its quoted module. -/
theorem runsOn_of_covered {finding : Reader.Finding (List Char)} {taken : List Char}
    (hnames : ∀ name ∈ names, IsName name)
    (hfinding : finding ∈ importReader.findings (front ++ importStatement names path))
    (hfront : front = finding.front ++ taken) (hlast : taken.getLast? = some '\n')
    (hcovered : taken.length < finding.covered) :
    (ClauseRunsOn front (importStatement names path) ∧ ∃ lead, finding.value = lead ++ namedClause names) ∨
      ModuleRunsOn front (importStatement names path) := by
  obtain ⟨body, opening, path', closing, rest', htext, hbody, hclause, hopening, hpath', -, hlength⟩ :=
    exists_statement hfinding hfront
  obtain ⟨inner, rfl, hinner⟩ := exists_behind_import hlast htext
  obtain ⟨between, rfl, hrest⟩ | ⟨others, rfl, hothers⟩ := List.append_eq_append_iff.mp hinner.symm
  · rw [List.forall_mem_append] at hbody
    have hstatement : importStatement names path =
        "import".toList ++ statementBody names ++ '\x27' :: (path ++ "\x27;".toList) :=
      (List.append_assoc _ _ _).symm
    have hall : ∀ c ∈ "import".toList ++ statementBody names, inStatement c = true := by
      rw [List.forall_mem_append]
      exact ⟨List.all_eq_true.mp (by decide), all_inStatement_body hnames⟩
    rw [hstatement] at hrest
    obtain ⟨hbetween, -⟩ := append_inj_of_stops hall (stops_of_isQuote (by decide)) hbody.2
      (stops_of_isQuote hopening) hrest
    rw [← hbetween] at hclause
    exact .inl ⟨⟨finding, hfinding, inner, hfront, hbody.1⟩, exists_lead_of_clause? hclause⟩
  · cases others with
    | nil =>
      -- the other statement does not begin with a quote
      obtain ⟨rfl, -⟩ := List.cons.inj hothers
      exact absurd hopening (by decide)
    | cons first path'' =>
      obtain ⟨rfl, hparts⟩ := List.cons.inj hothers
      have hle : path''.length ≤ path'.length := by
        simp only [List.length_append, List.length_cons] at hcovered hlength
        omega
      have hinside : path'' <+: path' :=
        List.prefix_of_prefix_length_le ⟨_, hparts.symm⟩ (List.prefix_append _ _) hle
      exact .inr ⟨finding, hfinding, body, opening, path'', hfront, hbody, hopening,
        fun c hc => hpath' c (hinside.mem hc)⟩

theorem length_lt_of_clauseRunsOn (h : ClauseRunsOn front rest) :
    ∃ finding ∈ importReader.findings (front ++ rest), finding.front.length < front.length ∧
      front.length < finding.front.length + finding.covered := by
  obtain ⟨finding, hfinding, inner, hfront, hinner⟩ := h
  obtain ⟨body, opening, path, closing, behind, htext, -, -, hopening, -, -, hlength⟩ :=
    exists_statement hfinding hfront
  rw [List.append_assoc] at htext
  have hle := (prefix_of_stops hinner (stops_of_isQuote hopening)
    (List.append_cancel_left htext)).length_le
  refine ⟨finding, hfinding, ?_⟩
  rw [hfront, hlength]
  simp only [List.length_append, length_import]
  omega

theorem length_lt_of_moduleRunsOn (h : ModuleRunsOn front rest) :
    ∃ finding ∈ importReader.findings (front ++ rest), finding.front.length < front.length ∧
      front.length < finding.front.length + finding.covered := by
  obtain ⟨finding, hfinding, inner, first, path, hfront, hinner, hfirst, hpath⟩ := h
  obtain ⟨body, opening, path', closing, behind, htext, hbody, -, hopening, -, hclosing, hlength⟩ :=
    exists_statement hfinding hfront
  rw [List.append_assoc, List.append_assoc, List.cons_append] at htext
  obtain ⟨rfl, hquoted⟩ := append_inj_of_stops hinner (stops_of_isQuote hfirst) hbody
    (stops_of_isQuote hopening) (List.append_cancel_left htext)
  have hcloses : Stops (fun c => !isQuote c) (closing :: behind) := stops_cons.mpr (by simp [hclosing])
  have hle := (prefix_of_stops (by simpa using hpath) hcloses (List.cons.inj hquoted).2).length_le
  refine ⟨finding, hfinding, ?_⟩
  rw [hfront, hlength]
  simp only [List.length_append, List.length_cons, length_import]
  omega

/-! ## Imported names -/

theorem mem_imported_iff {name : List Char} :
    name ∈ imported text ↔
      ∃ finding ∈ importReader.findings text, name ∈ clauseNames finding.value := by
  rw [imported, Reader.scan_eq_map_findings, List.mem_flatMap]
  simp only [List.mem_map, exists_exists_and_eq_and]

/-- Behind the end of a line the names of a statement are imported, or an earlier statement runs on into
it. -/
theorem imported_or_runsOn (hlast : front.getLast? = some '\n')
    (hnames : ∀ name ∈ names, IsName name) (hpath : path ≠ [])
    (hquotes : ∀ c ∈ path, isQuote c = false) :
    (∀ name ∈ names, name ∈ imported (front ++ importStatement names path)) ∨
      (ClauseRunsOn front (importStatement names path) ∧
        ∀ name ∈ names.tail, name ∈ imported (front ++ importStatement names path)) ∨
      ModuleRunsOn front (importStatement names path) := by
  obtain ⟨covered, hread⟩ := importReader_importStatement front.getLast? hnames hpath hquotes
  obtain hfound | ⟨finding, hfinding, taken, hne, hfront, hcovered⟩ :=
    Reader.mem_findings_or_covered (List.cons_ne_nil _ _) hread
  · refine .inl fun name hname => mem_imported_iff.mpr ⟨_, hfound, ?_⟩
    rwa [clauseNames_namedClause hnames]
  · rw [hfront, List.getLast?_append_of_ne_nil _ hne] at hlast
    refine .inr ((runsOn_of_covered hnames hfinding hfront hlast hcovered).imp_left ?_)
    rintro ⟨hruns, lead, hvalue⟩
    refine ⟨hruns, fun name hname => mem_imported_iff.mpr ⟨finding, hfinding, ?_⟩⟩
    rw [hvalue]
    exact (tail_suffix_clauseNames lead hnames).mem hname

/-- Behind a text without the word no name is missed. -/
theorem mem_imported_of_not_infix (hword : ¬ "import".toList <:+: text)
    (hnames : ∀ name ∈ names, IsName name) (hpath : path ≠ [])
    (hquotes : ∀ c ∈ path, isQuote c = false) :
    ∀ name ∈ names, name ∈ imported (text ++ '\n' :: importStatement names path) := by
  have hlast : (text ++ ['\n']).getLast? = some '\n' := List.getLast?_concat
  have hnever : ∀ lead behind : List Char, text ++ ['\n'] ≠ lead ++ ("import".toList ++ behind) := by
    intro lead behind hparts
    have hinfix : "import".toList <:+: text ++ ['\n'] := by
      rw [hparts, ← List.append_assoc]
      exact List.infix_append _ _ _
    obtain hsuffix | htext := List.infix_concat_iff.mp hinfix
    · obtain hnil | ⟨others, hothers, -⟩ := List.suffix_concat_iff.mp hsuffix
      · exact absurd hnil (by decide)
      · refine lineFeed_not_mem_import ?_
        rw [hothers]
        exact List.mem_append_right _ (List.mem_singleton_self _)
    · exact hword htext
  rw [List.append_cons]
  obtain hall | ⟨⟨finding, -, body, hfront, -⟩, -⟩ | ⟨finding, -, body, opening, path, hfront, -⟩ :=
    imported_or_runsOn hlast hnames hpath hquotes
  · exact hall
  · exact absurd hfront (hnever _ _)
  · exact absurd hfront (hnever _ _)

/-- The names of a statement behind the end of a line are imported, unless a statement that begins in the
text in front of it runs on into it. Where its clause does, the names behind the first comma still are. -/
theorem imported_of_not_runsOn (text : List Char) (names : List (List Char)) (path : List Char)
    (hnames : ∀ name ∈ names, IsName name) (hpath : path ≠ [])
    (hquotes : ∀ c ∈ path, isQuote c = false)
    (hfree : ¬ ModuleRunsOn (text ++ ['\n']) (importStatement names path)) :
    (∀ name ∈ names.tail, name ∈ imported (text ++ '\n' :: importStatement names path)) ∧
      (¬ ClauseRunsOn (text ++ ['\n']) (importStatement names path) →
        ∀ name ∈ names, name ∈ imported (text ++ '\n' :: importStatement names path)) := by
  have hlast : (text ++ ['\n']).getLast? = some '\n' := List.getLast?_concat
  rw [List.append_cons]
  obtain hall | ⟨hruns, htail⟩ | hmodule := imported_or_runsOn hlast hnames hpath hquotes
  · exact ⟨fun name hname => hall name (List.mem_of_mem_tail hname), fun _ => hall⟩
  · exact ⟨htail, absurd hruns⟩
  · exact absurd hmodule hfree

/-- Another statement stands in front. -/
theorem imported_of_not_runsOn_twoStatements :
    importStatement ["x".toList, "y".toList] "m".toList = "import \x7b x, y \x7d from 'm';".toList ∧
      ¬ ModuleRunsOn ("import a from 'b';".toList ++ ['\n'])
        (importStatement ["x".toList, "y".toList] "m".toList) ∧
      ∀ name ∈ ["x".toList, "y".toList], name ∈ imported
        ("import a from 'b';".toList ++ '\n' :: importStatement ["x".toList, "y".toList] "m".toList) := by
  have hnames : ∀ name ∈ ["x".toList, "y".toList], IsName name := by decide
  have hends : ¬ ∃ finding ∈ importReader.findings ("import a from 'b';".toList ++ ['\n'] ++
      importStatement ["x".toList, "y".toList] "m".toList),
      finding.front.length < ("import a from 'b';".toList ++ ['\n']).length ∧
        ("import a from 'b';".toList ++ ['\n']).length < finding.front.length + finding.covered := by
    decide
  have hmodule : ¬ ModuleRunsOn _ _ := fun hruns => hends (length_lt_of_moduleRunsOn hruns)
  have hclause : ¬ ClauseRunsOn _ _ := fun hruns => hends (length_lt_of_clauseRunsOn hruns)
  have himported := imported_of_not_runsOn _ _ _ hnames (by decide) (by simp [isQuote]) hmodule
  exact ⟨by decide, hmodule, himported.2 hclause⟩

/-- The word at the end of a comment takes the statement on the next line for its clause, and a statement
that is not closed takes its quote. -/
theorem not_mem_imported_of_runsOn :
    IsName "a".toList ∧ IsName "b".toList ∧
      "a".toList ∉ imported ("// we import".toList ++ '\n' :: importStatement ["a".toList] "m".toList) ∧
      "b".toList ∉ imported ("import x from \x27x".toList ++
        '\n' :: importStatement ["a".toList, "b".toList] "m".toList) := by
  decide

end SourceMetrics.Names
