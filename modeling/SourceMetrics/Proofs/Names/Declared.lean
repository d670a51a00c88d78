import SourceMetrics.Names.Binding
import SourceMetrics.Proofs.Names.Runs
import SourceMetrics.Proofs.Phrase.Findings
import SourceMetrics.Proofs.Phrase.Taking
import SourceMetrics.Proofs.Respelling.Names

/-! # Declarations and declared names

The scan for declarations passes over what it has read. So a keyword with a name behind it is missed
where an earlier declaration has taken the keyword itself for its name, or for the end of it, and
nowhere else.

* `variableReader_eq_some_iff`: what a declaration looks like.
* `mem_declared_or_endsDeclared`: the name is declared, or the keyword ends an earlier name.
* `declared_complete`: the declared names and their order. -/

namespace SourceMetrics.Names

set_option autoImplicit false

open Text Phrase Phrase.Part

/-- A keyword and blank characters. -/
def IsKeywordGap (keyword : String) (text : List Char) : Prop :=
  keyword ∈ variableKeywords ∧
    ∃ gap, text = keyword.toList ++ gap ∧ gap ≠ [] ∧ ∀ c ∈ gap, isBlank c = true

/-- At this place a keyword that is not the end of a longer word stands in front of a name. -/
def DeclaresAt (keyword : String) (name front rest : List Char) : Prop :=
  (∀ c ∈ front.getLast?, isWord c = false) ∧ IsName name ∧
    ∃ opening behind, rest = opening ++ (name ++ behind) ∧ IsKeywordGap keyword opening ∧
      Stops inName behind

/-- The keyword at this place is the name of an earlier declaration, or the end of it. -/
def EndsDeclared (keyword : String) (front rest : List Char) : Prop :=
  ∃ finding ∈ variableReader.findings (front ++ rest), ∃ earlier opening lead,
    front = finding.front ++ (opening ++ lead) ∧ IsKeywordGap earlier opening ∧
      finding.value = lead ++ keyword.toList

variable {before : Option Char} {keyword : String} {text front rest name : List Char}

/-! ## Names and keywords -/

theorem all_isWord_keyword (h : keyword ∈ variableKeywords) : ∀ c ∈ keyword.toList, isWord c = true := by
  rw [← List.all_eq_true]
  revert keyword
  decide

theorem keyword_ne_nil (h : keyword ∈ variableKeywords) : keyword.toList ≠ [] := by
  revert keyword
  decide

theorem stops_of_gap {allowed : Char → Bool} {gap : List Char} (hne : gap ≠ [])
    (hgap : ∀ c ∈ gap, allowed c = false) (rest : List Char) : Stops allowed (gap ++ rest) := by
  obtain ⟨c, gap, rfl⟩ := List.exists_cons_of_ne_nil hne
  exact stops_cons.mpr (hgap c List.mem_cons_self)

theorem front?_keyword_eq_some_iff {opening : List Char} (hkeyword : keyword ∈ variableKeywords) :
    front? before text [edge, exact keyword, gap] = some opening ↔
      (∀ c ∈ before, isWord c = false) ∧ IsKeywordGap keyword opening ∧
        ∃ rest, text = opening ++ rest ∧ Stops isBlank rest := by
  simp only [front?_eq_some_iff,
    takes_keyword (keyword_ne_nil hkeyword) (all_isWord_keyword hkeyword), takes_gap, takes_nil,
    any_isWord_ne_true_iff, IsKeywordGap]
  constructor
  · rintro ⟨rest, rfl, hbefore, _, rfl, gap, _, rfl, hne, hgap, hstops, rfl⟩
    rw [List.append_nil]
    exact ⟨hbefore, ⟨hkeyword, gap, rfl, hne, hgap⟩, rest, rfl, hstops⟩
  · rintro ⟨hbefore, ⟨-, gap, rfl, hne, hgap⟩, rest, rfl, hstops⟩
    exact ⟨rest, rfl, hbefore, gap, rfl, gap, [], (List.append_nil _).symm, hne, hgap, hstops, rfl⟩

theorem IsKeywordGap.inj {keyword' : String} {opening opening' rest' : List Char}
    (h : IsKeywordGap keyword opening) (h' : IsKeywordGap keyword' opening')
    (hrest : Stops isBlank rest) (hrest' : Stops isBlank rest')
    (hsame : opening ++ rest = opening' ++ rest') : opening = opening' ∧ rest = rest' := by
  obtain ⟨hkeyword, gap, rfl, hne, hgap⟩ := h
  obtain ⟨hkeyword', gap', rfl, hne', hgap'⟩ := h'
  rw [List.append_assoc, List.append_assoc] at hsame
  have hstops := stops_of_gap hne (fun c hc => isWord_eq_false_of_isBlank (hgap c hc)) rest
  have hstops' := stops_of_gap hne' (fun c hc => isWord_eq_false_of_isBlank (hgap' c hc)) rest'
  obtain ⟨hwords, hgaps⟩ := append_inj_of_stops (all_isWord_keyword hkeyword) hstops
    (all_isWord_keyword hkeyword') hstops' hsame
  obtain ⟨rfl, rfl⟩ := append_inj_of_stops hgap hrest hgap' hrest' hgaps
  exact ⟨by rw [hwords], rfl⟩

theorem keyword?_eq_some_iff {opening : List Char} :
    keyword? before text = some opening ↔ (∀ c ∈ before, isWord c = false) ∧
      (∃ keyword, IsKeywordGap keyword opening) ∧ ∃ rest, text = opening ++ rest ∧ Stops isBlank rest := by
  constructor
  · intro h
    obtain ⟨keyword, hmem, hfront⟩ := List.exists_of_findSome?_eq_some h
    obtain ⟨hbefore, hopening, hrest⟩ := (front?_keyword_eq_some_iff hmem).mp hfront
    exact ⟨hbefore, ⟨keyword, hopening⟩, hrest⟩
  · rintro ⟨hbefore, ⟨keyword, hopening⟩, rest, rfl, hstops⟩
    have hfront := (front?_keyword_eq_some_iff hopening.1).mpr ⟨hbefore, hopening, rest, rfl, hstops⟩
    cases hfound : keyword? before (opening ++ rest) with
    | none =>
      have hnone := List.findSome?_eq_none_iff.mp hfound keyword hopening.1
      rw [hnone] at hfront
      cases hfront
    | some opening' =>
      -- whichever keyword is found first, it takes the same text
      obtain ⟨keyword', hmem', hfront'⟩ := List.exists_of_findSome?_eq_some hfound
      obtain ⟨-, hopening', rest', hsame, hstops'⟩ := (front?_keyword_eq_some_iff hmem').mp hfront'
      rw [(hopening.inj hopening' hstops hstops' hsame).1]

/-- A declaration is a keyword with an edge in front, blank characters, and a name. -/
theorem variableReader_eq_some_iff {covered : Nat} :
    variableReader before text = some (name, covered) ↔ (∀ c ∈ before, isWord c = false) ∧
      IsName name ∧ ∃ keyword opening behind, text = opening ++ (name ++ behind) ∧
        IsKeywordGap keyword opening ∧ Stops inName behind ∧ covered = opening.length + name.length := by
  simp only [variableReader_eq, Option.bind_eq_some_iff, Option.map_eq_some_iff, Prod.mk.injEq]
  constructor
  · rintro ⟨opening, hopening, name', hname, rfl, rfl⟩
    obtain ⟨hbefore, ⟨keyword, hkeyword⟩, rest, rfl, -⟩ := keyword?_eq_some_iff.mp hopening
    rw [List.drop_left] at hname
    obtain ⟨hisName, behind, rfl, hstops⟩ := name?_eq_some_iff.mp hname
    exact ⟨hbefore, hisName, keyword, opening, behind, rfl, hkeyword, hstops, rfl⟩
  · rintro ⟨hbefore, hname, keyword, opening, behind, rfl, hkeyword, hstops, rfl⟩
    have hopening := keyword?_eq_some_iff.mpr
      ⟨hbefore, ⟨keyword, hkeyword⟩, name ++ behind, rfl, hname.stops_isBlank behind⟩
    refine ⟨opening, hopening, name, ?_, rfl, rfl⟩
    rw [List.drop_left]
    exact name?_eq_some_iff.mpr ⟨hname, behind, rfl, hstops⟩

/-! ## Declared names -/

theorem mem_declared_iff :
    name ∈ declared text ↔ ∃ finding ∈ variableReader.findings text, finding.value = name := by
  rw [declared, List.mem_eraseDups, Reader.scan_eq_map_findings, List.mem_map]

/-- No keyword stands inside the opening of another declaration. -/
theorem exists_lead_of_inside {earlier : String} {opening opening' taken behind : List Char}
    (hopening : IsKeywordGap keyword opening) (hopening' : IsKeywordGap earlier opening')
    (hne : taken ≠ []) (hlast : ∀ c ∈ taken.getLast?, isWord c = false)
    (hsame : taken ++ (opening ++ rest) = opening' ++ behind) :
    ∃ lead, taken = opening' ++ lead ∧ behind = lead ++ (opening ++ rest) := by
  obtain ⟨hkeyword, gap, rfl, -, -⟩ := hopening
  obtain ⟨hearlier, gap', rfl, -, hgap'⟩ := hopening'
  obtain ⟨c, others, hothers⟩ := List.exists_cons_of_ne_nil (keyword_ne_nil hkeyword)
  have hc : isWord c = true :=
    all_isWord_keyword hkeyword c (by rw [hothers]; exact List.mem_cons_self)
  rw [hothers, List.cons_append, List.cons_append] at hsame ⊢
  exact exists_lead_of_word (all_isWord_keyword hearlier) hgap' hne hlast hc hsame

/-- A keyword that stands inside an earlier declaration is the end of the name there. -/
theorem exists_lead {earlier : String} {opening opening' taken value behind : List Char}
    (hopening : IsKeywordGap keyword opening) (hopening' : IsKeywordGap earlier opening')
    (hvalue : ∀ c ∈ value, inName c = true) (hbehind : Stops inName behind) (hne : taken ≠ [])
    (hlast : ∀ c ∈ taken.getLast?, isWord c = false)
    (hsame : taken ++ (opening ++ rest) = opening' ++ (value ++ behind))
    (hlength : taken.length < opening'.length + value.length) :
    ∃ lead, taken = opening' ++ lead ∧ value = lead ++ keyword.toList := by
  obtain ⟨lead, rfl, hrest⟩ := exists_lead_of_inside hopening hopening' hne hlast hsame
  obtain ⟨hkeyword, gap, rfl, hgapne, hgap⟩ := hopening
  obtain ⟨others, hlead, -⟩ | ⟨others, rfl, hothers⟩ := List.append_eq_append_iff.mp hrest
  · rw [List.length_append, hlead, List.length_append] at hlength
    omega
  · have hinName : ∀ c ∈ keyword.toList, inName c = true := by
      intro c hc
      rw [inName, all_isWord_keyword hkeyword c hc, Bool.true_or]
    have hstops := stops_of_gap hgapne (fun c hc => inName_eq_false_of_isBlank (hgap c hc)) rest
    rw [List.append_assoc] at hothers
    obtain ⟨rfl, -⟩ := append_inj_of_stops hinName hstops
      (fun c hc => hvalue c (List.mem_append_right lead hc)) hbehind hothers
    exact ⟨lead, rfl, rfl⟩

/-- Where a keyword stands in front of a name, the name is declared, or the keyword is the end of the
name of an earlier declaration. -/
theorem mem_declared_or_endsDeclared (h : DeclaresAt keyword name front rest) :
    name ∈ declared (front ++ rest) ∨ EndsDeclared keyword front rest := by
  obtain ⟨hbefore, hname, opening, behind, rfl, hopening, hstops⟩ := h
  have hread := variableReader_eq_some_iff.mpr
    ⟨hbefore, hname, keyword, opening, behind, rfl, hopening, hstops, rfl⟩
  have hrest : opening ++ (name ++ behind) ≠ [] := by
    obtain ⟨hkeyword, gap, rfl, -, -⟩ := hopening
    simp [keyword_ne_nil hkeyword]
  obtain hfound | ⟨finding, hfinding, taken, hne, rfl, hcovered⟩ :=
    Reader.mem_findings_or_covered hrest hread
  · exact .inl (mem_declared_iff.mpr ⟨_, hfound, rfl⟩)
  · obtain ⟨later, htext, -, hread'⟩ := Reader.exists_of_mem_findings hfinding
    obtain ⟨-, ⟨-, hvalue⟩, earlier, opening', behind', rfl, hopening', hstops', hlength⟩ :=
      variableReader_eq_some_iff.mp hread'
    rw [List.append_assoc] at htext
    rw [List.getLast?_append_of_ne_nil _ hne] at hbefore
    obtain ⟨lead, htaken, hlead⟩ := exists_lead hopening hopening' hvalue hstops' hne hbefore
      (List.append_cancel_left htext) (hlength ▸ hcovered)
    exact .inr ⟨finding, hfinding, earlier, opening', lead, by rw [htaken], hopening', hlead⟩

/-- A name behind a keyword is declared, unless the keyword is the end of the name of an earlier
declaration. Each name is declared once, and the names are in the order in which they are first
found. -/
theorem declared_complete (text : List Char) :
    (∀ keyword name front rest, text = front ++ rest → DeclaresAt keyword name front rest →
      ¬ EndsDeclared keyword front rest → name ∈ declared text) ∧
    (declared text).Nodup ∧
    (∀ name, name ∈ declared text ↔
      ∃ finding ∈ variableReader.findings text, finding.value = name) ∧
    (declared text).Pairwise fun first second =>
      ∃ finding ∈ variableReader.findings text, finding.value = first ∧
        ∀ later ∈ variableReader.findings text, later.value = second →
          finding.front.length < later.front.length := by
  refine ⟨?_, Reader.nodup_eraseDups_scan text, fun name => mem_declared_iff, ?_⟩
  · rintro keyword name front rest rfl hdeclares hfree
    exact (mem_declared_or_endsDeclared hdeclares).resolve_right hfree
  · exact (Reader.pairwise_eraseDups_scan text).imp And.right

/-- The second keyword is a name here, and the third one declares. -/
theorem declared_complete_threeKeywords :
    DeclaresAt "let" "x".toList "const const\n".toList "let x = 1;".toList ∧
      ¬ EndsDeclared "let" "const const\n".toList "let x = 1;".toList ∧
      "x".toList ∈ declared "const const\nlet x = 1;".toList := by
  have hdeclares : DeclaresAt "let" "x".toList "const const\n".toList "let x = 1;".toList :=
    ⟨by simp [isWord], by decide, "let ".toList, " = 1;".toList, by decide,
      ⟨by decide, [' '], by decide, by decide, all_isBlank_space⟩, stops_cons.mpr (by decide)⟩
  have hfree : ¬ EndsDeclared "let" "const const\n".toList "let x = 1;".toList := by
    rintro ⟨finding, hfinding, earlier, opening, lead, -, -, hvalue⟩
    have hnone : ∀ finding ∈ variableReader.findings
        ("const const\n".toList ++ "let x = 1;".toList), ¬ "let".toList <:+ finding.value := by
      decide
    exact hnone finding hfinding ⟨lead, hvalue.symm⟩
  exact ⟨hdeclares, hfree, (declared_complete _).1 _ _ _ _ (by decide) hdeclares hfree⟩

/-- A keyword in a comment takes the keyword on the next line for its name. -/
theorem declaresAt_not_declared :
    DeclaresAt "let" "x".toList "// a const\n".toList "let x = 1;".toList ∧
      "x" ∉ variableKeywords ∧ "x".toList ∉ declared "// a const\nlet x = 1;".toList := by
  refine ⟨⟨by simp [isWord], by decide, "let ".toList, " = 1;".toList, by decide,
    ⟨by decide, [' '], by decide, by decide, all_isBlank_space⟩, stops_cons.mpr (by decide)⟩, ?_, ?_⟩
  · decide
  · decide

end SourceMetrics.Names
