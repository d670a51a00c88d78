import SourceMetrics.Proofs.Names.Counts
import SourceMetrics.Proofs.Names.Imported
import SourceMetrics.Proofs.Text.Ends

/-! # Imported entries

What an import statement lists need not be a name: an alias is kept as it stands, and so is whatever else
was written between two commas. But blank characters are trimmed away, braces are removed, and no quote
or semicolon stands in a clause. An entry that is no name is never counted, so it is always reported.

* `isEntry_of_mem_imported`: what every entry looks like.
* `imported_entries`: the entries of a text and which of them are reported. -/

namespace SourceMetrics.Names

set_option autoImplicit false

open Text Phrase

/-- A text with no blank character at its ends and without the characters that part a statement. -/
structure IsEntry (name : List Char) : Prop where
  ne_nil : name ≠ []
  first : ∀ c ∈ name.head?, isBlank c = false
  last : ∀ c ∈ name.getLast?, isBlank c = false
  plain : ∀ c ∈ name, c ∉ [',', '\x7b', '\x7d', '\x27', '"', ';']

variable {text clause name : List Char} {c : Char}

/-! ## From the statement to its entries -/

theorem mem_of_clause? (h : clause? text = some clause) (hc : c ∈ clause) : c ∈ text := by
  simp only [clause?, Option.bind_eq_bind, Option.bind_eq_some_iff, behind?_eq_some_iff,
    run?_eq_some_iff] at h
  obtain ⟨behindFrom, -, rest, hrest, lead, -, hclause⟩ := h
  have hfront : c ∈ rest.reverse.drop lead.length → c ∈ text := by
    intro hmem
    have hbehind : c ∈ text.reverse.drop behindFrom.length := by
      rw [hrest]
      exact List.mem_append_right _ (List.mem_reverse.mp (List.mem_of_mem_drop hmem))
    exact List.mem_reverse.mp (List.mem_of_mem_drop hbehind)
  split at hclause
  · split at hclause
    · obtain rfl := Option.some.inj hclause
      exact absurd hc List.not_mem_nil
    · cases hclause
  · split at hclause
    · obtain rfl := Option.some.inj hclause
      exact hfront (List.mem_of_mem_dropLast hc)
    · cases hclause

theorem mem_of_mem_bareClause (h : c ∈ bareClause clause) : c ∈ clause ∧ c ≠ '\x7b' ∧ c ≠ '\x7d' := by
  fun_induction bareClause clause with
  | case1 => cases h
  | case2 rest ih => exact ⟨List.mem_append_right "* as".toList (ih h).1, (ih h).2⟩
  | case3 d rest _ _ ih => exact ⟨.tail d (ih h).1, (ih h).2⟩
  | case4 d rest _ hd ih =>
    obtain rfl | hrest := List.mem_cons.mp h
    · rw [Bool.or_eq_true, beq_iff_eq, beq_iff_eq, not_or] at hd
      exact ⟨List.mem_cons_self, hd⟩
    · exact ⟨.tail d (ih hrest).1, (ih hrest).2⟩

theorem isEntry_of_mem_clauseNames (hclause : ∀ c ∈ clause, inStatement c = true)
    (h : name ∈ clauseNames clause) : IsEntry name := by
  obtain ⟨hmem, hne⟩ := List.mem_filter.mp h
  obtain ⟨part, hpart, rfl⟩ := List.mem_map.mp hmem
  obtain ⟨hcomma, hbare⟩ := mem_split hpart
  refine ⟨by simpa using hne, stops_trimEnds part, fun c hc => ?_, fun c hc => ?_⟩
  · rw [← List.head?_reverse] at hc
    exact stops_reverse_trimEnds part c hc
  · have hpart := mem_of_mem_trimEnds hc
    obtain ⟨hwhole, hopens, hcloses⟩ := mem_of_mem_bareClause (hbare c hpart)
    have hstatement := hclause c hwhole
    rw [inStatement, isQuote, Bool.and_eq_true, Bool.not_eq_true', Bool.or_eq_false_iff,
      beq_eq_false_iff_ne, beq_eq_false_iff_ne, bne_iff_ne] at hstatement
    obtain ⟨⟨hquote, hdouble⟩, hsemicolon⟩ := hstatement
    have hne : c ≠ ',' := fun hsame => hcomma (hsame ▸ hpart)
    simp [hne, hopens, hcloses, hquote, hdouble, hsemicolon]

theorem isEntry_of_mem_imported (h : name ∈ imported text) : IsEntry name := by
  obtain ⟨finding, hfinding, hname⟩ := mem_imported_iff.mp h
  obtain ⟨behind, -, -, hread⟩ := Reader.exists_of_mem_findings hfinding
  obtain ⟨body, _, _, _, _, -, hbody, hclause, -⟩ := importReader_eq_some_iff.mp hread
  exact isEntry_of_mem_clauseNames (fun c hc => hbody c (mem_of_clause? hclause hc)) hname

/-! ## Reported entries -/

/-- Equal entries have one count, so they are all reported or none of them is. -/
theorem count_unusedImports (text name : List Char) :
    (unusedImports text).count name =
      if countOf text name ≤ 1 then (imported text).count name else 0 := by
  split
  · rename_i hle
    exact List.count_filter (isUnused_iff.mpr hle)
  · rename_i hless
    rw [List.count_eq_zero]
    intro hmem
    exact hless (isUnused_iff.mp (List.mem_filter.mp hmem).2)

/-- The entries of a text, and the reported ones among them: those that are counted once at most, and
with them all that are no names. -/
theorem imported_entries (text : List Char) :
    (∀ name ∈ imported text, IsEntry name) ∧
      unusedImports text = (imported text).filter (fun name => countOf text name ≤ 1) ∧
      (∀ name, (unusedImports text).count name = (imported text).count name ∨
        name ∉ unusedImports text) ∧
      ∀ name ∈ imported text, (∃ c ∈ name, inName c = false) →
        (unusedImports text).count name = (imported text).count name := by
  refine ⟨fun name => isEntry_of_mem_imported, ?_, fun name => ?_, fun name _ hnot => ?_⟩
  · refine List.filter_congr fun name _ => ?_
    rw [Bool.eq_iff_iff, isUnused_iff, decide_eq_true_iff]
  · rw [count_unusedImports]
    split
    · exact .inl rfl
    · rename_i hless
      refine .inr (List.count_eq_zero.mp ?_)
      rw [count_unusedImports, if_neg hless]
  · rw [count_unusedImports, countOf_eq_zero hnot, if_pos (Nat.zero_le 1)]

/-- An alias is imported twice. -/
theorem imported_entries_alias :
    "a as b".toList ∈ imported "import a as b from 'm'; import a as b, c from 'n';".toList ∧
      (∃ c ∈ "a as b".toList, inName c = false) ∧ IsEntry "a as b".toList ∧
      (unusedImports "import a as b from 'm'; import a as b, c from 'n';".toList).count
        "a as b".toList = 2 := by
  have hmem : "a as b".toList ∈ imported "import a as b from 'm'; import a as b, c from 'n';".toList := by
    decide
  have hnot : ∃ c ∈ "a as b".toList, inName c = false := ⟨' ', by decide, by decide⟩
  obtain ⟨hentry, -, -, hreported⟩ :=
    imported_entries "import a as b from 'm'; import a as b, c from 'n';".toList
  exact ⟨hmem, hnot, hentry _ hmem, (hreported _ hmem hnot).trans (by decide)⟩

end SourceMetrics.Names
