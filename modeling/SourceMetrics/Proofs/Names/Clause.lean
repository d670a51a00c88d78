import SourceMetrics.Names.Binding
import SourceMetrics.Proofs.Names.Runs
import SourceMetrics.Proofs.Respelling.Lines
import SourceMetrics.Proofs.Text.Split

/-! # The names of a clause

A clause in braces names what stands between its commas. When other text stands in front of the brace,
it is joined to the first name, and the names behind the first comma are still there.

* `bareClause_append`: removing braces and the words `* as` piece by piece.
* `clauseNames_namedClause`: the names of a clause.
* `tail_suffix_clauseNames`: the names behind the first comma. -/

namespace SourceMetrics.Names

set_option autoImplicit false

open Text

/-- The names in braces, with commas between them. -/
def namedClause (names : List (List Char)) : List Char :=
  "\x7b ".toList ++ (", ".toList.intercalate names ++ " \x7d".toList)

variable {front rest name : List Char} {names : List (List Char)}

/-! ## Removing braces -/

theorem bareClause_of_forall (h : ∀ c ∈ front, c ≠ '*' ∧ c ≠ '\x7b' ∧ c ≠ '\x7d') :
    bareClause front = front := by
  fun_induction bareClause front with
  | case1 => rfl
  | case2 rest ih => exact absurd rfl (h '*' List.mem_cons_self).1
  | case3 c rest _ hc ih =>
    rw [List.forall_mem_cons] at h
    simp [h.1.2.1, h.1.2.2] at hc
  | case4 c rest _ hc ih =>
    rw [List.forall_mem_cons] at h
    rw [ih h.2]

theorem bareClause_cons {c : Char} (hwords : ∀ others, c = '*' → rest ≠ ' ' :: 'a' :: 's' :: others) :
    bareClause (c :: rest) =
      if c == '\x7b' || c == '\x7d' then bareClause rest else c :: bareClause rest :=
  bareClause.eq_3 c rest hwords

/-- A character that does not go on with the words `* as` parts a clause. -/
theorem bareClause_append {c : Char} (hc : c ∉ " as".toList) (front rest : List Char) :
    bareClause (front ++ c :: rest) = bareClause front ++ bareClause (c :: rest) := by
  -- the words do not reach over the character
  have hbefore : ∀ {front others : List Char}, front ++ c :: rest = ' ' :: 'a' :: 's' :: others →
      ∃ others', front = ' ' :: 'a' :: 's' :: others' := by
    intro front others hsame
    have hparts : front ++ c :: rest = " as".toList ++ others := hsame
    obtain ⟨between, hwords, hbehind⟩ | ⟨others', hfront, -⟩ := List.append_eq_append_iff.mp hparts
    · cases between with
      | nil => exact ⟨[], by rw [← List.append_nil front, ← hwords]; rfl⟩
      | cons d between =>
        obtain ⟨rfl, -⟩ := List.cons.inj hbehind
        exact absurd (hwords ▸ List.mem_append_right front List.mem_cons_self) hc
    · exact ⟨others', hfront⟩
  fun_induction bareClause front with
  | case1 => rfl
  | case2 front ih =>
    rw [← ih]
    rfl
  | case3 d front hwords hd ih =>
    rw [List.cons_append, bareClause_cons, if_pos hd, ih]
    intro others hstar hsame
    obtain ⟨others', hfront⟩ := hbefore hsame
    exact hwords others' hstar hfront
  | case4 d front hwords hd ih =>
    rw [List.cons_append, bareClause_cons, if_neg hd, ih, List.cons_append]
    intro others hstar hsame
    obtain ⟨others', hfront⟩ := hbefore hsame
    exact hwords others' hstar hfront

theorem bareClause_opens (rest : List Char) : bareClause ('\x7b' :: rest) = bareClause rest := by
  rw [bareClause_cons (by simp), if_pos (by decide)]

theorem forall_mem_intercalate {holds : Char → Prop} {separator : List Char}
    (hseparator : ∀ c ∈ separator, holds c) (hnames : ∀ name ∈ names, ∀ c ∈ name, holds c) :
    ∀ c ∈ separator.intercalate names, holds c := by
  induction names with
  | nil => simp
  | cons name names ih =>
    rw [List.forall_mem_cons] at hnames
    cases names with
    | nil =>
      rw [List.intercalate_singleton]
      exact hnames.1
    | cons next names =>
      rw [List.intercalate_cons_cons, List.append_assoc, List.forall_mem_append,
        List.forall_mem_append]
      exact ⟨hnames.1, hseparator, ih hnames.2⟩

/-- Braces and what stands in front of them leave the names and the commas as they are. -/
theorem bareClause_append_namedClause (hnames : ∀ name ∈ names, IsName name) (front : List Char) :
    bareClause (front ++ namedClause names) =
      bareClause front ++ ' ' :: (", ".toList.intercalate names ++ [' ']) := by
  have hinName : ∀ c, inName c = true → c ≠ '*' ∧ c ≠ '\x7b' ∧ c ≠ '\x7d' := fun c hc =>
    ⟨ne_of_inName hc (by decide), ne_of_inName hc (by decide), ne_of_inName hc (by decide)⟩
  have hlisted : ∀ c ∈ ", ".toList.intercalate names, c ≠ '*' ∧ c ≠ '\x7b' ∧ c ≠ '\x7d' :=
    forall_mem_intercalate (by simp) fun name hname c hc => hinName c ((hnames name hname).2 c hc)
  have hinner : ∀ c ∈ ' ' :: (", ".toList.intercalate names ++ [' ']),
      c ≠ '*' ∧ c ≠ '\x7b' ∧ c ≠ '\x7d' := by
    rw [List.forall_mem_cons, List.forall_mem_append]
    exact ⟨by simp, hlisted, by simp⟩
  have hopens : namedClause names =
      '\x7b' :: (' ' :: (", ".toList.intercalate names ++ [' ']) ++ ['\x7d']) := by
    simp [namedClause]
  rw [hopens, bareClause_append (by decide), bareClause_opens, bareClause_append (by decide),
    bareClause_of_forall hinner]
  rw [bareClause_cons (by simp), if_pos (by decide), bareClause, List.append_nil]

/-! ## Names between commas -/

theorem trimEnds_append {lead behind : List Char} (hname : IsName name)
    (hlead : ∀ c ∈ lead, isBlank c = true) (hbehind : ∀ c ∈ behind, isBlank c = true) :
    trimEnds isBlank (lead ++ (name ++ behind)) = name := by
  have hreverse : Stops isBlank (name.reverse) := by
    intro c hc
    exact isBlank_eq_false_of_inName (hname.2 c (List.mem_reverse.mp (List.mem_of_mem_head? hc)))
  rw [trimEnds_eq_rdropWhile, List.dropWhile_append_of_pos hlead,
    dropWhile_of_stops (hname.stops_isBlank behind), rdropWhile_append_of_stops hbehind hreverse]

theorem comma_not_mem {lead behind : List Char} (hlead : ∀ c ∈ lead, isBlank c = true)
    (hname : IsName name) (hbehind : ',' ∉ behind) : ',' ∉ lead ++ (name ++ behind) := by
  intro hmem
  rw [List.mem_append, List.mem_append] at hmem
  obtain hmem | hmem | hmem := hmem
  · exact absurd (hlead ',' hmem) (by decide)
  · exact absurd (hname.2 ',' hmem) (by decide)
  · exact hbehind hmem

theorem split_names (front first next : List Char) (names : List (List Char)) :
    split ',' (front ++ (", ".toList.intercalate (first :: next :: names) ++ [' '])) =
      split ',' (front ++ first) ++
        split ',' ([' '] ++ (", ".toList.intercalate (next :: names) ++ [' '])) := by
  rw [← split_append]
  simp [List.intercalate_cons_cons]

/-- Between blank characters each name stands in a part of its own. -/
theorem map_trimEnds_split {lead first : List Char} (hlead : ∀ c ∈ lead, isBlank c = true)
    (hfirst : IsName first) (hnames : ∀ name ∈ names, IsName name) :
    (split ',' (lead ++ (", ".toList.intercalate (first :: names) ++ [' ']))).map (trimEnds isBlank) =
      first :: names := by
  induction names generalizing lead first with
  | nil =>
    rw [List.intercalate_singleton, split_of_not_mem (comma_not_mem hlead hfirst (by decide)),
      List.map_singleton, trimEnds_append hfirst hlead all_isBlank_space]
  | cons next names ih =>
    rw [List.forall_mem_cons] at hnames
    have hpart := comma_not_mem hlead hfirst List.not_mem_nil
    have hempty : ∀ c ∈ ([] : List Char), isBlank c = true := by simp
    have htrim := trimEnds_append hfirst hlead hempty
    rw [List.append_nil] at hpart htrim
    rw [split_names, List.map_append, ih all_isBlank_space hnames.1 hnames.2, split_of_not_mem hpart,
      List.map_singleton, htrim]
    rfl

theorem filter_isName (hnames : ∀ name ∈ names, IsName name) :
    (names.filter fun name => !name.isEmpty) = names := by
  refine List.filter_eq_self.mpr fun name hname => ?_
  obtain ⟨⟨c, hc, -⟩, -⟩ := hnames name hname
  rw [List.isEmpty_eq_false_iff.mpr (List.ne_nil_of_mem (List.mem_of_mem_head? hc))]
  rfl

/-- The names of a clause. -/
theorem clauseNames_namedClause (hnames : ∀ name ∈ names, IsName name) :
    clauseNames (namedClause names) = names := by
  cases names with
  | nil => decide
  | cons first names =>
    have hbare := bareClause_append_namedClause hnames []
    obtain ⟨hfirst, hothers⟩ := List.forall_mem_cons.mp hnames
    have hparts := map_trimEnds_split all_isBlank_space hfirst hothers
    rw [List.nil_append, bareClause, List.nil_append] at hbare
    rw [List.singleton_append] at hparts
    rw [clauseNames, hbare, hparts, filter_isName hnames]

/-- Text in front of the braces is joined to the first name, and the other names are still there. -/
theorem tail_suffix_clauseNames (front : List Char) (hnames : ∀ name ∈ names, IsName name) :
    names.tail <:+ clauseNames (front ++ namedClause names) := by
  have hbare := bareClause_append_namedClause hnames front
  obtain _ | ⟨first, _ | ⟨next, names⟩⟩ := names
  · exact List.nil_suffix
  · exact List.nil_suffix
  · have hothers := (List.forall_mem_cons.mp hnames).2
    obtain ⟨hnext, hlast⟩ := List.forall_mem_cons.mp hothers
    rw [clauseNames, hbare, List.append_cons, split_names, List.map_append, List.filter_append,
      map_trimEnds_split all_isBlank_space hnext hlast, filter_isName hothers]
    exact List.suffix_append _ _

end SourceMetrics.Names
