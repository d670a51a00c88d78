import SourceMetrics.Glob.Nesting
import SourceMetrics.Proofs.Glob.Algebra
import SourceMetrics.Proofs.Glob.Resolution

/-! # Globs with stars behind them

What a glob matches when stars, and a slash and stars, are put behind its text: what it matched
before, and any text behind that.

* `rowOf_resolve_append`: the pieces of a row of symbols with others behind it.
* `language_append_stars`: two stars behind a slash.
* `language_append_star`: a star, or a star and a segment of two stars, behind anything else.
* `rowDepth_append_loose`: how deep the glob then lies.
-/

namespace SourceMetrics.Glob

set_option autoImplicit false

open Glob.Symbol

/-- The glob that a row of symbols stands for. -/
def ofSymbols (symbols : List Symbol) : Glob :=
  ofRow (rowOf (resolve symbols))

theorem parse?_eq_ok {text : List Char} {glob : Glob} :
    parse? text = .ok glob ↔ ∃ symbols, Reads 0 text symbols 0 ∧ glob = ofSymbols symbols := by
  constructor
  · intro h
    cases hread : read text with
    | error fault => simp [parse?, hread, Except.map] at h
    | ok symbols =>
      simp only [parse?, hread, Except.map, Except.ok.injEq] at h
      exact ⟨symbols, reads_of_read hread, h.symm⟩
  · rintro ⟨symbols, hreads, rfl⟩
    rw [parse?, hreads.read_eq]
    rfl

/-! ## Rows one behind the other -/

def EndsInSlash (symbols : List Symbol) : Prop :=
  ∃ symbol, symbols.getLast? = some symbol ∧ IsSlash symbol

/-- What may be kept back behind some symbols, the pieces in front of which have been settled. -/
def KeptBehind (symbols : List Symbol) (pieces : List Piece) (held : Before) : Prop :=
  symbols = [] ∧ pieces = [] ∧ held = .start ∨
    EndsInSlash symbols ∧
      (∃ part, held = .held part ∧ IsCrossing part ∧ (part = .leading → pieces = [])) ∨
    symbols ≠ [] ∧ ¬ EndsInSlash symbols ∧ held = .other

/-- The pieces of a row that does not end in a star do not depend on what stands behind it. -/
theorem rowOf_resolve_append {symbols : List Symbol} (hnests : Nests 0 symbols 0)
    (hend : symbols.getLast? ≠ some (.atom .star)) :
    ∃ pieces held, KeptBehind symbols pieces held ∧ ∀ later, Nests 0 later 0 →
      rowOf (resolve (symbols ++ later)) = pieces ++ rowOf (resolveFrom 0 held later) := by
  obtain ⟨out, held, h⟩ := exists_settles hnests hend .start
  refine ⟨rowOf out, held, ?_, fun later hlater => ?_⟩
  · cases hlast : symbols.getLast? with
    | none =>
      obtain rfl := List.getLast?_eq_none_iff.mp hlast
      obtain ⟨rfl, rfl⟩ := h.nil rfl
      exact .inl ⟨rfl, rfl, rfl⟩
    | some symbol =>
      have hne : symbols ≠ [] := by
        rintro rfl
        simp at hlast
      obtain ⟨hslash, hother⟩ := h.last rfl symbol hlast
      by_cases his : IsSlash symbol
      · obtain ⟨part, rfl, hpart⟩ := hslash his
        refine .inr (.inl ⟨⟨symbol, hlast, his⟩, part, rfl, hpart, ?_⟩)
        rintro rfl
        obtain ⟨-, -, rfl⟩ := h.leading rfl rfl
        rfl
      · refine .inr (.inr ⟨hne, ?_, (hother his).1⟩)
        rintro ⟨last, hlast', his'⟩
        rw [hlast, Option.some.injEq] at hlast'
        exact his (hlast' ▸ his')
  · rw [resolve, h.resolve, rowOf_append h.nests (nests_resolveFrom 0 held later hlater)]

/-! ## Stars behind a glob -/

/-- Two stars in place of a slash, or of what has become of it, let any text stand behind it. -/
theorem language_closing {pieces : List Piece} {part : Atom} (hpart : IsCrossing part)
    (hpieces : part = .leading → pieces = []) :
    (ofRow (pieces ++ [.atom (closing part)])).language =
      rowLanguage (pieces ++ [.atom part]) * ⊤ := by
  by_cases hleading : part = .leading
  · subst hleading
    rw [hpieces rfl, List.nil_append, List.nil_append, rowLanguage_single, leading_mul_top]
    exact rowLanguage_single .anything
  · have htrailing : closing part = .trailing := by
      cases part <;> first | rfl | exact absurd rfl hleading
    have hmul : part.language * ⊤ = Atom.trailing.language := by
      rcases hpart with rfl | rfl | rfl
      · exact trailing_eq.symm
      · exact absurd rfl hleading
      · exact between_mul_top
    rw [htrailing, ofRow_language, rowLanguage_append, rowLanguage_append, rowLanguage_single,
      rowLanguage_single, mul_assoc, hmul]
    intro hrow
    cases pieces <;> simp at hrow

theorem language_append_stars {symbols : List Symbol} (hnests : Nests 0 symbols 0)
    (hslash : EndsInSlash symbols) :
    (ofSymbols (symbols ++ [.atom .star, .atom .star])).language =
      (ofSymbols symbols).language * ⊤ := by
  have hend : symbols.getLast? ≠ some (.atom .star) := by
    obtain ⟨symbol, hlast, hsymbol⟩ := hslash
    rintro hstar
    rw [hlast, Option.some.injEq] at hstar
    subst hstar
    simp [IsSlash] at hsymbol
  obtain ⟨pieces, held, hkept, hrow⟩ := rowOf_resolve_append hnests hend
  rcases hkept with ⟨rfl, -, -⟩ | ⟨-, part, rfl, hpart, hpieces⟩ | ⟨-, hno, -⟩
  · obtain ⟨symbol, hlast, -⟩ := hslash
    simp at hlast
  · have hold := hrow [] (.nil 0)
    rw [List.append_nil] at hold
    rw [ofSymbols, ofSymbols, ofRow_mul_top, hold, hrow _ (by simp)]
    exact language_closing hpart hpieces
  · exact absurd hslash hno

theorem language_stars : (ofSymbols [.atom .star, .atom .star]).language = ⊤ :=
  rowLanguage_single .anything

theorem language_stars_mul_top {symbols : List Symbol} (hnests : Nests 0 symbols 0)
    (hsymbols : symbols = [] ∨ EndsInSlash symbols) :
    (ofSymbols (symbols ++ [.atom .star, .atom .star])).language * ⊤ =
      (ofSymbols (symbols ++ [.atom .star, .atom .star])).language := by
  rcases hsymbols with rfl | hslash
  · rw [List.nil_append, language_stars, top_mul_top]
  · rw [language_append_stars hnests hslash, mul_assoc, top_mul_top]

theorem language_star_or (pieces : List Piece) :
    (ofRow (pieces ++ [.atom .star])).language +
        (ofRow (pieces ++ [.atom .star, .atom .trailing])).language =
      rowLanguage pieces * ⊤ := by
  rw [ofRow_language, ofRow_language, rowLanguage_append, rowLanguage_append, rowLanguage_single,
    rowLanguage_atom, rowLanguage_single, ← mul_add, star_add_star_mul_trailing]
  all_goals
    intro hrow
    cases pieces <;> simp at hrow

/-- Where nothing is kept back, a star stays a star. -/
theorem language_append_star_of_release {symbols : List Symbol} {pieces : List Piece}
    {held : Before} (hheld : held = .start ∨ held = .other)
    (hrow : ∀ later, Nests 0 later 0 →
      rowOf (resolve (symbols ++ later)) = pieces ++ rowOf (resolveFrom 0 held later)) :
    (ofSymbols (symbols ++ [.atom .star])).language +
        (ofSymbols (symbols ++ [.atom .star, .slash, .atom .star, .atom .star])).language =
      (ofSymbols symbols).language * ⊤ := by
  have hold : rowOf (resolve symbols) = pieces := by
    rw [← List.append_nil symbols, hrow [] (.nil 0)]
    rcases hheld with rfl | rfl <;> exact List.append_nil pieces
  have hstar : rowOf (resolve (symbols ++ [.atom .star])) = pieces ++ [.atom .star] := by
    rw [hrow _ (by simp)]
    rcases hheld with rfl | rfl <;> rfl
  have hlonger : rowOf (resolve (symbols ++ [.atom .star, .slash, .atom .star, .atom .star])) =
      pieces ++ [.atom .star, .atom .trailing] := by
    rw [hrow _ (by simp)]
    rcases hheld with rfl | rfl <;> rfl
  rw [ofSymbols, ofSymbols, ofSymbols, ofRow_mul_top, hold, hstar, hlonger]
  exact language_star_or pieces

/-- Behind a star, a further one makes up two stars with it. -/
theorem language_append_star_of_star {symbols : List Symbol} (hnests : Nests 0 symbols 0)
    (hend : symbols.getLast? ≠ some (.atom .star)) :
    (ofSymbols (symbols ++ [.atom .star, .atom .star])).language +
        (ofSymbols
          (symbols ++ [.atom .star, .atom .star, .slash, .atom .star, .atom .star])).language =
      (ofSymbols (symbols ++ [.atom .star])).language * ⊤ := by
  obtain ⟨pieces, held, hkept, hrow⟩ := rowOf_resolve_append hnests hend
  rw [ofSymbols, ofSymbols, ofSymbols, ofRow_mul_top, hrow _ (by simp), hrow _ (by simp),
    hrow _ (by simp)]
  rcases hkept with ⟨-, rfl, rfl⟩ | ⟨-, part, rfl, hpart, hpieces⟩ | ⟨-, -, rfl⟩
  · have hall : (ofRow ([] ++ [.atom .leading])).language = ⊤ := rowLanguage_single .anything
    have hnew : rowOf (resolveFrom 0 .start [.atom .star, .atom .star]) = [.atom .leading] := rfl
    have hlonger : rowOf (resolveFrom 0 .start
        [.atom .star, .atom .star, .slash, .atom .star, .atom .star]) = [.atom .leading] := rfl
    have hold : rowOf (resolveFrom 0 .start [.atom .star]) = [.atom .star] := rfl
    rw [hnew, hlonger, hold, hall, add_idem, List.nil_append, rowLanguage_single, star_mul_top]
  · have hclosing : closing (crossing part) = closing part := by cases part <;> rfl
    have hnew : rowOf (resolveFrom 0 (.held part) [.atom .star, .atom .star]) =
        [.atom (closing part)] := rfl
    have hlonger : rowOf (resolveFrom 0 (.held part)
        [.atom .star, .atom .star, .slash, .atom .star, .atom .star]) =
          [.atom (closing (crossing part))] := rfl
    have hold : rowOf (resolveFrom 0 (.held part) [.atom .star]) = [.atom part, .atom .star] := rfl
    have hmore : rowLanguage [.atom part, .atom .star] * ⊤ = rowLanguage [.atom part] * ⊤ := by
      rw [rowLanguage_atom, rowLanguage_single, rowLanguage_single, mul_assoc, star_mul_top]
    rw [hnew, hlonger, hold, hclosing, add_idem, language_closing hpart hpieces, rowLanguage_append,
      rowLanguage_append, mul_assoc, mul_assoc, hmore]
  · have hnew : rowOf (resolveFrom 0 .other [.atom .star, .atom .star]) =
        [.atom .star] ++ [.atom .star] := rfl
    have hlonger : rowOf (resolveFrom 0 .other
        [.atom .star, .atom .star, .slash, .atom .star, .atom .star]) =
          [.atom .star] ++ [.atom .star, .atom .trailing] := rfl
    have hold : rowOf (resolveFrom 0 .other [.atom .star]) = [.atom .star] := rfl
    rw [hnew, hlonger, hold, ← List.append_assoc, ← List.append_assoc, language_star_or]

/-- Whatever a row of symbols ends in, a slash and two stars apart, a star behind it, or a star and
a segment of two stars, lets any text stand behind it. -/
theorem language_append_star {symbols : List Symbol} (hnests : Nests 0 symbols 0)
    (hslash : ¬ EndsInSlash symbols)
    (hstars : ∀ front, symbols ≠ front ++ [.atom .star, .atom .star]) :
    (ofSymbols (symbols ++ [.atom .star])).language +
        (ofSymbols (symbols ++ [.atom .star, .slash, .atom .star, .atom .star])).language =
      (ofSymbols symbols).language * ⊤ := by
  -- a star at the end is not settled: it fuses with the star behind it
  by_cases hlast : symbols.getLast? = some (.atom .star)
  · obtain ⟨front, rfl⟩ := List.getLast?_eq_some_iff.mp hlast
    have hfront : front.getLast? ≠ some (.atom .star) := by
      intro hfront
      obtain ⟨shorter, rfl⟩ := List.getLast?_eq_some_iff.mp hfront
      exact hstars shorter (by rw [List.append_assoc]; rfl)
    obtain ⟨middle, hnests, hmiddle⟩ := hnests.split
    rw [nests_cons_atom, nests_nil] at hmiddle
    subst hmiddle
    rw [List.append_assoc, List.append_assoc]
    exact language_append_star_of_star hnests hfront
  · obtain ⟨pieces, held, hkept, hrow⟩ := rowOf_resolve_append hnests hlast
    rcases hkept with ⟨-, -, hheld⟩ | ⟨hends, -⟩ | ⟨-, -, hheld⟩
    · exact language_append_star_of_release (.inl hheld) hrow
    · exact absurd hends hslash
    · exact language_append_star_of_release (.inr hheld) hrow

/-! ## Nesting -/

theorem Atom.depth_le (part : Atom) : part.depth ≤ 4 := by
  cases part with
  | set _ ranges =>
    rw [Atom.depth]
    split <;> omega
  | _ => simp [Atom.depth]

theorem rowDepth_append (row later : List Piece) :
    rowDepth (row ++ later) = max (rowDepth row) (rowDepth later) := by
  induction row with
  | nil => rw [List.nil_append, rowDepth, Nat.zero_max]
  | cons piece row ih => rw [List.cons_append, rowDepth, rowDepth, ih, Nat.max_assoc]

theorem max_rowDepth_ofRow (row : List Piece) :
    max 4 (rowDepth (ofRow row).pieces) = max 4 (rowDepth row) := by
  unfold ofRow
  split <;> rfl

theorem rowDepth_atoms {symbols : List Symbol} (h : ∀ symbol ∈ symbols, ∃ part, symbol = .atom part) :
    Nests 0 symbols 0 ∧ rowDepth (rowOf symbols) ≤ 4 := by
  induction symbols with
  | nil => exact ⟨.nil 0, Nat.zero_le 4⟩
  | cons symbol symbols ih =>
    obtain ⟨part, rfl⟩ := h symbol List.mem_cons_self
    obtain ⟨hnests, hdepth⟩ := ih fun other hother => h other (List.mem_cons_of_mem _ hother)
    refine ⟨nests_cons_atom.mpr hnests, ?_⟩
    rw [rowOf_cons_atom part hnests, rowDepth, Piece.depth]
    exact Nat.max_le.mpr ⟨part.depth_le, hdepth⟩

/-- Symbols that a widened glob has more than the glob itself. -/
def IsLoose (symbols : List Symbol) : Prop :=
  ∀ symbol ∈ symbols, symbol = .atom .star ∨ symbol = .slash

theorem nests_loose {symbols : List Symbol} (h : IsLoose symbols) {depth after : Nat} :
    Nests depth symbols after ↔ depth = after := by
  induction symbols with
  | nil => exact nests_nil
  | cons symbol symbols ih =>
    obtain ⟨hsymbol, hrest⟩ := List.forall_mem_cons.mp h
    rcases hsymbol with rfl | rfl
    · rw [nests_cons_atom, ih hrest]
    · rw [nests_cons_slash, ih hrest]

theorem atom_of_mem_release {before : Before} {symbol : Symbol} (h : symbol ∈ before.release) :
    ∃ part, symbol = .atom part := by
  cases before with
  | held part => exact ⟨part, List.mem_singleton.mp h⟩
  | _ => simp [Before.release] at h

theorem resolveFrom_atoms (depth : Nat) (before : Before) {symbols : List Symbol}
    (h : IsLoose symbols) : ∀ symbol ∈ resolveFrom depth before symbols, ∃ part,
      symbol = .atom part := by
  have hrelease (before : Before) : ∀ symbol ∈ before.release, ∃ part, symbol = .atom part :=
    fun _ => atom_of_mem_release
  induction depth, before, symbols using resolveFrom.induct with
  | case1 depth before => exact hrelease before
  | _ =>
    simp only [IsLoose, List.forall_mem_cons] at h
    simp_all [resolveFrom, IsLoose, or_imp] <;> exact hrelease _

theorem exists_append_stars (symbols : List Symbol) :
    ∃ front stars, symbols = front ++ stars ∧ IsLoose stars ∧
      front.getLast? ≠ some (.atom .star) := by
  induction symbols using List.reverseRecOn with
  | nil => exact ⟨[], [], rfl, by simp [IsLoose], by simp⟩
  | append_singleton symbols symbol ih =>
    by_cases hsymbol : symbol = .atom .star
    · subst hsymbol
      obtain ⟨front, stars, rfl, hstars, hfront⟩ := ih
      refine ⟨front, stars ++ [.atom .star], List.append_assoc .., fun other hother => ?_, hfront⟩
      rcases List.mem_append.mp hother with hother | hother
      · exact hstars other hother
      · exact .inl (List.mem_singleton.mp hother)
    · refine ⟨symbols ++ [symbol], [], (List.append_nil _).symm, by simp [IsLoose], ?_⟩
      rw [List.getLast?_concat]
      simpa using hsymbol

theorem rowDepth_append_loose {symbols later : List Symbol} (hnests : Nests 0 symbols 0)
    (hlater : IsLoose later) :
    rowDepth (ofSymbols (symbols ++ later)).pieces ≤
      max 4 (rowDepth (ofSymbols symbols).pieces) := by
  -- stars at the end may fuse with what stands behind them, so they are counted with it
  obtain ⟨front, stars, rfl, hstars, hfront⟩ := exists_append_stars symbols
  obtain ⟨middle, hnests, hmiddle⟩ := hnests.split
  rw [nests_loose hstars] at hmiddle
  subst hmiddle
  obtain ⟨pieces, held, -, hrow⟩ := rowOf_resolve_append hnests hfront
  have hmore : IsLoose (stars ++ later) := fun symbol hsymbol =>
    (List.mem_append.mp hsymbol).elim (hstars symbol) (hlater symbol)
  have hatoms := (rowDepth_atoms (resolveFrom_atoms 0 held hmore)).2
  have hnew : rowDepth (rowOf (resolve (front ++ stars ++ later))) ≤ max 4 (rowDepth pieces) := by
    rw [List.append_assoc, hrow _ ((nests_loose hmore).mpr rfl), rowDepth_append, Nat.max_comm]
    exact Nat.max_le.mpr ⟨hatoms.trans (Nat.le_max_left ..), Nat.le_max_right ..⟩
  have hold : rowDepth pieces ≤ rowDepth (rowOf (resolve (front ++ stars))) := by
    rw [hrow _ ((nests_loose hstars).mpr rfl), rowDepth_append]
    exact Nat.le_max_left ..
  have hofNew := max_rowDepth_ofRow (rowOf (resolve (front ++ stars ++ later)))
  have hofOld := max_rowDepth_ofRow (rowOf (resolve (front ++ stars)))
  rw [ofSymbols, ofSymbols]
  omega

end SourceMetrics.Glob
