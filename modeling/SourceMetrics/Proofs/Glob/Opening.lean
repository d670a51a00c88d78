import SourceMetrics.Proofs.Glob.Extension

/-! # Globs with stars in front of them

What a glob matches when stars and slashes are put in front of its text: any text, and behind it
what the glob matched before.

* `exists_fused`: a part that was kept back and the symbols behind it. What becomes of the part does
  not depend on which part it is.
* `language_opening_slash`: two stars in front of a slash.
* `language_opening_star`: a segment of two stars in front of a star.
* `language_opening_other`: such a segment and a star in front of anything else.
* `leading_mul_language`: a segment of two stars lets any directories stand in front of it. -/

namespace SourceMetrics.Glob

set_option autoImplicit false

open Glob.Symbol

/-! ## What is kept back -/

theorem resolveFrom_ne_nil (depth : Nat) (before : Before) (symbols : List Symbol)
    (h : before.release ≠ []) : resolveFrom depth before symbols ≠ [] := by
  induction depth, before, symbols using resolveFrom.induct with
  | case1 depth before => exact h
  | case4 depth part rest ih => exact ih (by simp [Before.release])
  | _ => simp_all [resolveFrom, Before.release]

theorem emitted_or_held (depth : Nat) (symbol : Symbol) :
    emitted depth symbol ≠ [] ∨ (heldBehind depth symbol).release ≠ [] := by
  cases symbol with
  | atom part =>
    cases part with
    | literal c =>
      rw [emitted, heldBehind]
      split <;> simp [Before.release]
    | _ => simp [emitted]
  | slash => exact .inr (by simp [heldBehind, Before.release])
  | _ => simp [emitted]

theorem isBranchEnd_eq_false {symbol : Symbol} {rest : List Symbol}
    (h : Nests 0 (symbol :: rest) 0) : isBranchEnd (symbol :: rest) = false := by
  cases symbol with
  | comma => simp at h
  | closeGroup => simp at h
  | _ => rfl

theorem getLast?_of_slash {symbols : List Symbol}
    (h : (Symbol.slash :: symbols).getLast? = some (.atom .star)) :
    symbols.getLast? = some (.atom .star) := by
  cases symbols with
  | nil => simp at h
  | cons first symbols => rwa [List.getLast?_cons_cons] at h

/-- What becomes of a part that was kept back: it stays as it is, or two stars replace it. At the
end of a glob nothing is left behind them. -/
def IsFusion {α : Type} (fuse : Atom → Atom) (tail : List α) : Prop :=
  fuse = id ∨ fuse = crossing ∨ fuse = closing ∧ tail = []

theorem crossing_crossing (part : Atom) : crossing (crossing part) = crossing part := by
  cases part <;> rfl

theorem closing_crossing (part : Atom) : closing (crossing part) = closing part := by
  cases part <;> rfl

/-- Behind a part that was kept back, symbols are resolved alike whichever part that is. -/
theorem exists_fused {symbols : List Symbol} (hnests : Nests 0 symbols 0) :
    ∃ fuse tail, IsFusion fuse tail ∧
      (∀ part, resolveFrom 0 (.held part) symbols = .atom (fuse part) :: tail) ∧
      (symbols.getLast? = some (.atom .star) → tail = [] → fuse = closing) := by
  induction hlength : symbols.length using Nat.strongRecOn generalizing symbols with
  | ind length ih =>
    cases symbols with
    | nil => exact ⟨id, [], .inl rfl, fun _ => rfl, by simp⟩
    | cons first rest =>
      by_cases hfirst : first = .atom .star
      · subst hfirst
        cases rest with
        | nil => exact ⟨id, [.atom .star], .inl rfl, fun _ => rfl, by simp⟩
        | cons second rest =>
          by_cases hsecond : second = .atom .star
          · subst hsecond
            cases rest with
            | nil => exact ⟨closing, [], .inr (.inr ⟨rfl, rfl⟩), fun _ => rfl, fun _ _ => rfl⟩
            | cons third rest =>
              by_cases hthird : third = .slash
              · -- the part is replaced, and goes on being kept back
                subst hthird
                simp only [nests_cons_atom, nests_cons_slash] at hnests
                simp only [List.length_cons] at hlength
                obtain ⟨fuse, tail, hfuse, hresolve, hlast⟩ := ih rest.length (by omega) hnests rfl
                refine ⟨fuse ∘ crossing, tail, ?_, fun part => hresolve (crossing part), ?_⟩
                · rcases hfuse with rfl | rfl | ⟨rfl, htail⟩
                  · exact .inr (.inl rfl)
                  · exact .inr (.inl (funext crossing_crossing))
                  · exact .inr (.inr ⟨funext closing_crossing, htail⟩)
                · intro hstar htail
                  rw [List.getLast?_cons_cons, List.getLast?_cons_cons] at hstar
                  rw [hlast (getLast?_of_slash hstar) htail]
                  exact funext closing_crossing
              · refine ⟨id, .atom .star :: .atom .star :: resolveFrom 0 .other (third :: rest),
                  .inl rfl, fun part => ?_, by simp⟩
                rw [resolveFrom_held_stars hthird]
                simp only [nests_cons_atom] at hnests
                rw [isBranchEnd_eq_false hnests, if_neg (by simp)]
                rfl
          · refine ⟨id, .atom .star :: resolveFrom 0 .other (second :: rest), .inl rfl,
              fun part => ?_, by simp⟩
            exact resolveFrom_star hsecond 0 (.held part) rest
      · refine ⟨id, emitted 0 first ++ resolveFrom (depthBehind 0 first) (heldBehind 0 first) rest,
          .inl rfl, fun part => resolveFrom_cons hfirst 0 (.held part) rest, ?_⟩
        intro _ htail
        obtain ⟨hemitted, hrest⟩ := List.append_eq_nil_iff.mp htail
        rcases emitted_or_held 0 first with hne | hne
        · exact absurd hemitted hne
        · exact absurd hrest (resolveFrom_ne_nil _ _ _ hne)

theorem rowOf_ne_nil {symbols : List Symbol} (hnests : Nests 0 symbols 0) (hne : symbols ≠ []) :
    rowOf symbols ≠ [] := by
  cases symbols with
  | nil => exact absurd rfl hne
  | cons symbol rest =>
    cases symbol with
    | atom part =>
      rw [rowOf_cons_atom part (nests_cons_atom.mp hnests)]
      exact List.cons_ne_nil _ _
    | slash =>
      rw [show rowOf (.slash :: rest) = rowOf [.slash] ++ rowOf rest from
        rowOf_append (Level.slash 0).nests (nests_cons_slash.mp hnests)]
      exact List.cons_ne_nil _ _
    | openGroup =>
      -- the group that is opened first is closed somewhere, and is then a piece of the row
      obtain ⟨tops, pieces, hlength, hplaced⟩ := exists_placed (nests_cons_openGroup.mp hnests)
      obtain ⟨top, rfl⟩ := List.length_eq_one_iff.mp hlength
      rw [rowOf, List.foldr_cons, hplaced]
      exact List.cons_ne_nil _ _
    | comma => simp at hnests
    | closeGroup => simp at hnests

theorem exists_fused_row {symbols : List Symbol} (hnests : Nests 0 symbols 0) :
    ∃ fuse row, IsFusion fuse row ∧
      (∀ part, rowOf (resolveFrom 0 (.held part) symbols) = .atom (fuse part) :: row) ∧
      (symbols.getLast? = some (.atom .star) → row = [] → fuse = closing) := by
  obtain ⟨fuse, tail, hfuse, hresolve, hlast⟩ := exists_fused hnests
  have htail : Nests 0 tail 0 := by
    have hheld := nests_resolveFrom 0 (.held .leading) symbols hnests
    rwa [hresolve, nests_cons_atom] at hheld
  refine ⟨fuse, rowOf tail, ?_, fun part => ?_, fun hstar hrow => ?_⟩
  · rcases hfuse with hfuse | hfuse | ⟨hfuse, rfl⟩
    · exact .inl hfuse
    · exact .inr (.inl hfuse)
    · exact .inr (.inr ⟨hfuse, rfl⟩)
  · rw [hresolve, rowOf_cons_atom _ htail]
  · by_cases hempty : tail = []
    · exact hlast hstar hempty
    · exact absurd hrow (rowOf_ne_nil htail hempty)

/-! ## Directories in front -/

theorem id_ne_closing : (id : Atom → Atom) ≠ closing :=
  fun h => nomatch congrFun h .any

theorem crossing_ne_closing : crossing ≠ closing :=
  fun h => nomatch congrFun h .any

theorem IsFusion.leading {α : Type} {fuse : Atom → Atom} {tail : List α} (h : IsFusion fuse tail) :
    fuse .leading = .leading := by
  rcases h with rfl | rfl | ⟨rfl, -⟩ <;> rfl

/-- What leads to a slash and what it stands in front of, without that slash. -/
theorem cons_slash_mem {word : List UInt8} {language : Language UInt8} :
    Path.slash :: word ∈ ⊤ * ((Atom.literal '/').language * language) ↔
      word ∈ Atom.leading.language * language := by
  rw [Language.mem_mul, Language.mem_mul]
  constructor
  · rintro ⟨front, -, _, ⟨_, rfl, rest, hrest, rfl⟩, hword⟩
    cases front with
    | nil =>
      obtain ⟨-, rfl⟩ := List.cons.inj hword
      exact ⟨[], nil_mem_leading, rest, hrest, rfl⟩
    | cons byte front =>
      obtain ⟨-, rfl⟩ := List.cons.inj hword
      exact ⟨front ++ [Path.slash], mem_leading.mpr (.inr ⟨front, rfl⟩), rest, hrest, by simp; rfl⟩
  · rintro ⟨front, hfront, rest, hrest, rfl⟩
    rcases mem_leading.mp hfront with rfl | ⟨front, rfl⟩
    · exact ⟨[], trivial, Path.slash :: rest, ⟨[Path.slash], rfl, rest, hrest, rfl⟩, rfl⟩
    · exact ⟨Path.slash :: front, trivial, Path.slash :: rest,
        ⟨[Path.slash], rfl, rest, hrest, rfl⟩, by simp⟩

/-- Two stars in front of a slash: any text may stand in front of it, and it is at the start of a
path already. -/
theorem language_opening_slash {symbols : List Symbol} (hnests : Nests 0 symbols 0)
    (hlast : symbols.getLast? = some (.atom .star)) {word : List UInt8} :
    word ∈ (ofSymbols (.atom .star :: .atom .star :: .slash :: symbols)).language ↔
      Path.slash :: word ∈ ⊤ * (ofSymbols (.slash :: symbols)).language := by
  obtain ⟨fuse, row, hfuse, hrow, hend⟩ := exists_fused_row hnests
  have hnew : ofSymbols (.atom .star :: .atom .star :: .slash :: symbols) =
      ofRow (.atom .leading :: row) := by
    rw [← hfuse.leading, ← hrow]
    rfl
  have hold : ofSymbols (.slash :: symbols) = ofRow (.atom (fuse (.literal '/')) :: row) := by
    rw [← hrow]
    rfl
  rw [hnew, hold]
  rcases hfuse with rfl | rfl | ⟨rfl, rfl⟩
  · have hne : row ≠ [] := fun hempty => id_ne_closing (hend hlast hempty)
    rw [ofRow_language (by simpa using hne), ofRow_language (by simp), rowLanguage_atom,
      rowLanguage_atom, id, cons_slash_mem]
  · have hne : row ≠ [] := fun hempty => crossing_ne_closing (hend hlast hempty)
    rw [ofRow_language (by simpa using hne), ofRow_language (by simp [crossing]), rowLanguage_atom,
      rowLanguage_atom, crossing, between_eq, mul_assoc, cons_slash_mem, ← mul_assoc,
      leading_mul_leading]
    simp
  · have hall : (ofRow [.atom .leading]).language = ⊤ := rowLanguage_single .anything
    rw [hall, ofRow_language (by simp [closing]), rowLanguage_single, closing, trailing_eq,
      cons_slash_mem, leading_mul_top]
    simp

theorem leading_mul_language {symbols : List Symbol} (hnests : Nests 0 symbols 0) :
    Atom.leading.language *
        (ofSymbols (.atom .star :: .atom .star :: .slash :: symbols)).language =
      (ofSymbols (.atom .star :: .atom .star :: .slash :: symbols)).language := by
  obtain ⟨fuse, row, hfuse, hrow, -⟩ := exists_fused_row hnests
  have hnew : ofSymbols (.atom .star :: .atom .star :: .slash :: symbols) =
      ofRow (.atom .leading :: row) := by
    rw [← hfuse.leading, ← hrow]
    rfl
  rw [hnew]
  rcases ofRow_cases (.atom .leading :: row) with ⟨-, hall⟩ | hofRow
  · rw [hall, leading_mul_top]
  · rw [hofRow, language, rowLanguage_atom, ← mul_assoc, leading_mul_leading]

/-! ## Any text in front -/

theorem resolveFrom_start_eq {symbol : Symbol} (hsymbol : symbol ≠ .atom .star)
    (symbols : List Symbol) :
    resolveFrom 0 .start (symbol :: symbols) = resolveFrom 0 .other (symbol :: symbols) := by
  rw [resolveFrom_cons hsymbol, resolveFrom_cons hsymbol]
  rfl

theorem rowOf_resolveFrom_star {symbol : Symbol} (hsymbol : symbol ≠ .atom .star) (before : Before)
    {symbols : List Symbol} (hnests : Nests 0 (symbol :: symbols) 0) :
    rowOf (resolveFrom 0 before (.atom .star :: symbol :: symbols)) =
      rowOf before.release ++ .atom .star :: rowOf (resolveFrom 0 .other (symbol :: symbols)) := by
  have hrest := nests_resolveFrom 0 .other _ hnests
  rw [resolveFrom_star hsymbol, rowOf_append (nests_release 0 before) (nests_cons_atom.mpr hrest),
    rowOf_cons_atom _ hrest]

theorem rowOf_opening_star {symbol : Symbol} (hsymbol : symbol ≠ .atom .star)
    {symbols : List Symbol} (hnests : Nests 0 (symbol :: symbols) 0) :
    rowOf (resolve (.atom .star :: .atom .star :: .slash :: .atom .star :: symbol :: symbols)) =
      .atom .leading :: .atom .star :: rowOf (resolveFrom 0 .other (symbol :: symbols)) :=
  rowOf_resolveFrom_star hsymbol (.held .leading) hnests

theorem language_leading_star (row : List Piece) :
    (ofRow (.atom .leading :: .atom .star :: row)).language = ⊤ * rowLanguage row := by
  rw [ofRow_language (by simp), rowLanguage_atom, rowLanguage_atom, ← mul_assoc, leading_mul_star]

theorem language_opening_star {symbol : Symbol} (hsymbol : symbol ≠ .atom .star)
    {symbols : List Symbol} (hnests : Nests 0 (symbol :: symbols) 0) :
    (ofSymbols
        (.atom .star :: .atom .star :: .slash :: .atom .star :: symbol :: symbols)).language =
      ⊤ * (ofSymbols (.atom .star :: symbol :: symbols)).language := by
  have hold : rowOf (resolve (.atom .star :: symbol :: symbols)) =
      .atom .star :: rowOf (resolveFrom 0 .other (symbol :: symbols)) :=
    rowOf_resolveFrom_star hsymbol .start hnests
  rw [ofSymbols, ofSymbols, rowOf_opening_star hsymbol hnests, hold, language_leading_star,
    top_mul_ofRow, rowLanguage_atom, ← mul_assoc, top_mul_star]

theorem language_opening_other {symbol : Symbol} (hsymbol : symbol ≠ .atom .star)
    {symbols : List Symbol} (hnests : Nests 0 (symbol :: symbols) 0) :
    (ofSymbols
        (.atom .star :: .atom .star :: .slash :: .atom .star :: symbol :: symbols)).language =
      ⊤ * (ofSymbols (symbol :: symbols)).language := by
  rw [ofSymbols, ofSymbols, rowOf_opening_star hsymbol hnests, language_leading_star,
    top_mul_ofRow, resolve, resolveFrom_start_eq hsymbol]

/-! ## Nesting -/

theorem rowDepth_opening_slash {symbols : List Symbol} (hnests : Nests 0 symbols 0) :
    rowDepth (ofSymbols (.atom .star :: .atom .star :: .slash :: symbols)).pieces ≤
      max 4 (rowDepth (ofSymbols (.slash :: symbols)).pieces) := by
  obtain ⟨fuse, row, -, hrow, -⟩ := exists_fused_row hnests
  have hnew : rowOf (resolve (.atom .star :: .atom .star :: .slash :: symbols)) =
      .atom (fuse .leading) :: row := hrow .leading
  have hold : rowOf (resolve (.slash :: symbols)) = .atom (fuse (.literal '/')) :: row :=
    hrow (.literal '/')
  have hofNew := max_rowDepth_ofRow (.atom (fuse .leading) :: row)
  have hofOld := max_rowDepth_ofRow (.atom (fuse (.literal '/')) :: row)
  have hpart := (fuse .leading).depth_le
  rw [rowDepth, Piece.depth] at hofNew hofOld
  rw [ofSymbols, ofSymbols, hnew, hold]
  omega

theorem rowDepth_leading_star (row : List Piece) :
    rowDepth (ofRow (.atom .leading :: .atom .star :: row)).pieces ≤ max 4 (rowDepth row) := by
  have hofNew := max_rowDepth_ofRow (.atom .leading :: .atom .star :: row)
  have hleading := Atom.leading.depth_le
  have hstar := Atom.star.depth_le
  rw [rowDepth, rowDepth, Piece.depth, Piece.depth] at hofNew
  omega

theorem rowDepth_opening_star {symbol : Symbol} (hsymbol : symbol ≠ .atom .star)
    {symbols : List Symbol} (hnests : Nests 0 (symbol :: symbols) 0) :
    rowDepth (ofSymbols
        (.atom .star :: .atom .star :: .slash :: .atom .star :: symbol :: symbols)).pieces ≤
      max 4 (rowDepth (ofSymbols (.atom .star :: symbol :: symbols)).pieces) := by
  have hold : rowOf (resolve (.atom .star :: symbol :: symbols)) =
      .atom .star :: rowOf (resolveFrom 0 .other (symbol :: symbols)) :=
    rowOf_resolveFrom_star hsymbol .start hnests
  have hnew := rowDepth_leading_star (rowOf (resolveFrom 0 .other (symbol :: symbols)))
  have hofOld := max_rowDepth_ofRow (.atom .star :: rowOf (resolveFrom 0 .other (symbol :: symbols)))
  rw [rowDepth] at hofOld
  rw [ofSymbols, ofSymbols, rowOf_opening_star hsymbol hnests, hold]
  omega

theorem rowDepth_opening_other {symbol : Symbol} (hsymbol : symbol ≠ .atom .star)
    {symbols : List Symbol} (hnests : Nests 0 (symbol :: symbols) 0) :
    rowDepth (ofSymbols
        (.atom .star :: .atom .star :: .slash :: .atom .star :: symbol :: symbols)).pieces ≤
      max 4 (rowDepth (ofSymbols (symbol :: symbols)).pieces) := by
  rw [ofSymbols, ofSymbols, rowOf_opening_star hsymbol hnests, max_rowDepth_ofRow, resolve,
    resolveFrom_start_eq hsymbol]
  exact rowDepth_leading_star _

end SourceMetrics.Glob
