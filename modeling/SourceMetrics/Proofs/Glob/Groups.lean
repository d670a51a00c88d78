import SourceMetrics.Glob.Piece
import SourceMetrics.Proofs.Glob.Reading

/-! # Groups

Which groups a row of symbols opens and closes, and what becomes of it as pieces.

* `Level`, `Nests`: the number of open groups in front of a symbol, or a row of symbols, and behind
  it.
* `exists_placed`: what a row does to the rows behind it. The induction is on the row from its end,
  with one open row on the stack for each group that is still to be opened.
* `rowOf_append`: rows in which each group is closed become pieces one behind the other. -/

namespace SourceMetrics.Glob

set_option autoImplicit false

namespace Symbol

/-! ## Groups -/

/-- The number of open groups in front of a symbol and behind it. -/
inductive Level : Nat → Symbol → Nat → Prop
  | atom (depth : Nat) (part : Atom) : Level depth (.atom part) depth
  | slash (depth : Nat) : Level depth .slash depth
  | openGroup (depth : Nat) : Level depth .openGroup (depth + 1)
  | comma (depth : Nat) : Level (depth + 1) .comma (depth + 1)
  | closeGroup (depth : Nat) : Level (depth + 1) .closeGroup depth

inductive Nests : Nat → List Symbol → Nat → Prop
  | nil (depth : Nat) : Nests depth [] depth
  | cons {depth middle after : Nat} {symbol : Symbol} {symbols : List Symbol} :
      Level depth symbol middle → Nests middle symbols after → Nests depth (symbol :: symbols) after

@[simp] theorem nests_nil {depth after : Nat} : Nests depth [] after ↔ depth = after := by
  constructor
  · intro h
    cases h
    rfl
  · rintro rfl
    exact .nil depth

@[simp] theorem nests_cons_atom {depth after : Nat} {part : Atom} {rest : List Symbol} :
    Nests depth (.atom part :: rest) after ↔ Nests depth rest after := by
  constructor
  · rintro (_ | ⟨⟨⟩, h⟩)
    exact h
  · exact .cons (.atom depth part)

@[simp] theorem nests_cons_slash {depth after : Nat} {rest : List Symbol} :
    Nests depth (.slash :: rest) after ↔ Nests depth rest after := by
  constructor
  · rintro (_ | ⟨⟨⟩, h⟩)
    exact h
  · exact .cons (.slash depth)

@[simp] theorem nests_cons_openGroup {depth after : Nat} {rest : List Symbol} :
    Nests depth (.openGroup :: rest) after ↔ Nests (depth + 1) rest after := by
  constructor
  · rintro (_ | ⟨⟨⟩, h⟩)
    exact h
  · exact .cons (.openGroup depth)

@[simp] theorem nests_cons_comma {depth after : Nat} {rest : List Symbol} :
    Nests depth (.comma :: rest) after ↔ 0 < depth ∧ Nests depth rest after := by
  constructor
  · rintro (_ | ⟨⟨⟩, h⟩)
    exact ⟨Nat.succ_pos _, h⟩
  · rintro ⟨hdepth, h⟩
    obtain ⟨outer, rfl⟩ := Nat.exists_eq_succ_of_ne_zero (by omega : depth ≠ 0)
    exact .cons (.comma outer) h

@[simp] theorem nests_cons_closeGroup {depth after : Nat} {rest : List Symbol} :
    Nests depth (.closeGroup :: rest) after ↔ 0 < depth ∧ Nests (depth - 1) rest after := by
  constructor
  · rintro (_ | ⟨⟨⟩, h⟩)
    exact ⟨Nat.succ_pos _, h⟩
  · rintro ⟨hdepth, h⟩
    obtain ⟨outer, rfl⟩ := Nat.exists_eq_succ_of_ne_zero (by omega : depth ≠ 0)
    exact .cons (.closeGroup outer) h

theorem Nests.append {depth middle after : Nat} {symbols later : List Symbol}
    (h : Nests depth symbols middle) (h' : Nests middle later after) :
    Nests depth (symbols ++ later) after := by
  induction h with
  | nil => exact h'
  | cons hlevel _ ih => exact .cons hlevel (ih h')

theorem Nests.split {depth after : Nat} {symbols later : List Symbol}
    (h : Nests depth (symbols ++ later) after) :
    ∃ middle, Nests depth symbols middle ∧ Nests middle later after := by
  induction symbols generalizing depth with
  | nil => exact ⟨depth, .nil depth, h⟩
  | cons symbol symbols ih =>
    cases h with
    | cons hlevel hrest =>
      obtain ⟨middle, hsymbols, hlater⟩ := ih hrest
      exact ⟨middle, .cons hlevel hsymbols, hlater⟩

theorem Level.nests {depth after : Nat} {symbol : Symbol} (h : Level depth symbol after) :
    Nests depth [symbol] after :=
  .cons h (.nil after)

theorem nests_atom (depth : Nat) (part : Atom) : Nests depth [.atom part] depth :=
  (Level.atom depth part).nests

theorem Token.level {depth after : Nat} {token : List Char} {symbol : Symbol}
    (h : Token depth token symbol after) : Level depth symbol after := by
  cases h <;> constructor

theorem Reads.nests {depth after : Nat} {text : List Char} {symbols : List Symbol}
    (h : Reads depth text symbols after) : Nests depth symbols after := by
  induction h with
  | nil depth => exact .nil depth
  | cons htoken _ ih => exact .cons htoken.level ih

end Symbol

open Glob.Symbol

/-! ## Pieces -/

/-- What placing some symbols does to the rows that stand behind them: it puts a row on top for each
group that is still to be opened, and pieces in front of the first of the rows. -/
theorem exists_placed {depth : Nat} {symbols : List Symbol} (h : Nests depth symbols 0) :
    ∃ tops pieces, tops.length = depth ∧ ∀ row outer, symbols.foldr place (row :: outer) =
      tops ++ ⟨pieces ++ row.branch, row.later⟩ :: outer := by
  generalize hafter : 0 = after at h
  induction h with
  | nil depth =>
    subst hafter
    exact ⟨[], [], rfl, fun row outer => rfl⟩
  | @cons depth middle after symbol symbols hlevel _ ih =>
    obtain ⟨tops, pieces, hlength, hplaced⟩ := ih hafter
    have hcons (row : Row) (outer : List Row) : (symbol :: symbols).foldr place (row :: outer) =
        place symbol (tops ++ ⟨pieces ++ row.branch, row.later⟩ :: outer) := by
      rw [List.foldr_cons, hplaced]
    -- a piece goes to the row on top, and that is the row behind only where no group is open
    cases hlevel with
    | atom _ part =>
      cases tops with
      | nil => exact ⟨[], .atom part :: pieces, hlength, hcons⟩
      | cons top tops => exact ⟨top.add (.atom part) :: tops, pieces, hlength, hcons⟩
    | slash =>
      cases tops with
      | nil => exact ⟨[], .atom (.literal '/') :: pieces, hlength, hcons⟩
      | cons top tops => exact ⟨top.add (.atom (.literal '/')) :: tops, pieces, hlength, hcons⟩
    | openGroup =>
      cases tops with
      | nil => simp at hlength
      | cons inner tops =>
        have hshort : tops.length = depth := by simpa using hlength
        cases tops with
        | nil => exact ⟨[], .group (inner.branch :: inner.later) :: pieces, hshort, hcons⟩
        | cons top tops =>
          exact ⟨top.add (.group (inner.branch :: inner.later)) :: tops, pieces, hshort, hcons⟩
    | comma =>
      cases tops with
      | nil => simp at hlength
      | cons top tops => exact ⟨⟨[], top.branch :: top.later⟩ :: tops, pieces, hlength, hcons⟩
    | closeGroup =>
      exact ⟨⟨[], []⟩ :: tops, pieces, by simp [hlength], hcons⟩

theorem foldr_place {symbols : List Symbol} (h : Nests 0 symbols 0) (row : Row)
    (outer : List Row) :
    symbols.foldr place (row :: outer) = ⟨rowOf symbols ++ row.branch, row.later⟩ :: outer := by
  obtain ⟨tops, pieces, hlength, hplaced⟩ := exists_placed h
  obtain rfl := List.length_eq_zero_iff.mp hlength
  have hrow : rowOf symbols = pieces := by
    rw [rowOf, hplaced]
    simp
  rw [hplaced, hrow, List.nil_append]

theorem rowOf_append {symbols later : List Symbol} (h : Nests 0 symbols 0)
    (h' : Nests 0 later 0) : rowOf (symbols ++ later) = rowOf symbols ++ rowOf later := by
  rw [rowOf, List.foldr_append, foldr_place h', foldr_place h]
  simp

theorem rowOf_cons_atom (part : Atom) {later : List Symbol} (h : Nests 0 later 0) :
    rowOf (.atom part :: later) = .atom part :: rowOf later :=
  rowOf_append (nests_atom 0 part) h

end SourceMetrics.Glob
