import SourceMetrics.Phrase.Scan
import SourceMetrics.Proofs.Phrase.Taking
import SourceMetrics.Proofs.Respelling.Text

/-! # Scanning a text that is spelt otherwise

A reader that begins nowhere at a line feed or a byte order mark, and that reads a text with carriage
returns as it reads the text without them, finds the same in both. For a phrase this can be told
from its parts, one by one.

* `scanFrom_withReturns`: the induction is on the text; what is already covered grows by the carriage
  returns in it.
* `scan_respell`: the findings in a text that is spelt otherwise.
* `count_respell`: a steady phrase is found as often as before. -/

namespace SourceMetrics

set_option autoImplicit false

open Text

namespace Reader

variable {α : Type} {reader : Reader α} {f : α → α}

/-- A reader reads what it reads in a text with carriage returns as well, its value spelt otherwise
by `f`. Of the character in front of a place it asks only whether it is a word character. -/
structure IsSteady (reader : Reader α) (f : α → α) : Prop where
  lineFeed : ∀ before rest, reader before ('\n' :: rest) = none
  mark : ∀ before rest, reader before (byteOrderMark :: rest) = none
  before : ∀ {before before' : Option Char} (text : List Char),
    before.any isWord = before'.any isWord → reader before text = reader before' text
  returns : ∀ before text, reader before (withReturns text) =
    (reader before text).map fun found => (f found.1, (withReturns (text.take found.2)).length)

theorem scanFrom_of_none {before : Option Char} {c : Char} {rest : List Char}
    (h : reader before (c :: rest) = none) :
    reader.scanFrom 0 before (c :: rest) = reader.scanFrom 0 (some c) rest := by
  rw [scanFrom, h]

theorem scanFrom_of_some {before : Option Char} {c : Char} {rest : List Char} {value : α}
    {covered : Nat} (h : reader before (c :: rest) = some (value, covered)) :
    reader.scanFrom 0 before (c :: rest) =
      value :: reader.scanFrom (covered - 1) (some c) rest := by
  rw [scanFrom, h]

theorem scanFrom_withReturns (h : reader.IsSteady f) (skip : Nat) (before : Option Char)
    (text : List Char) :
    reader.scanFrom (withReturns (text.take skip)).length before (withReturns text) =
      (reader.scanFrom skip before text).map f := by
  induction text generalizing skip before with
  | nil =>
    rw [List.take_nil]
    rfl
  | cons c rest ih =>
    by_cases hc : c = '\n'
    · subst hc
      rw [withReturns_lineFeed]
      cases skip with
      | zero =>
        -- nothing is found at the line feed, with the carriage return in front or without it
        have hfeed := h.returns before ('\n' :: rest)
        rw [h.lineFeed, withReturns_lineFeed, Option.map_none] at hfeed
        have hrest := ih 0 (some '\n')
        rw [List.take_zero] at hrest ⊢
        rw [scanFrom_of_none (h.lineFeed _ _)]
        exact (scanFrom_of_none hfeed).trans ((scanFrom_of_none (h.lineFeed _ _)).trans hrest)
      | succ skip =>
        rw [List.take_succ_cons, withReturns_lineFeed]
        exact ih skip (some '\n')
    · rw [withReturns_cons hc]
      cases skip with
      | zero =>
        have hhere := h.returns before (c :: rest)
        rw [withReturns_cons hc] at hhere
        cases hread : reader before (c :: rest) with
        | none =>
          rw [hread, Option.map_none] at hhere
          rw [scanFrom_of_none hread]
          exact (scanFrom_of_none hhere).trans (ih 0 (some c))
        | some found =>
          obtain ⟨value, covered⟩ := found
          rw [hread, Option.map_some] at hhere
          have hcovered : (withReturns ((c :: rest).take covered)).length - 1 =
              (withReturns (rest.take (covered - 1))).length := by
            cases covered with
            | zero => rfl
            | succ covered =>
              rw [List.take_succ_cons, withReturns_cons hc]
              rfl
          rw [scanFrom_of_some hread, List.map_cons, ← ih, ← hcovered]
          exact scanFrom_of_some hhere
      | succ skip =>
        rw [List.take_succ_cons, withReturns_cons hc]
        exact ih skip (some c)

theorem scanFrom_before (h : reader.IsSteady f) {before before' : Option Char}
    (hbefore : before.any isWord = before'.any isWord) (text : List Char) :
    reader.scanFrom 0 before text = reader.scanFrom 0 before' text := by
  cases text with
  | nil => rfl
  | cons c rest => rw [scanFrom, scanFrom, h.before _ hbefore]

/-- A text spelt otherwise holds the same findings. -/
theorem scan_respell (h : reader.IsSteady f) (returns mark : Bool) (text : List Char) :
    reader.scan (respell returns mark text) = (reader.scan text).map (if returns then f else id) := by
  have hreturns : reader.scan (if returns then withReturns text else text) =
      (reader.scan text).map (if returns then f else id) := by
    cases returns with
    | false => exact (List.map_id _).symm
    | true => exact scanFrom_withReturns h 0 none text
  cases mark with
  | false => exact hreturns
  | true =>
    rw [← hreturns]
    refine (scanFrom_of_none (h.mark _ _)).trans (scanFrom_before h ?_ _)
    decide

end Reader

namespace Phrase

/-- A part that takes both a carriage return and a line feed, wherever it takes one of them. -/
def Part.isSteady : Part → Bool
  | .exact fixed => !fixed.toList.contains '\r' && !fixed.toList.contains '\n'
  | .upTo stop => stop != '\r' && stop != '\n'
  | _ => true

/-- Whether a phrase can take a text that begins with the character. -/
def canBegin (c : Char) : Phrase → Bool
  | .edge :: parts => canBegin c parts
  | .exact fixed :: _ => fixed.toList.head?.all (· == c)
  | .word :: _ => isWord c
  | _ => true

/-- A phrase with steady parts that begins neither at a line feed nor at a byte order mark. -/
def isSteady (phrase : Phrase) : Bool :=
  phrase.all Part.isSteady && !canBegin '\n' phrase && !canBegin byteOrderMark phrase

variable {before : Option Char} {phrase : Phrase} {text : List Char}

theorem front?_eq_none {c : Char} {rest : List Char} (h : canBegin c phrase = false) :
    front? before (c :: rest) phrase = none := by
  fun_induction canBegin c phrase with
  | case1 parts ih =>
    rw [front?, Part.front?]
    split
    · rw [Option.bind_eq_bind, Option.bind_some, List.length_nil, List.drop_zero, List.getLast?_nil,
        Option.none_or, ih h]
      rfl
    · rfl
  | case2 fixed parts =>
    cases hfixed : fixed.toList with
    | nil =>
      rw [hfixed] at h
      cases h
    | cons d front =>
      rw [hfixed] at h
      rw [front?, Part.front?, hfixed, List.isPrefixOf, show (d == c) = false from h]
      rfl
  | case3 parts =>
    rw [front?, Part.front?, run?, List.takeWhile_cons_of_neg (by simp [h])]
    rfl
  | case4 => cases h

theorem run?_withReturns {allowed : Char → Bool} (h : allowed '\r' = allowed '\n') :
    run? allowed (withReturns text) = (run? allowed text).map withReturns := by
  rw [run?, run?, takeWhile_withReturns h]
  cases htake : text.takeWhile allowed with
  | nil => rfl
  | cons c front =>
    obtain ⟨d, others, hothers⟩ :=
      List.exists_cons_of_ne_nil (withReturns_ne_nil (List.cons_ne_nil c front))
    rw [hothers, Option.map_some, hothers]

theorem Part.front?_withReturns {part : Part} (h : part.isSteady = true) :
    part.front? before (withReturns text) = (part.front? before text).map withReturns := by
  cases part with
  | edge =>
    rw [Part.front?, Part.front?, isEdge_withReturns]
    split
    · rfl
    · rfl
  | exact fixed =>
    simp only [isSteady, Bool.and_eq_true, Bool.not_eq_true', List.contains_eq_mem,
      decide_eq_false_iff_not] at h
    rw [Part.front?, Part.front?, isPrefixOf_withReturns h.1 h.2]
    split
    · rw [Option.map_some, withReturns_of_not_mem h.2]
    · rfl
  | blanks => exact congrArg some (takeWhile_withReturns (by decide))
  | gap => exact run?_withReturns (by decide)
  | word => exact run?_withReturns (by decide)
  | upTo stop =>
    simp only [isSteady, Bool.and_eq_true, bne_iff_ne] at h
    have hsame : ('\r' != stop) = ('\n' != stop) := by
      rw [bne_iff_ne.mpr (Ne.symm h.1), bne_iff_ne.mpr (Ne.symm h.2)]
    exact congrArg some (takeWhile_withReturns hsame)

theorem front?_withReturns (h : phrase.all Part.isSteady = true) :
    front? before (withReturns text) phrase = (front? before text phrase).map withReturns := by
  induction phrase generalizing before text with
  | nil => rfl
  | cons part parts ih =>
    rw [List.all_cons, Bool.and_eq_true] at h
    rw [front?, front?, Part.front?_withReturns h.1]
    cases hfirst : part.front? before text with
    | none => rfl
    | some first =>
      obtain ⟨rest, rfl⟩ := Part.front?_prefix hfirst
      simp only [Option.map_some, Option.bind_eq_bind, Option.bind_some]
      rw [withReturns_append, List.drop_left, List.drop_left, getLast?_withReturns, ih h.2]
      cases front? (first.getLast?.or before) rest parts with
      | none => rfl
      | some others => exact congrArg some (withReturns_append first).symm

theorem front?_before {before' : Option Char} (h : before.any isWord = before'.any isWord) :
    front? before text phrase = front? before' text phrase := by
  induction phrase generalizing before before' text with
  | nil => rfl
  | cons part parts ih =>
    have hpart : part.front? before text = part.front? before' text := by
      cases part with
      | edge => rw [Part.front?, Part.front?, isEdge, isEdge, h]
      | _ => rfl
    rw [front?, front?, hpart]
    refine Option.bind_congr fun first _ => ?_
    have hnext : (first.getLast?.or before).any isWord = (first.getLast?.or before').any isWord := by
      cases first.getLast? with
      | none => exact h
      | some c => rfl
    rw [ih hnext]

theorem all_isSteady (h : phrase.isSteady = true) : phrase.all Part.isSteady = true := by
  simp only [isSteady, Bool.and_eq_true] at h
  exact h.1.1

theorem front?_lineFeed {rest : List Char} (h : phrase.isSteady = true) :
    front? before ('\n' :: rest) phrase = none := by
  simp only [isSteady, Bool.and_eq_true, Bool.not_eq_true'] at h
  exact front?_eq_none h.1.2

theorem front?_mark {rest : List Char} (h : phrase.isSteady = true) :
    front? before (byteOrderMark :: rest) phrase = none := by
  simp only [isSteady, Bool.and_eq_true, Bool.not_eq_true'] at h
  exact front?_eq_none h.2

theorem isSteady_reader (h : phrase.isSteady = true) : phrase.reader.IsSteady withReturns where
  lineFeed before rest := by
    rw [reader, front?_lineFeed h]
    rfl
  mark before rest := by
    rw [reader, front?_mark h]
    rfl
  before text hbefore := by
    rw [reader, reader, front?_before hbefore]
  returns before text := by
    rw [reader, reader, front?_withReturns (all_isSteady h)]
    cases hfront : front? before text phrase with
    | none => rfl
    | some front =>
      obtain ⟨rest, rfl⟩ := front?_prefix hfront
      simp only [Option.map_some, List.take_left]

theorem count_respell (h : phrase.isSteady = true) (returns mark : Bool) (text : List Char) :
    phrase.count (respell returns mark text) = phrase.count text := by
  rw [count, count, Reader.scan_respell (isSteady_reader h), List.length_map]

end Phrase

end SourceMetrics
