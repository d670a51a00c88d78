import SourceMetrics.Phrase.Basic
import SourceMetrics.Proofs.Text.Run
import SourceMetrics.Proofs.Text.Word

/-! # What a phrase takes

A phrase takes the front of a text, part by part. One lemma for each kind of part says what it takes
and what must follow.

* `front?_eq_some_iff`: a phrase takes a front of the text.
* `takes_edge`, `takes_exact`, …: the first part of a phrase, and the others behind it. -/

namespace SourceMetrics.Phrase

set_option autoImplicit false

open Text

/-- A phrase takes `taken` where `rest` follows. -/
def Takes (before : Option Char) (phrase : Phrase) (taken rest : List Char) : Prop :=
  front? before (taken ++ rest) phrase = some taken

variable {before : Option Char} {part : Part} {parts phrase : Phrase} {text taken rest : List Char}

theorem run?_eq_some_iff {allowed : Char → Bool} {front : List Char} :
    run? allowed text = some front ↔ text.takeWhile allowed = front ∧ front ≠ [] := by
  rw [run?]
  split
  · rename_i hnone
    constructor
    · intro h
      cases h
    · rintro ⟨rfl, hne⟩
      exact absurd hnone hne
  · rename_i front' hne
    constructor
    · rintro h
      obtain rfl := Option.some.inj h
      exact ⟨rfl, hne⟩
    · rintro ⟨rfl, -⟩
      rfl

theorem Part.front?_prefix {first : List Char} (h : part.front? before text = some first) :
    first <+: text := by
  cases part with
  | edge =>
    rw [Part.front?] at h
    split at h
    · obtain rfl := Option.some.inj h
      exact List.nil_prefix
    · cases h
  | exact fixed =>
    rw [Part.front?] at h
    split at h
    · rename_i hfixed
      obtain rfl := Option.some.inj h
      exact List.isPrefixOf_iff_prefix.mp hfixed
    · cases h
  | blanks =>
    obtain rfl := Option.some.inj h
    exact List.takeWhile_prefix _
  | gap =>
    obtain ⟨rfl, -⟩ := run?_eq_some_iff.mp h
    exact List.takeWhile_prefix _
  | word =>
    obtain ⟨rfl, -⟩ := run?_eq_some_iff.mp h
    exact List.takeWhile_prefix _
  | upTo stop =>
    obtain rfl := Option.some.inj h
    exact List.takeWhile_prefix _

theorem front?_prefix (h : front? before text phrase = some taken) : taken <+: text := by
  induction phrase generalizing before text taken with
  | nil =>
    obtain rfl := Option.some.inj h
    exact List.nil_prefix
  | cons part parts ih =>
    simp only [front?, Option.bind_eq_bind, Option.bind_eq_some_iff, Option.pure_def,
      Option.some.injEq] at h
    obtain ⟨first, hfirst, others, hothers, rfl⟩ := h
    obtain ⟨behind, rfl⟩ := Part.front?_prefix hfirst
    rw [List.drop_left] at hothers
    exact (List.prefix_append_right_inj first).mpr (ih hothers)

/-- A phrase takes a front of the text. -/
theorem front?_eq_some_iff :
    front? before text phrase = some taken ↔
      ∃ rest, text = taken ++ rest ∧ Takes before phrase taken rest := by
  constructor
  · intro h
    obtain ⟨rest, rfl⟩ := front?_prefix h
    exact ⟨rest, rfl, h⟩
  · rintro ⟨rest, rfl, h⟩
    exact h

theorem isSome_front?_iff :
    (front? before text phrase).isSome = true ↔
      ∃ taken rest, text = taken ++ rest ∧ Takes before phrase taken rest := by
  simp only [Option.isSome_iff_exists, front?_eq_some_iff]

theorem takes_nil : Takes before [] taken rest ↔ taken = [] := by
  rw [Takes, front?, Option.some.injEq]
  exact eq_comm

theorem takes_cons :
    Takes before (part :: parts) taken rest ↔
      ∃ first others, taken = first ++ others ∧
        part.front? before (first ++ (others ++ rest)) = some first ∧
        Takes (first.getLast?.or before) parts others rest := by
  rw [Takes, front?]
  simp only [Option.bind_eq_bind, Option.bind_eq_some_iff, Option.pure_def, Option.some.injEq]
  constructor
  · rintro ⟨first, hfirst, others, hothers, rfl⟩
    rw [List.append_assoc, List.drop_left] at hothers
    rw [List.append_assoc] at hfirst
    exact ⟨first, others, rfl, hfirst, hothers⟩
  · rintro ⟨first, others, rfl, hfirst, hothers⟩
    refine ⟨first, by rwa [List.append_assoc], others, ?_, rfl⟩
    rwa [List.append_assoc, List.drop_left]

/-! ## Part by part -/

theorem takes_edge :
    Takes before (.edge :: parts) taken rest ↔
      isEdge before (taken ++ rest) = true ∧ Takes before parts taken rest := by
  rw [takes_cons]
  constructor
  · rintro ⟨first, others, rfl, hfirst, hothers⟩
    rw [Part.front?] at hfirst
    split at hfirst
    · rename_i hedge
      obtain rfl := Option.some.inj hfirst
      exact ⟨hedge, hothers⟩
    · cases hfirst
  · rintro ⟨hedge, hothers⟩
    exact ⟨[], taken, rfl, if_pos hedge, hothers⟩

theorem takes_exact {fixed : String} :
    Takes before (.exact fixed :: parts) taken rest ↔
      ∃ others, taken = fixed.toList ++ others ∧
        Takes (fixed.toList.getLast?.or before) parts others rest := by
  rw [takes_cons]
  constructor
  · rintro ⟨first, others, rfl, hfirst, hothers⟩
    rw [Part.front?] at hfirst
    split at hfirst
    · obtain rfl := Option.some.inj hfirst
      exact ⟨others, rfl, hothers⟩
    · cases hfirst
  · rintro ⟨others, rfl, hothers⟩
    refine ⟨fixed.toList, others, rfl, if_pos ?_, hothers⟩
    exact List.isPrefixOf_iff_prefix.mpr (List.prefix_append _ _)

/-- A run of allowed characters, of any length or of one at least. -/
theorem takes_run (allowed : Char → Bool) (nonempty : Prop)
    (hpart : ∀ first behind, part.front? before (first ++ behind) = some first ↔
      (first ++ behind).takeWhile allowed = first ∧ (nonempty → first ≠ [])) :
    Takes before (part :: parts) taken rest ↔
      ∃ first others, taken = first ++ others ∧ (nonempty → first ≠ []) ∧
        (∀ c ∈ first, allowed c = true) ∧ Stops allowed (others ++ rest) ∧
        Takes (first.getLast?.or before) parts others rest := by
  rw [takes_cons]
  constructor
  · rintro ⟨first, others, rfl, hfirst, hothers⟩
    obtain ⟨htake, hne⟩ := (hpart _ _).mp hfirst
    obtain ⟨hall, hstops⟩ := takeWhile_append_eq_iff.mp htake
    exact ⟨first, others, rfl, hne, hall, hstops, hothers⟩
  · rintro ⟨first, others, rfl, hne, hall, hstops, hothers⟩
    exact ⟨first, others, rfl, (hpart _ _).mpr ⟨takeWhile_append_of_stops hall hstops, hne⟩, hothers⟩

theorem takes_blanks :
    Takes before (.blanks :: parts) taken rest ↔
      ∃ gap others, taken = gap ++ others ∧ (∀ c ∈ gap, isBlank c = true) ∧
        Stops isBlank (others ++ rest) ∧ Takes (gap.getLast?.or before) parts others rest := by
  rw [takes_run isBlank False (by simp [Part.front?])]
  simp

theorem takes_gap :
    Takes before (.gap :: parts) taken rest ↔
      ∃ gap others, taken = gap ++ others ∧ gap ≠ [] ∧ (∀ c ∈ gap, isBlank c = true) ∧
        Stops isBlank (others ++ rest) ∧ Takes (gap.getLast?.or before) parts others rest := by
  rw [takes_run isBlank True (by simp [Part.front?, run?_eq_some_iff])]
  simp

theorem takes_word :
    Takes before (.word :: parts) taken rest ↔
      ∃ name others, taken = name ++ others ∧ name ≠ [] ∧ (∀ c ∈ name, isWord c = true) ∧
        Stops isWord (others ++ rest) ∧ Takes (name.getLast?.or before) parts others rest := by
  rw [takes_run isWord True (by simp [Part.front?, run?_eq_some_iff])]
  simp

theorem takes_upTo {stop : Char} :
    Takes before (.upTo stop :: parts) taken rest ↔
      ∃ inner others, taken = inner ++ others ∧ stop ∉ inner ∧
        Stops (· != stop) (others ++ rest) ∧
        Takes (inner.getLast?.or before) parts others rest := by
  rw [takes_run (· != stop) False (by simp [Part.front?])]
  simp only [false_imp_iff, true_and, bne_iff_ne, ne_eq, List.forall_mem_ne']

/-! ## Runs and what ends them -/

theorem takes_upTo_exact {stop : Char} {fixed : String} (hfixed : fixed.toList = [stop]) :
    Takes before (.upTo stop :: .exact fixed :: parts) taken rest ↔
      ∃ inner others, taken = inner ++ stop :: others ∧ stop ∉ inner ∧
        Takes (some stop) parts others rest := by
  simp only [takes_upTo, takes_exact, hfixed, List.getLast?_singleton, Option.some_or]
  constructor
  · rintro ⟨inner, _, rfl, hinner, -, others, rfl, htakes⟩
    exact ⟨inner, others, rfl, hinner, htakes⟩
  · rintro ⟨inner, others, rfl, hinner, htakes⟩
    exact ⟨inner, _, rfl, hinner, stops_cons.mpr (bne_self_eq_false stop), others, rfl, htakes⟩

variable {fixed : String} {c : Char} {cs : List Char}

theorem takes_blanks_exact (hfixed : fixed.toList = c :: cs) (hblank : isBlank c = false) :
    Takes before (.blanks :: .exact fixed :: parts) taken rest ↔
      ∃ gap others, taken = gap ++ (fixed.toList ++ others) ∧ (∀ d ∈ gap, isBlank d = true) ∧
        Takes fixed.toList.getLast? parts others rest := by
  have hlast : fixed.toList.getLast?.isSome = true := by
    rw [hfixed]
    exact List.getLast?_isSome.mpr (List.cons_ne_nil _ _)
  simp only [takes_blanks, takes_exact, Option.or_of_isSome hlast]
  constructor
  · rintro ⟨gap, _, rfl, hgap, -, others, rfl, htakes⟩
    exact ⟨gap, others, rfl, hgap, htakes⟩
  · rintro ⟨gap, others, rfl, hgap, htakes⟩
    refine ⟨gap, _, rfl, hgap, ?_, others, rfl, htakes⟩
    rw [hfixed]
    exact stops_cons.mpr hblank

/-- A name, perhaps blank characters, and a text that cannot go on with either. -/
theorem takes_word_blanks_exact (hfixed : fixed.toList = c :: cs) (hblank : isBlank c = false)
    (hword : isWord c = false) :
    Takes before (.word :: .blanks :: .exact fixed :: parts) taken rest ↔
      ∃ name gap others, taken = name ++ (gap ++ (fixed.toList ++ others)) ∧ name ≠ [] ∧
        (∀ d ∈ name, isWord d = true) ∧ (∀ d ∈ gap, isBlank d = true) ∧
        Takes fixed.toList.getLast? parts others rest := by
  simp only [takes_word, takes_blanks_exact hfixed hblank]
  constructor
  · rintro ⟨name, _, rfl, hne, hname, -, gap, others, rfl, hgap, htakes⟩
    exact ⟨name, gap, others, rfl, hne, hname, hgap, htakes⟩
  · rintro ⟨name, gap, others, rfl, hne, hname, hgap, htakes⟩
    refine ⟨name, _, rfl, hne, hname, ?_, gap, others, rfl, hgap, htakes⟩
    cases gap with
    | nil =>
      rw [hfixed]
      exact stops_cons.mpr hword
    | cons d gap =>
      exact stops_cons.mpr (isWord_eq_false_of_isBlank (hgap d List.mem_cons_self))

/-- A text of one kind of characters, word characters or others, with an edge in front. -/
theorem takes_keyword {kind : Bool} (hne : fixed.toList ≠ [])
    (hfixed : ∀ c ∈ fixed.toList, isWord c = kind) :
    Takes before (.edge :: .exact fixed :: parts) taken rest ↔
      before.any isWord ≠ kind ∧ ∃ behind, taken = fixed.toList ++ behind ∧
        Takes (fixed.toList.getLast?.or before) parts behind rest := by
  obtain ⟨e, word, hword⟩ := List.exists_cons_of_ne_nil hne
  have he : isWord e = kind := hfixed e (by rw [hword]; exact List.mem_cons_self)
  rw [takes_edge, takes_exact]
  constructor
  · rintro ⟨hedge, behind, rfl, htakes⟩
    rw [hword, List.append_assoc, List.cons_append, isEdge_cons, he] at hedge
    exact ⟨hedge, behind, rfl, htakes⟩
  · rintro ⟨hbefore, behind, rfl, htakes⟩
    refine ⟨?_, behind, rfl, htakes⟩
    rw [hword, List.append_assoc, List.cons_append, isEdge_cons, he]
    exact hbefore

end SourceMetrics.Phrase
