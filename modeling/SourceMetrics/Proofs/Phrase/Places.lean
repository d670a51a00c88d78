import Mathlib.Algebra.BigOperators.Group.Finset.Piecewise
import Mathlib.Data.Finset.Card
import SourceMetrics.Phrase.Scan
import SourceMetrics.Proofs.Phrase.Taking

/-! # Places of a text

A scan keeps findings that do not overlap. Where each finding has a mark in the text, and findings
that overlap have the same mark, the scan counts the marks.

* `countPlaces`: the number of places of a text with a property of what stands in front of them and
  behind them.
* `length_scan_eq_card`: the induction is on what is left of the text; the marks still to be counted
  are those of the findings from there on.
* `count_eq_countPlaces`: a phrase that is never found inside a finding of its own.
* `HasStop.count_eq_countPlaces`: a phrase with a stop, behind which no finding begins. -/

namespace SourceMetrics

set_option autoImplicit false

open Text

open Classical in
/-- The number of places of a text with a property of what stands in front of the place and behind
it. -/
noncomputable def Text.countPlaces (text : List Char) (holds : List Char → List Char → Prop) : ℕ :=
  ((Finset.range text.length).filter fun i => holds (text.take i) (text.drop i)).card

theorem Text.countPlaces_congr {text : List Char} {holds holds' : List Char → List Char → Prop}
    (h : ∀ front rest, holds front rest ↔ holds' front rest) :
    countPlaces text holds = countPlaces text holds' := by
  have hsame : holds = holds' := funext₂ fun front rest => propext (h front rest)
  rw [hsame]

theorem Text.countPlaces_nil (holds : List Char → List Char → Prop) : countPlaces [] holds = 0 := by
  rw [countPlaces, List.length_nil, Finset.range_zero, Finset.filter_empty, Finset.card_empty]

open Classical in
/-- The first place is counted by itself. -/
theorem Text.countPlaces_cons (c : Char) (rest : List Char) (holds : List Char → List Char → Prop) :
    countPlaces (c :: rest) holds =
      countPlaces rest (fun front behind => holds (c :: front) behind) +
        if holds [] (c :: rest) then 1 else 0 := by
  simp only [countPlaces, Finset.card_filter, List.length_cons]
  rw [Finset.sum_range_succ']
  rfl

open Classical in
theorem Text.countPlaces_le {text : List Char} {holds holds' : List Char → List Char → Prop}
    (h : ∀ front rest, holds front rest → holds' front rest) :
    countPlaces text holds ≤ countPlaces text holds' := by
  refine Finset.card_le_card fun i hi => ?_
  rw [Finset.mem_filter] at hi ⊢
  exact ⟨hi.1, h _ _ hi.2⟩

namespace Reader

variable {α : Type} {reader : Reader α} {text : List Char}

/-- The reader finds something at a place, and it covers so many characters. -/
def Finds (reader : Reader α) (text : List Char) (i covered : ℕ) : Prop :=
  i < text.length ∧
    ∃ value, reader (text.take i).getLast? (text.drop i) = some (value, covered)

theorem finds_length_iff {front rest : List Char} {c : Char} {m : ℕ}
    (htext : text = front ++ c :: rest) :
    reader.Finds text front.length m ↔ ∃ value, reader front.getLast? (c :: rest) = some (value, m) := by
  rw [Finds, htext, List.take_left, List.drop_left]
  refine and_iff_right ?_
  rw [List.length_append, List.length_cons]
  omega

/-- A number marks a finding that begins at the place or behind it. -/
def MarksFrom (reader : Reader α) (text : List Char) (mark : ℕ → ℕ) (place p : ℕ) : Prop :=
  ∃ i m, place ≤ i ∧ reader.Finds text i m ∧ mark i = p

theorem marksFrom_of_not_finds {mark : ℕ → ℕ} {place p : ℕ}
    (h : ∀ m, ¬ reader.Finds text place m) :
    reader.MarksFrom text mark place p ↔ reader.MarksFrom text mark (place + 1) p := by
  constructor
  · rintro ⟨i, m, hle, hfinds, rfl⟩
    refine ⟨i, m, ?_, hfinds, rfl⟩
    obtain rfl | hless := Nat.eq_or_lt_of_le hle
    · exact absurd hfinds (h m)
    · exact hless
  · rintro ⟨i, m, hle, hfinds, rfl⟩
    exact ⟨i, m, Nat.le_of_succ_le hle, hfinds, rfl⟩

section

variable {mark : ℕ → ℕ}
  (hwithin : ∀ {i j m n}, reader.Finds text i m → reader.Finds text j n → i < j → j < i + m →
    mark j = mark i)
  (hbeyond : ∀ {i j m n}, reader.Finds text i m → reader.Finds text j n → i + m ≤ j →
    mark i ≠ mark j)
include hwithin hbeyond

/-- The findings inside another one share its mark, those behind it have others. -/
theorem marksFrom_of_finds {place covered p : ℕ} (h : reader.Finds text place covered) :
    p ≠ mark place ∧ reader.MarksFrom text mark place p ↔
      reader.MarksFrom text mark (place + covered) p := by
  constructor
  · rintro ⟨hne, i, m, hle, hfinds, rfl⟩
    refine ⟨i, m, ?_, hfinds, rfl⟩
    by_contra hless
    obtain rfl | hafter := Nat.eq_or_lt_of_le hle
    · exact hne rfl
    · exact hne (hwithin h hfinds hafter (Nat.lt_of_not_le hless))
  · rintro ⟨i, m, hle, hfinds, rfl⟩
    exact ⟨(hbeyond h hfinds hle).symm, i, m, Nat.le_of_add_right_le hle, hfinds, rfl⟩

/-- What is still to be scanned holds the findings whose marks are still to be counted. -/
theorem length_scanFrom_eq_card {front rest : List Char} (htext : text = front ++ rest) (skip : ℕ)
    {marks : Finset ℕ}
    (hmarks : ∀ p, p ∈ marks ↔ reader.MarksFrom text mark (front.length + skip) p) :
    (reader.scanFrom skip front.getLast? rest).length = marks.card := by
  induction rest generalizing front skip marks with
  | nil =>
    have hnone : marks = ∅ := by
      refine Finset.eq_empty_of_forall_notMem fun p hp => ?_
      obtain ⟨i, m, hle, hfinds, -⟩ := (hmarks p).mp hp
      have hless := hfinds.1
      rw [htext, List.append_nil] at hless
      omega
    rw [hnone, Finset.card_empty, scanFrom, List.length_nil]
  | cons c rest ih =>
    have hnext : text = (front ++ [c]) ++ rest := by
      rw [htext, List.append_assoc, List.singleton_append]
    have hlength : (front ++ [c]).length = front.length + 1 := by simp
    have hlast : some c = (front ++ [c]).getLast? := by simp
    obtain _ | skip := skip
    · rw [scanFrom]
      cases hread : reader front.getLast? (c :: rest) with
      | none =>
        have hnot : ∀ m, ¬ reader.Finds text front.length m := by
          intro m hfinds
          obtain ⟨value, hvalue⟩ := (finds_length_iff htext).mp hfinds
          rw [hread] at hvalue
          cases hvalue
        simp only
        rw [hlast]
        refine ih hnext 0 fun p => ?_
        rw [hmarks, hlength, Nat.add_zero, Nat.add_zero, marksFrom_of_not_finds hnot]
      | some found =>
        obtain ⟨value, covered⟩ := found
        have hhere : reader.Finds text front.length covered :=
          (finds_length_iff htext).mpr ⟨value, hread⟩
        have hpos : covered ≠ 0 := by
          rintro rfl
          exact hbeyond hhere hhere (Nat.le_refl _) rfl
        have hcovered : (front ++ [c]).length + (covered - 1) = front.length + covered := by omega
        have hmem : mark front.length ∈ marks :=
          (hmarks _).mpr ⟨_, _, Nat.le_refl _, hhere, rfl⟩
        simp only
        rw [hlast, List.length_cons, ← Finset.card_erase_add_one hmem]
        congr 1
        refine ih hnext _ fun p => ?_
        rw [Finset.mem_erase, hmarks, Nat.add_zero, hcovered]
        exact marksFrom_of_finds hwithin hbeyond hhere
    · rw [scanFrom, hlast]
      refine ih hnext skip fun p => ?_
      rw [hmarks, hlength, Nat.add_right_comm, Nat.add_assoc]

end

/-- Where findings that overlap have one mark, and others have another, a scan counts the marks. -/
theorem length_scan_eq_card (mark : ℕ → ℕ)
    (hwithin : ∀ {i j m n}, reader.Finds text i m → reader.Finds text j n → i < j → j < i + m →
      mark j = mark i)
    (hbeyond : ∀ {i j m n}, reader.Finds text i m → reader.Finds text j n → i + m ≤ j →
      mark i ≠ mark j)
    {marks : Finset ℕ} (hmarks : ∀ p, p ∈ marks ↔ ∃ i m, reader.Finds text i m ∧ mark i = p) :
    (reader.scan text).length = marks.card :=
  length_scanFrom_eq_card hwithin hbeyond (show text = [] ++ text from rfl) 0 fun p => by
    simp [hmarks, MarksFrom]

end Reader

namespace Phrase

variable {phrase : Phrase} {text : List Char}

theorem finds_iff {i m : ℕ} :
    phrase.reader.Finds text i m ↔ ∃ front taken rest, text = front ++ (taken ++ rest) ∧
      front.length = i ∧ taken.length = m ∧ taken ++ rest ≠ [] ∧
      Takes front.getLast? phrase taken rest := by
  constructor
  · rintro ⟨hless, value, hvalue⟩
    simp only [reader, Option.map_eq_some_iff, Prod.mk.injEq] at hvalue
    obtain ⟨taken, htaken, rfl, rfl⟩ := hvalue
    obtain ⟨rest, hrest, htakes⟩ := front?_eq_some_iff.mp htaken
    refine ⟨text.take i, taken, rest, ?_, List.length_take_of_le hless.le, rfl, ?_, htakes⟩
    · rw [← hrest, List.take_append_drop]
    · rw [← hrest]
      simpa using hless
  · rintro ⟨front, taken, rest, rfl, rfl, rfl, hne, htakes⟩
    refine ⟨?_, taken, ?_⟩
    · have hpos := List.length_pos_iff.mpr hne
      rw [List.length_append]
      omega
    · rw [List.take_left, List.drop_left, reader, htakes]
      rfl

/-- A finding that begins inside another one parts what that one covers. -/
theorem exists_between {front later taken next rest behind : List Char}
    (h : front ++ (taken ++ rest) = later ++ (next ++ behind))
    (hafter : front.length < later.length) (hwithin : later.length < front.length + taken.length) :
    ∃ covered others, covered ≠ [] ∧ others ≠ [] ∧ later = front ++ covered ∧
      taken = covered ++ others ∧ others ++ rest = next ++ behind := by
  obtain ⟨covered, rfl, hrest⟩ | ⟨covered, rfl, -⟩ := List.append_eq_append_iff.mp h
  · rw [List.length_append] at hafter hwithin
    have hcovered : covered ≠ [] := by
      rintro rfl
      simp at hafter
    obtain ⟨others, rfl, hothers⟩ | ⟨others, rfl, -⟩ := List.append_eq_append_iff.mp hrest.symm
    · have hne : others ≠ [] := by
        rintro rfl
        simp at hwithin
      exact ⟨covered, others, hcovered, hne, rfl, rfl, hothers.symm⟩
    · rw [List.length_append] at hwithin
      omega
  · rw [List.length_append] at hafter
    omega

/-- No finding begins inside another one. -/
def IsApart (phrase : Phrase) : Prop :=
  ∀ before covered others rest, covered ≠ [] → others ≠ [] →
    Takes before phrase (covered ++ others) rest →
    phrase.front? covered.getLast? (others ++ rest) = none

/-- A phrase that is never found inside a finding of its own is counted at every place where it
stands. -/
theorem count_eq_countPlaces (hne : ∀ before taken rest, Takes before phrase taken rest → taken ≠ [])
    (hapart : phrase.IsApart) :
    phrase.count text =
      countPlaces text fun front rest => (phrase.front? front.getLast? rest).isSome = true := by
  have happart : ∀ {i j m n}, phrase.reader.Finds text i m → phrase.reader.Finds text j n → i < j →
      ¬ j < i + m := by
    intro i j m n hfirst hsecond hafter hwithin
    obtain ⟨front, taken, rest, rfl, rfl, rfl, -, htakes⟩ := finds_iff.mp hfirst
    obtain ⟨later, next, behind, htext, rfl, rfl, -, hnext⟩ := finds_iff.mp hsecond
    obtain ⟨covered, others, hcovered, hothers, rfl, rfl, hrest⟩ :=
      exists_between htext hafter hwithin
    have hnone := hapart _ _ _ _ hcovered hothers htakes
    rw [List.getLast?_append_of_ne_nil _ hcovered, Takes, ← hrest, hnone] at hnext
    cases hnext
  have hpos : ∀ {i m}, phrase.reader.Finds text i m → 0 < m := by
    intro i m hfinds
    obtain ⟨front, taken, rest, -, -, rfl, -, htakes⟩ := finds_iff.mp hfinds
    exact List.length_pos_iff.mpr (hne _ _ _ htakes)
  refine Reader.length_scan_eq_card id
    (fun hfirst hnext hafter hwithin => absurd hwithin (happart hfirst hnext hafter))
    (fun hfirst _ hle hsame => ?_) fun p => ?_
  · have hcovered := hpos hfirst
    simp only [id_eq] at hsame
    omega
  · simp only [Finset.mem_filter, Finset.mem_range, id_eq, Reader.Finds, reader,
      Option.map_eq_some_iff, Option.isSome_iff_exists]
    constructor
    · rintro ⟨hless, taken, htaken⟩
      exact ⟨p, taken.length, ⟨hless, taken, taken, htaken, rfl⟩, rfl⟩
    · rintro ⟨i, m, ⟨hless, value, taken, htaken, -⟩, rfl⟩
      exact ⟨hless, taken, htaken⟩

/-! ## Phrases with a stop -/

/-- The place of the first `stop` from a place on. -/
def stopFrom (stop : Char) (text : List Char) (i : ℕ) : ℕ :=
  i + ((text.drop i).takeWhile (· != stop)).length

theorem stopFrom_append {stop : Char} {inner : List Char} (front rest : List Char)
    (hinner : stop ∉ inner) :
    stopFrom stop (front ++ (inner ++ stop :: rest)) front.length =
      front.length + inner.length := by
  rw [stopFrom, List.drop_left, takeWhile_append_stop hinner]

theorem le_stopFrom (stop : Char) (text : List Char) (i : ℕ) : i ≤ stopFrom stop text i :=
  Nat.le_add_right _ _

/-- A finding begins with certain characters, takes a `stop`, and none of these behind it. -/
structure HasStop (phrase : Phrase) (stop : Char) (begins : Char → Bool) : Prop where
  head : ∀ {before taken rest}, Takes before phrase taken rest →
    ∃ c ∈ taken.head?, begins c = true
  parts : ∀ {before taken rest}, Takes before phrase taken rest →
    ∃ inner tail, taken = inner ++ stop :: tail ∧ stop ∉ inner ∧ ∀ c ∈ tail, begins c = false

section

variable {stop : Char} {begins : Char → Bool} {i j m n : ℕ}

/-- What begins inside a finding does not begin behind its stop. -/
theorem exists_before_stop {inner tail covered others : List Char} {c : Char}
    (h : covered ++ others = inner ++ stop :: tail) (hhead : c ∈ others.head?)
    (hbegins : begins c = true) (htail : ∀ c ∈ tail, begins c = false) :
    ∃ between, inner = covered ++ between ∧ others = between ++ stop :: tail := by
  obtain ⟨between, hfront, hbehind⟩ | ⟨between, hfront, hbehind⟩ := List.append_eq_append_iff.mp h
  · exact ⟨between, hfront, hbehind⟩
  · cases between with
    | nil => exact ⟨[], by rw [hfront, List.append_nil, List.append_nil], hbehind.symm⟩
    | cons d between =>
      have htailed : tail = between ++ others := (List.cons.inj hbehind).2
      have hmem : c ∈ tail := by
        rw [htailed]
        exact List.mem_append_right between (List.mem_of_mem_head? hhead)
      rw [htail c hmem] at hbegins
      cases hbegins

theorem HasStop.stopFrom_within (h : phrase.HasStop stop begins)
    (hfirst : phrase.reader.Finds text i m) (hsecond : phrase.reader.Finds text j n) (hafter : i < j)
    (hwithin : j < i + m) : stopFrom stop text j = stopFrom stop text i := by
  obtain ⟨front, taken, rest, rfl, rfl, rfl, -, htakes⟩ := finds_iff.mp hfirst
  obtain ⟨later, next, behind, htext, rfl, rfl, -, hnext⟩ := finds_iff.mp hsecond
  obtain ⟨covered, others, hcovered, hothers, rfl, rfl, hrest⟩ :=
    exists_between htext hafter hwithin
  obtain ⟨inner, tail, hinner, hnot, htail⟩ := h.parts htakes
  obtain ⟨c, hc, hbegins⟩ := h.head hnext
  have hhead : c ∈ others.head? := by
    have hsame := congrArg List.head? hrest
    rw [List.head?_append_of_ne_nil _ hothers, List.head?_append, Option.mem_def.mp hc,
      Option.some_or] at hsame
    exact hsame
  obtain ⟨between, rfl, rfl⟩ := exists_before_stop hinner hhead hbegins htail
  have hbetween : stop ∉ between := fun hmem => hnot (List.mem_append_right _ hmem)
  have hmark := stopFrom_append front (tail ++ rest) hnot
  have hlater := stopFrom_append (front ++ covered) (tail ++ rest) hbetween
  simp only [List.append_assoc, List.cons_append, List.length_append] at hmark hlater ⊢
  rw [hmark, hlater, Nat.add_assoc]

theorem HasStop.stopFrom_beyond (h : phrase.HasStop stop begins)
    (hfirst : phrase.reader.Finds text i m) (hle : i + m ≤ j) :
    stopFrom stop text i ≠ stopFrom stop text j := by
  obtain ⟨front, taken, rest, rfl, rfl, rfl, -, htakes⟩ := finds_iff.mp hfirst
  obtain ⟨inner, tail, rfl, hnot, -⟩ := h.parts htakes
  have hmark := stopFrom_append front (tail ++ rest) hnot
  have hnext := le_stopFrom stop (front ++ (inner ++ stop :: tail ++ rest)) j
  simp only [List.append_assoc, List.cons_append] at hmark hnext hle ⊢
  rw [hmark]
  simp only [List.length_append, List.length_cons] at hle
  omega

/-- A place is the stop of a finding. -/
def IsStopOf (phrase : Phrase) (stop : Char) (front rest : List Char) : Prop :=
  ∃ start inner tail behind, front = start ++ inner ∧ stop ∉ inner ∧
    rest = stop :: (tail ++ behind) ∧ Takes start.getLast? phrase (inner ++ stop :: tail) behind

theorem HasStop.exists_finds_iff (h : phrase.HasStop stop begins) {p : ℕ} :
    (p < text.length ∧ IsStopOf phrase stop (text.take p) (text.drop p)) ↔
      ∃ i m, phrase.reader.Finds text i m ∧ stopFrom stop text i = p := by
  constructor
  · rintro ⟨hless, start, inner, tail, behind, hfront, hnot, hrest, htakes⟩
    have htext : text = start ++ (inner ++ stop :: tail ++ behind) := by
      rw [← List.take_append_drop p text, hfront, hrest]
      simp
    have hp : start.length + inner.length = p := by
      rw [← List.length_append, ← hfront, List.length_take_of_le hless.le]
    have hfinds : phrase.reader.Finds text start.length (inner ++ stop :: tail).length :=
      finds_iff.mpr ⟨start, _, behind, htext, rfl, rfl, by simp, htakes⟩
    refine ⟨start.length, _, hfinds, ?_⟩
    rw [htext, List.append_assoc, List.cons_append, stopFrom_append _ _ hnot, hp]
  · rintro ⟨i, m, hfinds, rfl⟩
    obtain ⟨start, taken, behind, rfl, rfl, rfl, -, htakes⟩ := finds_iff.mp hfinds
    obtain ⟨inner, tail, rfl, hnot, -⟩ := h.parts htakes
    have hmark := stopFrom_append start (tail ++ behind) hnot
    rw [List.append_assoc, List.cons_append, hmark, ← List.length_append, ← List.append_assoc,
      List.take_left, List.drop_left]
    exact ⟨by simp, start, inner, tail, behind, rfl, hnot, rfl, htakes⟩

/-- A phrase with a stop is counted at the stops. -/
theorem HasStop.count_eq_countPlaces (h : phrase.HasStop stop begins) :
    phrase.count text = countPlaces text (IsStopOf phrase stop) := by
  refine Reader.length_scan_eq_card (stopFrom stop text) h.stopFrom_within
    (fun hfirst _ hle => h.stopFrom_beyond hfirst hle) fun p => ?_
  simp only [Finset.mem_filter, Finset.mem_range]
  exact h.exists_finds_iff

end

end Phrase

end SourceMetrics
