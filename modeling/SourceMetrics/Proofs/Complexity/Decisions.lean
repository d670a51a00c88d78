import SourceMetrics.Complexity
import SourceMetrics.Proofs.Phrase.Places
import SourceMetrics.Proofs.Text.Word

/-! # Decision points and places of the text

Scanning for a keyword loses no occurrence of it: a finding is a word (or an operator) followed by
characters of the other kind, and another finding begins with the word, behind an edge. So no finding
begins inside another one, and the complexity of a text is told by the places at which a keyword or
an operator stands.

* `isApart_keyword`: no finding of a keyword begins inside another one.
* `count_keyword`: a keyword with its tail is counted wherever it stands.
* `ofText_eq_min`: the complexity of a text by its decision points.
* `ofText_eq_min_countPlaces`: the complexity of a text by its places. -/

namespace SourceMetrics

set_option autoImplicit false

open Text Phrase Phrase.Part

namespace Complexity

/-- At this place stands a word that is not the end of a longer one, and a parenthesis opens behind
it. -/
def OpensCondition (word : String) (front rest : List Char) : Prop :=
  (∀ c ∈ front.getLast?, isWord c = false) ∧
    ∃ gap behind, rest = word.toList ++ (gap ++ '(' :: behind) ∧ ∀ c ∈ gap, isBlank c = true

/-- At this place stands a word that is not the end of a longer one, and a blank character behind
it. -/
def OpensLabel (word : String) (front rest : List Char) : Prop :=
  (∀ c ∈ front.getLast?, isWord c = false) ∧
    ∃ c behind, rest = word.toList ++ c :: behind ∧ isBlank c = true

/-- At this place stands an operator, right behind a word character. -/
def JoinsConditions (operator : String) (front rest : List Char) : Prop :=
  (∃ c ∈ front.getLast?, isWord c = true) ∧ ∃ behind, rest = operator.toList ++ behind

variable {kind : Bool} {fixed : String} {tail : Phrase}

/-- A finding begins with characters of one kind, of which only the first has an edge in front, and
goes on with characters of the other kind. -/
theorem isApart_keyword (hne : fixed.toList ≠ []) (hfixed : ∀ c ∈ fixed.toList, isWord c = kind)
    (htail : ∀ before taken rest, Takes before tail taken rest → ∀ c ∈ taken, isWord c ≠ kind) :
    IsApart (edge :: exact fixed :: tail) := by
  intro before covered others rest hcovered hothers htakes
  obtain ⟨-, htakes⟩ := takes_edge.mp htakes
  obtain ⟨behind, htaken, hbehind⟩ := takes_exact.mp htakes
  rw [Option.eq_none_iff_forall_ne_some]
  intro next hnext
  obtain ⟨rest', hsame, hnext⟩ := front?_eq_some_iff.mp hnext
  obtain ⟨hedge, hnext⟩ := takes_edge.mp hnext
  obtain ⟨behind', rfl, -⟩ := takes_exact.mp hnext
  -- the second finding begins with the word
  obtain ⟨d, others, rfl⟩ := List.exists_cons_of_ne_nil hothers
  obtain ⟨e, word, hword⟩ := List.exists_cons_of_ne_nil hne
  have hd : isWord d = kind := by
    rw [hword] at hsame
    obtain ⟨rfl, -⟩ := List.cons.inj hsame
    exact hfixed d (by rw [hword]; exact List.mem_cons_self)
  rw [← hsame, List.cons_append, isEdge_cons, hd] at hedge
  obtain ⟨between, hword, hrest⟩ | ⟨between, -, hrest⟩ := List.append_eq_append_iff.mp htaken
  · -- so the character in front of it is one of the word as well
    obtain ⟨last, hlast⟩ := Option.isSome_iff_exists.mp (List.getLast?_isSome.mpr hcovered)
    have hmem : last ∈ fixed.toList := by
      rw [hword]
      exact List.mem_append_left _ (List.mem_of_getLast? hlast)
    rw [hlast, Option.any_some] at hedge
    exact hedge (hfixed last hmem)
  · refine htail _ _ _ hbehind d ?_ hd
    rw [hrest]
    simp

/-- A keyword is counted at every place where it stands with its tail. -/
theorem count_keyword {text : List Char} (hne : fixed.toList ≠ [])
    (hfixed : ∀ c ∈ fixed.toList, isWord c = kind)
    (htail : ∀ before taken rest, Takes before tail taken rest → ∀ c ∈ taken, isWord c ≠ kind) :
    Phrase.count (edge :: exact fixed :: tail) text = countPlaces text fun front rest =>
      front.getLast?.any isWord ≠ kind ∧ ∃ taken behind, rest = fixed.toList ++ (taken ++ behind) ∧
        Takes (fixed.toList.getLast?.or front.getLast?) tail taken behind := by
  rw [count_eq_countPlaces ?_ (isApart_keyword hne hfixed htail)]
  · refine countPlaces_congr fun front rest => ?_
    simp only [isSome_front?_iff, takes_keyword hne hfixed]
    constructor
    · rintro ⟨_, behind, rfl, hbefore, taken, rfl, htakes⟩
      exact ⟨hbefore, taken, behind, List.append_assoc .., htakes⟩
    · rintro ⟨hbefore, taken, behind, rfl, htakes⟩
      exact ⟨_, behind, (List.append_assoc ..).symm, hbefore, taken, rfl, htakes⟩
  · intro before taken rest htakes
    obtain ⟨-, behind, rfl, -⟩ := (takes_keyword hne hfixed).mp htakes
    simp [hne]

/-! ## The kinds of decision points -/

theorem count_opensCondition {word : String} {text : List Char} (hne : word.toList ≠ [])
    (hword : word.toList.all isWord = true) :
    Phrase.count [edge, exact word, blanks, exact "("] text =
      countPlaces text (OpensCondition word) := by
  have hopens : "(".toList = ['('] := rfl
  have htakes : ∀ before taken rest, Takes before [blanks, exact "("] taken rest ↔
      ∃ gap, taken = gap ++ ['('] ∧ ∀ c ∈ gap, isBlank c = true := by
    intro before taken rest
    simp only [takes_blanks_exact hopens (by decide), takes_nil]
    constructor
    · rintro ⟨gap, _, rfl, hgap, rfl⟩
      exact ⟨gap, rfl, hgap⟩
    · rintro ⟨gap, rfl, hgap⟩
      exact ⟨gap, [], rfl, hgap, rfl⟩
  rw [count_keyword hne (List.all_eq_true.mp hword)]
  · refine countPlaces_congr fun front rest => ?_
    simp only [OpensCondition, any_isWord_ne_true_iff, htakes]
    refine and_congr_right fun _ => ?_
    constructor
    · rintro ⟨_, behind, rfl, gap, rfl, hgap⟩
      exact ⟨gap, behind, by simp, hgap⟩
    · rintro ⟨gap, behind, rfl, hgap⟩
      exact ⟨_, behind, by simp, gap, rfl, hgap⟩
  · intro before taken rest h c hc
    obtain ⟨gap, rfl, hgap⟩ := (htakes _ _ _).mp h
    rw [List.mem_append, List.mem_singleton] at hc
    obtain hc | rfl := hc
    · rw [isWord_eq_false_of_isBlank (hgap c hc)]
      exact Bool.false_ne_true
    · decide

theorem count_opensLabel {word : String} {text : List Char} (hne : word.toList ≠ [])
    (hword : word.toList.all isWord = true) :
    Phrase.count [edge, exact word, gap] text = countPlaces text (OpensLabel word) := by
  have htakes : ∀ before taken rest, Takes before [gap] taken rest ↔
      taken ≠ [] ∧ (∀ c ∈ taken, isBlank c = true) ∧ Stops isBlank rest := by
    intro before taken rest
    simp only [takes_gap, takes_nil]
    constructor
    · rintro ⟨gap, _, rfl, hgap, hall, hstops, rfl⟩
      rw [List.append_nil]
      exact ⟨hgap, hall, hstops⟩
    · rintro ⟨hgap, hall, hstops⟩
      exact ⟨taken, [], by simp, hgap, hall, hstops, rfl⟩
  rw [count_keyword hne (List.all_eq_true.mp hword)]
  · refine countPlaces_congr fun front rest => ?_
    simp only [OpensLabel, any_isWord_ne_true_iff, htakes]
    refine and_congr_right fun _ => ?_
    constructor
    · rintro ⟨taken, behind, rfl, htaken, hall, -⟩
      obtain ⟨c, others, rfl⟩ := List.exists_cons_of_ne_nil htaken
      exact ⟨c, others ++ behind, rfl, hall c List.mem_cons_self⟩
    · rintro ⟨c, behind, rfl, hc⟩
      obtain ⟨others, rest, rfl, hall, hstops⟩ := exists_run isBlank behind
      exact ⟨c :: others, rest, rfl, List.cons_ne_nil _ _, List.forall_mem_cons.mpr ⟨hc, hall⟩,
        hstops⟩
  · intro before taken rest h c hc
    obtain ⟨-, hall, -⟩ := (htakes _ _ _).mp h
    rw [isWord_eq_false_of_isBlank (hall c hc)]
    exact Bool.false_ne_true

theorem count_joinsConditions {operator : String} {text : List Char} (hne : operator.toList ≠ [])
    (hoperator : operator.toList.any isWord = false) :
    Phrase.count [edge, exact operator] text = countPlaces text (JoinsConditions operator) := by
  have hnone : ∀ c ∈ operator.toList, isWord c = false := by
    intro c hc
    rw [Bool.eq_false_iff]
    exact List.any_eq_false.mp hoperator c hc
  rw [count_keyword hne hnone]
  · refine countPlaces_congr fun front rest => ?_
    have hbefore : front.getLast?.any isWord ≠ false ↔ ∃ c ∈ front.getLast?, isWord c = true := by
      rw [Bool.ne_false_iff, Option.any_eq_true]
      rfl
    simp only [JoinsConditions, takes_nil, hbefore]
    refine and_congr_right fun _ => ?_
    constructor
    · rintro ⟨_, behind, rfl, rfl⟩
      exact ⟨behind, rfl⟩
    · rintro ⟨behind, rfl⟩
      exact ⟨[], behind, rfl, rfl⟩
  · intro before taken rest h c hc
    rw [takes_nil.mp h] at hc
    exact absurd hc List.not_mem_nil

/-- Neither the conversion nor the sum shows below the greatest number. -/
theorem ofText_eq_min (text : List Char) : ofText text = min (1 + decisionPoints text) greatest := by
  by_cases hle : decisionPoints text ≤ greatest
  · simp only [ofText, narrow?, if_pos hle, Option.getD_some, addSaturating, baseline]
    split <;> omega
  · have hpositive : 0 < greatest := by decide
    simp only [ofText, narrow?, if_neg hle, Option.getD_none, addSaturating, baseline]
    split <;> omega

/-- The complexity of a text is one more than the number of places at which a condition opens, a
label stands or an operator joins two conditions, up to the greatest 32-bit number. -/
theorem ofText_eq_min_countPlaces (text : List Char) :
    ofText text = min (Nat.pow 2 32 - 1) (1 +
      (countPlaces text (OpensCondition "if") + countPlaces text (OpensCondition "for") +
        countPlaces text (OpensCondition "while") + countPlaces text (OpensLabel "case") +
        countPlaces text (OpensCondition "catch") + countPlaces text (JoinsConditions "&&") +
        countPlaces text (JoinsConditions "||"))) := by
  have hpoints : decisionPoints text =
      countPlaces text (OpensCondition "if") + countPlaces text (OpensCondition "for") +
        countPlaces text (OpensCondition "while") + countPlaces text (OpensLabel "case") +
        countPlaces text (OpensCondition "catch") + countPlaces text (JoinsConditions "&&") +
        countPlaces text (JoinsConditions "||") := by
    simp only [decisionPoints, decisions, total]
    rw [count_opensCondition (by decide) (by decide), count_opensCondition (by decide) (by decide),
      count_opensCondition (by decide) (by decide), count_opensLabel (by decide) (by decide),
      count_opensCondition (by decide) (by decide), count_joinsConditions (by decide) (by decide),
      count_joinsConditions (by decide) (by decide)]
    omega
  rw [ofText_eq_min, hpoints, Nat.min_comm, greatest]

/-- An operator behind a blank character joins nothing. -/
example : ofText "if (a&& b || c)".toList = 3 := by decide

end Complexity

end SourceMetrics
