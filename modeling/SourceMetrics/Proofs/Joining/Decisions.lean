import SourceMetrics.Proofs.Complexity.Decisions
import SourceMetrics.Proofs.Joining.Places
import SourceMetrics.Proofs.Respelling.Scan
import SourceMetrics.Proofs.Text.Ends

/-! # Decision points of joined texts

Other lines take no decision point away. They bring one about only where a keyword is the last word of
the text in front of them: the parenthesis, or the blank character, that was missing may stand behind the
line feed. A text that does not end in a letter, blank characters aside, ends in no keyword.

* `isTold_of_mem_decisions`: each kind of decision points is counted at places of a text by itself.
* `decisionPoints_joined`: nothing is found across the line feed. -/

namespace SourceMetrics.Complexity

set_option autoImplicit false

open Text Phrase

/-- No ASCII letter is the last character of the text that is not blank. -/
def EndsApart (text : List Char) : Prop :=
  ∀ c ∈ (text.rdropWhile isBlank).getLast?, c.isAlpha = false

variable {word operator : String} {text lines front rest : List Char}

/-! ## Letters -/

theorem isWord_of_isAlpha {c : Char} (h : c.isAlpha = true) : isWord c = true := by
  rw [isWord, Char.isAlphanum, h]
  rfl

theorem lineFeed_not_mem (hword : ∀ c ∈ word.toList, c.isAlpha = true) : '\n' ∉ word.toList := by
  intro hmem
  exact absurd (hword '\n' hmem) (by decide)

/-- A text that ends apart does not end in a word of letters. -/
theorem EndsApart.not_word {gap : List Char} (hne : word.toList ≠ [])
    (hword : ∀ c ∈ word.toList, c.isAlpha = true) (hgap : ∀ c ∈ gap, isBlank c = true) :
    ¬ EndsApart (front ++ (word.toList ++ gap)) := by
  intro h
  obtain ⟨init, c, hparts⟩ := (List.eq_nil_or_concat word.toList).resolve_left hne
  rw [List.concat_eq_append] at hparts
  have hc : c.isAlpha = true := hword c (by rw [hparts]; simp)
  have hblank : isBlank c = false := isBlank_eq_false_of_isWord (isWord_of_isAlpha hc)
  have hstops : Stops isBlank (front ++ (init ++ [c])).reverse := by
    rw [← List.append_assoc, List.reverse_concat]
    exact stops_cons.mpr hblank
  have hlast : c ∈ (front ++ (init ++ [c])).getLast? := by simp
  rw [EndsApart, hparts, ← List.append_assoc, rdropWhile_append_of_stops hgap hstops] at h
  rw [h c hlast] at hc
  cases hc

/-- A word at the end of a line ends in front of the line feed. -/
theorem exists_behind {others : List Char} (hfeed : '\n' ∉ word.toList)
    (hsame : rest ++ '\n' :: lines = word.toList ++ others) :
    ∃ behind, rest = word.toList ++ behind ∧ others = behind ++ '\n' :: lines := by
  obtain ⟨between, hparts, hothers⟩ | ⟨behind, hrest, hothers⟩ := List.append_eq_append_iff.mp hsame
  · cases between with
    | nil => exact ⟨[], by rw [hparts]; simp, hothers.symm⟩
    | cons d between =>
      obtain ⟨rfl, -⟩ := List.cons.inj hothers
      exact absurd (by rw [hparts]; simp) hfeed
  · exact ⟨behind, hrest, hothers⟩

theorem not_lineFeed {others : List Char} (hne : word.toList ≠ []) (hfeed : '\n' ∉ word.toList) :
    '\n' :: lines ≠ word.toList ++ others := by
  intro hsame
  obtain ⟨c, word', hword⟩ := List.exists_cons_of_ne_nil hne
  rw [hword] at hsame hfeed
  obtain ⟨rfl, -⟩ := List.cons.inj hsame
  exact hfeed List.mem_cons_self

/-! ## Kinds of decision points -/

theorem isLasting_opensCondition (word : String) : IsLasting (OpensCondition word) where
  inFront _ h := ⟨(forall_getLast?_line (by decide)).mpr h.1, h.2⟩
  behind lines := by
    rintro ⟨hbefore, gap, behind, rfl, hgap⟩
    exact ⟨hbefore, gap, behind ++ '\n' :: lines, by simp, hgap⟩

theorem isLasting_opensLabel (word : String) : IsLasting (OpensLabel word) where
  inFront _ h := ⟨(forall_getLast?_line (by decide)).mpr h.1, h.2⟩
  behind lines := by
    rintro ⟨hbefore, c, behind, rfl, hblank⟩
    exact ⟨hbefore, c, behind ++ '\n' :: lines, by simp, hblank⟩

theorem isLasting_joinsConditions (operator : String) : IsLasting (JoinsConditions operator) where
  inFront _ h := ⟨(exists_getLast?_line (by decide)).mpr h.1, h.2⟩
  behind lines := by
    rintro ⟨hbefore, behind, rfl⟩
    exact ⟨hbefore, behind ++ '\n' :: lines, by simp⟩

theorem isLocal_opensCondition (hne : word.toList ≠ [])
    (hword : ∀ c ∈ word.toList, c.isAlpha = true) (hends : EndsApart text) (lines : List Char) :
    IsLocal (OpensCondition word) text lines where
  inFront := and_congr_left fun _ => forall_getLast?_line (by decide)
  between := by
    rintro ⟨-, gap, behind, hsame, -⟩
    exact not_lineFeed hne (lineFeed_not_mem hword) hsame
  behind := by
    rintro front rest rfl -
    refine ⟨?_, (isLasting_opensCondition word).behind lines⟩
    rintro ⟨hbefore, gap, behind, hsame, hgap⟩
    obtain ⟨others, rfl, hothers⟩ := exists_behind (lineFeed_not_mem hword) hsame
    obtain ⟨between, rfl, hbehind⟩ | ⟨between, hgapped, -⟩ := List.append_eq_append_iff.mp hothers
    · cases between with
      | nil => exact absurd (List.cons.inj hbehind).1 (by decide)
      | cons c between =>
        obtain ⟨rfl, -⟩ := List.cons.inj hbehind
        exact ⟨hbefore, gap, between, rfl, hgap⟩
    · have hblank : ∀ c ∈ others, isBlank c = true :=
        fun c hc => hgap c (by rw [hgapped]; exact List.mem_append_left _ hc)
      exact absurd hends (EndsApart.not_word hne hword hblank)

theorem isLocal_opensLabel (hne : word.toList ≠ [])
    (hword : ∀ c ∈ word.toList, c.isAlpha = true) (hends : EndsApart text) (lines : List Char) :
    IsLocal (OpensLabel word) text lines where
  inFront := and_congr_left fun _ => forall_getLast?_line (by decide)
  between := by
    rintro ⟨-, c, behind, hsame, -⟩
    exact not_lineFeed hne (lineFeed_not_mem hword) hsame
  behind := by
    rintro front rest rfl -
    refine ⟨?_, (isLasting_opensLabel word).behind lines⟩
    rintro ⟨hbefore, c, behind, hsame, hblank⟩
    obtain ⟨others, rfl, hothers⟩ := exists_behind (lineFeed_not_mem hword) hsame
    cases others with
    | nil => exact absurd hends (EndsApart.not_word hne hword (by simp))
    | cons d others =>
      obtain ⟨rfl, -⟩ := List.cons.inj hothers
      exact ⟨hbefore, c, others, rfl, hblank⟩

theorem isLocal_joinsConditions (hne : operator.toList ≠ []) (hfeed : '\n' ∉ operator.toList)
    (text lines : List Char) : IsLocal (JoinsConditions operator) text lines where
  inFront := and_congr_left fun _ => exists_getLast?_line (by decide)
  between := by
    rintro ⟨-, behind, hsame⟩
    exact not_lineFeed hne hfeed hsame
  behind := by
    rintro front rest rfl -
    refine ⟨?_, (isLasting_joinsConditions operator).behind lines⟩
    rintro ⟨hbefore, behind, hsame⟩
    obtain ⟨others, rfl, -⟩ := exists_behind hfeed hsame
    exact ⟨hbefore, others, rfl⟩

/-- A phrase is counted at places that other lines do not take away, and that they do not bring about
either behind a text that ends apart. -/
def IsTold (phrase : Phrase) : Prop :=
  ∃ holds, (∀ text, phrase.count text = countPlaces text holds) ∧ IsLasting holds ∧
    ∀ text lines, EndsApart text → IsLocal holds text lines

theorem isTold_opensCondition (hne : word.toList ≠ []) (hword : word.toList.all Char.isAlpha = true) :
    IsTold [.edge, .exact word, .blanks, .exact "("] := by
  have hletters := List.all_eq_true.mp hword
  have hall : word.toList.all isWord = true :=
    List.all_eq_true.mpr fun c hc => isWord_of_isAlpha (hletters c hc)
  exact ⟨_, fun _ => count_opensCondition hne hall, isLasting_opensCondition word,
    fun _ lines hends => isLocal_opensCondition hne hletters hends lines⟩

theorem isTold_opensLabel (hne : word.toList ≠ []) (hword : word.toList.all Char.isAlpha = true) :
    IsTold [.edge, .exact word, .gap] := by
  have hletters := List.all_eq_true.mp hword
  have hall : word.toList.all isWord = true :=
    List.all_eq_true.mpr fun c hc => isWord_of_isAlpha (hletters c hc)
  exact ⟨_, fun _ => count_opensLabel hne hall, isLasting_opensLabel word,
    fun _ lines hends => isLocal_opensLabel hne hletters hends lines⟩

theorem isTold_joinsConditions (hne : operator.toList ≠ [])
    (hoperator : operator.toList.any isWord = false) (hfeed : '\n' ∉ operator.toList) :
    IsTold [.edge, .exact operator] :=
  ⟨_, fun _ => count_joinsConditions hne hoperator, isLasting_joinsConditions operator,
    fun text lines _ => isLocal_joinsConditions hne hfeed text lines⟩

theorem isTold_of_mem_decisions : ∀ phrase ∈ decisions, IsTold phrase := by
  simp only [decisions, List.forall_mem_cons]
  exact ⟨isTold_opensCondition (by decide) (by decide), isTold_opensCondition (by decide) (by decide),
    isTold_opensCondition (by decide) (by decide), isTold_opensLabel (by decide) (by decide),
    isTold_opensCondition (by decide) (by decide),
    isTold_joinsConditions (by decide) (by decide) (by decide),
    isTold_joinsConditions (by decide) (by decide) (by decide), by simp⟩

/-! ## Decision points and complexity -/

theorem decisionPoints_add_le (text lines : List Char) :
    decisionPoints text + decisionPoints lines ≤ decisionPoints (text ++ '\n' :: lines) := by
  refine total_count_add_le (fun phrase hphrase => ?_) text lines
  obtain ⟨holds, hcount, hlasting, -⟩ := isTold_of_mem_decisions phrase hphrase
  exact isSuperadditive_of_isLasting hcount hlasting

theorem decisionPoints_joined (hends : EndsApart text) (lines : List Char) :
    decisionPoints (text ++ '\n' :: lines) = decisionPoints text + decisionPoints lines := by
  rw [decisionPoints, decisionPoints, decisionPoints, ← total_add]
  refine total_congr fun phrase hphrase => ?_
  obtain ⟨holds, hcount, -, hlocal⟩ := isTold_of_mem_decisions phrase hphrase
  rw [hcount, hcount, hcount]
  exact (hlocal text lines hends).countPlaces_joined

end SourceMetrics.Complexity
