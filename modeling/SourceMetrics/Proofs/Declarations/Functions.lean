import SourceMetrics.Declarations
import SourceMetrics.Proofs.Phrase.Places
import SourceMetrics.Proofs.Text.Word

/-! # Functions and parentheses of the text

The forms of a function overlap one another and may begin inside a finding of their own, yet each
of them is told by one parenthesis: a named function by the one that opens, the others by the one
that closes. Findings that overlap share this parenthesis, and what a finding takes behind it holds
no word character, so that none begins there.

* `TakesCall.count_closesBehind`: forms with a head, parentheses and something behind them.
* `functions_eq_countPlaces`: the number of functions of a text. -/

namespace SourceMetrics

set_option autoImplicit false

open Text Phrase Phrase.Part

namespace Declarations

/-- A keyword, blank characters, a name, and perhaps blank characters. In front of a parenthesis the
name is a whole run of word characters, for none stands on either side of it. -/
def IsNaming (keyword : String) (text : List Char) : Prop :=
  ∃ gap name gap', text = keyword.toList ++ (gap ++ (name ++ gap')) ∧
    gap ≠ [] ∧ (∀ c ∈ gap, isBlank c = true) ∧ name ≠ [] ∧ (∀ c ∈ name, isWord c = true) ∧
    ∀ c ∈ gap', isBlank c = true

/-- A name that is bound by the given keyword, with the equals sign. -/
def IsBinding (keyword : String) (text : List Char) : Prop :=
  ∃ naming gap, text = naming ++ '=' :: gap ∧ IsNaming keyword naming ∧ ∀ c ∈ gap, isBlank c = true

/-- A word character, and perhaps blank characters. -/
def EndsWord (text : List Char) : Prop :=
  ∃ c gap, text = c :: gap ∧ isWord c = true ∧ ∀ d ∈ gap, isBlank d = true

/-- At this place a parenthesis opens behind a keyword, which is not the end of a longer word, and
the name that is given to it. -/
def OpensNamed (keyword : String) (front rest : List Char) : Prop :=
  (∃ start naming, front = start ++ naming ∧ (∀ c ∈ start.getLast?, isWord c = false) ∧
    IsNaming keyword naming) ∧ ∃ behind, rest = '(' :: behind

/-- At this place a parenthesis closes. Behind the closing one before it, another opens with such a
head in front, and `follows` stands behind this one. -/
def ClosesBehind (head : List Char → Prop) (follows : String) (front rest : List Char) : Prop :=
  (∃ start opening inner, front = start ++ (opening ++ '(' :: inner) ∧ head opening ∧
    ')' ∉ inner) ∧
  ∃ gap behind, rest = ')' :: (gap ++ (follows.toList ++ behind)) ∧ ∀ c ∈ gap, isBlank c = true

variable {before : Option Char} {keyword : String} {parts : Phrase} {taken rest : List Char}

/-! ## What the forms take -/

theorem toList_opens : "(".toList = ['('] := rfl

theorem takes_naming {fixed : String} {c : Char} {cs : List Char} (hfixed : fixed.toList = c :: cs)
    (hblank : isBlank c = false) (hword : isWord c = false) :
    Takes before (exact keyword :: gap :: word :: blanks :: exact fixed :: parts) taken rest ↔
      ∃ naming others, taken = naming ++ (fixed.toList ++ others) ∧ IsNaming keyword naming ∧
        Takes fixed.toList.getLast? parts others rest := by
  simp only [takes_exact, takes_gap, takes_word_blanks_exact hfixed hblank hword, IsNaming]
  constructor
  · rintro ⟨_, rfl, gap, _, rfl, hne, hgap, -, name, gap', others, rfl, hname, hall, hgap', htakes⟩
    exact ⟨_, others, by simp, ⟨gap, name, gap', rfl, hne, hgap, hname, hall, hgap'⟩, htakes⟩
  · rintro ⟨_, others, rfl, ⟨gap, name, gap', rfl, hne, hgap, hname, hall, hgap'⟩, htakes⟩
    refine ⟨_, by simp, gap, _, rfl, hne, hgap, ?_, name, gap', others, rfl, hname, hall, hgap',
      htakes⟩
    obtain ⟨d, name, rfl⟩ := List.exists_cons_of_ne_nil hname
    exact stops_cons.mpr (isBlank_eq_false_of_isWord (hall d List.mem_cons_self))

/-- What stands behind an opening parenthesis, up to `follows`. -/
theorem takes_closing {follows : String} {c : Char} {cs : List Char}
    (hfollows : follows.toList = c :: cs) (hblank : isBlank c = false) :
    Takes before [upTo ')', exact ")", blanks, exact follows] taken rest ↔
      ∃ inner gap, taken = inner ++ ')' :: (gap ++ follows.toList) ∧ ')' ∉ inner ∧
        ∀ d ∈ gap, isBlank d = true := by
  have hcloses : ")".toList = [')'] := rfl
  simp only [takes_upTo_exact hcloses, takes_blanks_exact hfollows hblank, takes_nil]
  constructor
  · rintro ⟨inner, _, rfl, hinner, gap, _, rfl, hgap, rfl⟩
    exact ⟨inner, gap, by rw [List.append_nil], hinner, hgap⟩
  · rintro ⟨inner, gap, rfl, hinner, hgap⟩
    exact ⟨inner, _, rfl, hinner, gap, [], by rw [List.append_nil], hgap, rfl⟩

/-- A form takes a head, parentheses without a closing one inside, and then `follows`. -/
def TakesCall (phrase : Phrase) (head : List Char → Prop) (follows : String) : Prop :=
  ∀ before taken rest, Takes before phrase taken rest ↔
    ∃ opening inner gap, taken = opening ++ '(' :: (inner ++ ')' :: (gap ++ follows.toList)) ∧
      head opening ∧ ')' ∉ inner ∧ ∀ c ∈ gap, isBlank c = true

theorem takesCall_arrowFunction :
    TakesCall (arrowFunction keyword) (IsBinding keyword) "=>" := by
  have hequals : "=".toList = ['='] := rfl
  have harrow : "=>".toList = ['=', '>'] := rfl
  intro before taken rest
  simp only [arrowFunction, parenthesised, List.cons_append, List.nil_append,
    takes_naming hequals (by decide) (by decide), takes_blanks_exact toList_opens (by decide),
    takes_closing harrow (by decide), IsBinding]
  constructor
  · rintro ⟨naming, _, rfl, hnaming, gap, _, rfl, hgap, inner, gap', rfl, hinner, hgap'⟩
    exact ⟨_, inner, gap', by simp [hequals, toList_opens], ⟨naming, gap, rfl, hnaming, hgap⟩,
      hinner, hgap'⟩
  · rintro ⟨_, inner, gap', rfl, ⟨naming, gap, rfl, hnaming, hgap⟩, hinner, hgap'⟩
    refine ⟨naming, gap ++ ("(".toList ++ (inner ++ ')' :: (gap' ++ "=>".toList))), ?_, hnaming, gap,
      _, rfl, hgap, inner, gap', rfl, hinner, hgap'⟩
    simp [hequals, toList_opens]

/-- A name, and perhaps blank characters. -/
def IsCallee (text : List Char) : Prop :=
  ∃ name gap, text = name ++ gap ∧ name ≠ [] ∧ (∀ c ∈ name, isWord c = true) ∧
    ∀ c ∈ gap, isBlank c = true

theorem takesCall_block :
    TakesCall ([word, blanks] ++ parenthesised ++ [blanks, exact "\x7b"]) IsCallee "\x7b" := by
  have hblock : "\x7b".toList = ['\x7b'] := rfl
  intro before taken rest
  simp only [parenthesised, List.cons_append, List.nil_append,
    takes_word_blanks_exact toList_opens (by decide) (by decide), takes_closing hblock (by decide),
    IsCallee]
  constructor
  · rintro ⟨name, gap, _, rfl, hname, hall, hgap, inner, gap', rfl, hinner, hgap'⟩
    exact ⟨_, inner, gap', by simp [toList_opens], ⟨name, gap, rfl, hname, hall, hgap⟩, hinner,
      hgap'⟩
  · rintro ⟨_, inner, gap', rfl, ⟨name, gap, rfl, hname, hall, hgap⟩, hinner, hgap'⟩
    exact ⟨name, gap, _, by simp [toList_opens], hname, hall, hgap, inner, gap', rfl, hinner, hgap'⟩

/-! ## Heads -/

/-- A head begins with a word character and holds no punctuation but equals signs. -/
def IsHead (text : List Char) : Prop :=
  (∃ c ∈ text.head?, isWord c = true) ∧ ∀ c ∈ text, isWord c = true ∨ isBlank c = true ∨ c = '='

theorem not_mem_of_isHead {text : List Char} {c : Char} (h : IsHead text)
    (hc : isWord c = false ∧ isBlank c = false ∧ c ≠ '=') : c ∉ text := by
  obtain ⟨hword, hblank, hne⟩ := hc
  intro hmem
  obtain hc | hc | hc := h.2 c hmem
  · rw [hword] at hc
    cases hc
  · rw [hblank] at hc
    cases hc
  · exact hne hc

theorem isHead_naming {text : List Char} (hne : keyword.toList ≠ [])
    (hkeyword : keyword.toList.all isWord = true) (h : IsNaming keyword text) : IsHead text := by
  have hkeyword := List.all_eq_true.mp hkeyword
  obtain ⟨gap, name, gap', rfl, -, hgap, -, hname, hgap'⟩ := h
  obtain ⟨c, word, hword⟩ := List.exists_cons_of_ne_nil hne
  refine ⟨⟨c, by rw [hword]; rfl, hkeyword c (by rw [hword]; exact List.mem_cons_self)⟩, ?_⟩
  intro d hd
  simp only [List.mem_append] at hd
  obtain hd | hd | hd | hd := hd
  · exact .inl (hkeyword d hd)
  · exact .inr (.inl (hgap d hd))
  · exact .inl (hname d hd)
  · exact .inr (.inl (hgap' d hd))

theorem isHead_binding {text : List Char} (hne : keyword.toList ≠ [])
    (hkeyword : keyword.toList.all isWord = true) (h : IsBinding keyword text) :
    IsHead text := by
  obtain ⟨naming, gap, rfl, hnaming, hgap⟩ := h
  obtain ⟨⟨c, hc, hword⟩, hall⟩ := isHead_naming hne hkeyword hnaming
  refine ⟨⟨c, List.mem_head?_append_of_mem_head? hc, hword⟩, ?_⟩
  intro d hd
  rw [List.mem_append, List.mem_cons] at hd
  obtain hd | rfl | hd := hd
  · exact hall d hd
  · exact .inr (.inr rfl)
  · exact .inr (.inl (hgap d hd))

theorem isHead_callee {text : List Char} (h : IsCallee text) : IsHead text := by
  obtain ⟨name, gap, rfl, hname, hall, hgap⟩ := h
  obtain ⟨c, name, rfl⟩ := List.exists_cons_of_ne_nil hname
  refine ⟨⟨c, rfl, hall c List.mem_cons_self⟩, ?_⟩
  intro d hd
  obtain hd | hd := List.mem_append.mp hd
  · exact .inl (hall d hd)
  · exact .inr (.inl (hgap d hd))

/-! ## Counts -/

variable {text : List Char}

theorem takes_opensNamed (hne : keyword.toList ≠ [])
    (hkeyword : keyword.toList.all isWord = true) (before : Option Char)
    (taken rest : List Char) :
    Takes before [edge, exact keyword, gap, word, blanks, exact "("] taken rest ↔
      (∀ c ∈ before, isWord c = false) ∧
        ∃ naming, taken = naming ++ ['('] ∧ IsNaming keyword naming := by
  have hedge : ∀ naming behind, IsNaming keyword naming →
      (isEdge before (naming ++ behind) = true ↔ ∀ c ∈ before, isWord c = false) := by
    intro naming behind hnaming
    obtain ⟨⟨c, hc, hword⟩, -⟩ := isHead_naming hne hkeyword hnaming
    rw [isEdge_iff_of_head (List.mem_head?_append_of_mem_head? hc), hword, any_isWord_ne_true_iff]
  simp only [takes_edge, takes_naming toList_opens (by decide) (by decide), takes_nil]
  constructor
  · rintro ⟨hbefore, naming, _, rfl, hnaming, rfl⟩
    rw [List.append_assoc, hedge _ _ hnaming] at hbefore
    exact ⟨hbefore, naming, rfl, hnaming⟩
  · rintro ⟨hbefore, naming, rfl, hnaming⟩
    refine ⟨?_, naming, [], rfl, hnaming, rfl⟩
    rw [List.append_assoc, hedge _ _ hnaming]
    exact hbefore

theorem hasStop_opensNamed (hne : keyword.toList ≠ [])
    (hkeyword : keyword.toList.all isWord = true) :
    HasStop [edge, exact keyword, gap, word, blanks, exact "("] '(' isWord where
  head h := by
    obtain ⟨-, naming, rfl, hnaming⟩ := (takes_opensNamed hne hkeyword _ _ _).mp h
    obtain ⟨⟨c, hc, hword⟩, -⟩ := isHead_naming hne hkeyword hnaming
    exact ⟨c, List.mem_head?_append_of_mem_head? hc, hword⟩
  parts h := by
    obtain ⟨-, naming, rfl, hnaming⟩ := (takes_opensNamed hne hkeyword _ _ _).mp h
    have hhead := isHead_naming hne hkeyword hnaming
    exact ⟨naming, [], rfl, not_mem_of_isHead hhead (by decide),
      fun _ hc => absurd hc List.not_mem_nil⟩

theorem count_opensNamed (hne : keyword.toList ≠ [])
    (hkeyword : keyword.toList.all isWord = true) :
    Phrase.count [edge, exact keyword, gap, word, blanks, exact "("] text =
      countPlaces text (OpensNamed keyword) := by
  rw [(hasStop_opensNamed hne hkeyword).count_eq_countPlaces]
  refine countPlaces_congr fun front rest => ?_
  simp only [IsStopOf, takes_opensNamed hne hkeyword, OpensNamed]
  constructor
  · rintro ⟨start, naming, tail, behind, rfl, hnot, rfl, hstart, naming', hsame, hnaming⟩
    have hhead := isHead_naming hne hkeyword hnaming
    obtain ⟨rfl, rfl⟩ :=
      append_cons_inj_of_not_mem hnot (not_mem_of_isHead hhead (by decide)) hsame
    exact ⟨⟨start, naming, rfl, hstart, hnaming⟩, behind, rfl⟩
  · rintro ⟨⟨start, naming, rfl, hstart, hnaming⟩, behind, rfl⟩
    have hhead := isHead_naming hne hkeyword hnaming
    exact ⟨start, naming, [], behind, rfl, not_mem_of_isHead hhead (by decide), rfl, hstart, naming,
      rfl, hnaming⟩

section

variable {phrase : Phrase} {head : List Char → Prop} {follows : String}

theorem not_mem_of_opening {opening inner : List Char} (hopening : IsHead opening)
    (hinner : ')' ∉ inner) : ')' ∉ opening ++ '(' :: inner := by
  simp only [List.mem_append, List.mem_cons, not_or]
  exact ⟨not_mem_of_isHead hopening (by decide), by decide, hinner⟩

theorem TakesCall.hasStop (h : TakesCall phrase head follows)
    (hhead : ∀ opening, head opening → IsHead opening)
    (hfollows : follows.toList.any isWord = false) : phrase.HasStop ')' isWord where
  head htakes := by
    obtain ⟨opening, inner, gap, rfl, hopening, -, -⟩ := (h _ _ _).mp htakes
    obtain ⟨⟨c, hc, hword⟩, -⟩ := hhead opening hopening
    exact ⟨c, List.mem_head?_append_of_mem_head? hc, hword⟩
  parts htakes := by
    obtain ⟨opening, inner, gap, rfl, hopening, hinner, hgap⟩ := (h _ _ _).mp htakes
    refine ⟨opening ++ '(' :: inner, gap ++ follows.toList, by simp,
      not_mem_of_opening (hhead opening hopening) hinner, ?_⟩
    intro c hc
    obtain hblank | hmem := List.mem_append.mp hc
    · exact isWord_eq_false_of_isBlank (hgap c hblank)
    · rw [Bool.eq_false_iff]
      exact List.any_eq_false.mp hfollows c hmem

theorem TakesCall.count_closesBehind (h : TakesCall phrase head follows)
    (hhead : ∀ opening, head opening → IsHead opening)
    (hfollows : follows.toList.any isWord = false) :
    phrase.count text = countPlaces text (ClosesBehind head follows) := by
  rw [(h.hasStop hhead hfollows).count_eq_countPlaces]
  refine countPlaces_congr fun front rest => ?_
  simp only [IsStopOf, h _ _ _, ClosesBehind]
  constructor
  · rintro ⟨start, before, tail, behind, rfl, hnot, rfl, opening, inner, gap, hsame, hopening,
      hinner, hgap⟩
    have hparts : before ++ ')' :: tail =
        (opening ++ '(' :: inner) ++ ')' :: (gap ++ follows.toList) := by
      rw [hsame, List.append_assoc, List.cons_append]
    obtain ⟨rfl, rfl⟩ := append_cons_inj_of_not_mem hnot
      (not_mem_of_opening (hhead opening hopening) hinner) hparts
    exact ⟨⟨start, opening, inner, rfl, hopening, hinner⟩, gap, behind, by rw [List.append_assoc],
      hgap⟩
  · rintro ⟨⟨start, opening, inner, rfl, hopening, hinner⟩, gap, behind, rfl, hgap⟩
    exact ⟨start, opening ++ '(' :: inner, gap ++ follows.toList, behind, rfl,
      not_mem_of_opening (hhead opening hopening) hinner, by simp, opening, inner, gap, by simp,
      hopening, hinner, hgap⟩

end

/-- Any run of word characters in front of a parenthesis ends in one. -/
theorem closesBehind_isCallee_iff {follows : String} {front rest : List Char} :
    ClosesBehind IsCallee follows front rest ↔ ClosesBehind EndsWord follows front rest := by
  refine and_congr_left fun _ => ?_
  constructor
  · rintro ⟨start, _, inner, rfl, ⟨name, gap, rfl, hname, hall, hgap⟩, hinner⟩
    obtain ⟨init, c, rfl⟩ := (List.eq_nil_or_concat name).resolve_left hname
    exact ⟨start ++ init, c :: gap, inner, by simp, ⟨c, gap, rfl, hall c (by simp), hgap⟩, hinner⟩
  · rintro ⟨start, _, inner, rfl, ⟨c, gap, rfl, hc, hgap⟩, hinner⟩
    exact ⟨start, [c] ++ gap, inner, rfl,
      ⟨[c], gap, rfl, List.cons_ne_nil _ _, List.forall_mem_singleton.mpr hc, hgap⟩, hinner⟩

/-- The functions of a text are counted at the parentheses that open behind a named function, that
close in front of an arrow bound by `const` or `let`, and that close in front of a block. -/
theorem functions_eq_countPlaces (text : List Char) :
    functions text = countPlaces text (OpensNamed "function") +
      countPlaces text (ClosesBehind (IsBinding "const") "=>") +
      countPlaces text (ClosesBehind (IsBinding "let") "=>") +
      countPlaces text (ClosesBehind EndsWord "\x7b") := by
  simp only [functions, functionForms, total]
  rw [count_opensNamed (by decide) (by decide),
    takesCall_arrowFunction.count_closesBehind (fun _ => isHead_binding (by decide) (by decide))
      (by decide),
    takesCall_arrowFunction.count_closesBehind (fun _ => isHead_binding (by decide) (by decide))
      (by decide),
    takesCall_block.count_closesBehind (fun _ => isHead_callee) (by decide)]
  have hblock : countPlaces text (ClosesBehind IsCallee "\x7b") =
      countPlaces text (ClosesBehind EndsWord "\x7b") :=
    countPlaces_congr fun _ _ => closesBehind_isCallee_iff
  omega

/-- A named function with its block stands at two parentheses. -/
example : functions "function f (a) \x7b g(a) \x7d".toList = 2 := by decide

end Declarations

end SourceMetrics
