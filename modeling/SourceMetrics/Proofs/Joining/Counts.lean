import SourceMetrics.Proofs.Declarations.Classes
import SourceMetrics.Proofs.Declarations.Functions
import SourceMetrics.Proofs.Joining.Decisions

/-! # Counts of joined texts

Nothing that is counted in a text is lost when other lines are put in front of it or behind it. For
functions and decision points this shows at the places that tell them. A class that is found across the
line feed may take the place of one that was found behind it, yet the scan finds as many as can stand
apart, and those of the two texts do.

* `isSuperadditive_introduction`: forms that are not told by places.
* `add_le_count_joined`: functions, classes and complexity. -/

namespace SourceMetrics

set_option autoImplicit false

open Text Phrase Phrase.Part

namespace Declarations

variable {keyword : String} {head : List Char → Prop} {follows : String}

/-! ## Functions -/

theorem isLasting_opensNamed (keyword : String) : IsLasting (OpensNamed keyword) where
  inFront lines := by
    rintro ⟨⟨start, naming, rfl, hstart, hnaming⟩, hrest⟩
    exact ⟨⟨lines ++ '\n' :: start, naming, by simp, (forall_getLast?_line (by decide)).mpr hstart,
      hnaming⟩, hrest⟩
  behind lines := by
    rintro ⟨hfront, behind, rfl⟩
    exact ⟨hfront, behind ++ '\n' :: lines, rfl⟩

theorem isLasting_closesBehind (head : List Char → Prop) (follows : String) :
    IsLasting (ClosesBehind head follows) where
  inFront lines := by
    rintro ⟨⟨start, opening, inner, rfl, hopening, hinner⟩, hrest⟩
    exact ⟨⟨lines ++ '\n' :: start, opening, inner, by simp, hopening, hinner⟩, hrest⟩
  behind lines := by
    rintro ⟨hfront, gap, behind, rfl, hgap⟩
    exact ⟨hfront, gap, behind ++ '\n' :: lines, by simp, hgap⟩

theorem isSuperadditive_arrowFunction (hne : keyword.toList ≠ [])
    (hkeyword : keyword.toList.all isWord = true) : (arrowFunction keyword).IsSuperadditive :=
  isSuperadditive_of_isLasting
    (fun _ => takesCall_arrowFunction.count_closesBehind (fun _ => isHead_binding hne hkeyword)
      (by decide))
    (isLasting_closesBehind _ _)

theorem isSuperadditive_of_mem_functionForms : ∀ phrase ∈ functionForms, phrase.IsSuperadditive := by
  simp only [functionForms, List.forall_mem_cons]
  refine ⟨?_, isSuperadditive_arrowFunction (by decide) (by decide),
    isSuperadditive_arrowFunction (by decide) (by decide), ?_, by simp⟩
  · exact isSuperadditive_of_isLasting (fun _ => count_opensNamed (by decide) (by decide))
      (isLasting_opensNamed "function")
  · exact isSuperadditive_of_isLasting
      (fun _ => takesCall_block.count_closesBehind (fun _ => isHead_callee) (by decide))
      (isLasting_closesBehind _ _)

theorem functions_add_le (text lines : List Char) :
    functions text + functions lines ≤ functions (text ++ '\n' :: lines) :=
  total_count_add_le isSuperadditive_of_mem_functionForms text lines

/-! ## Classes -/

/-- The scan of the joined texts finds as many as stand apart, among them those of the two texts. -/
theorem isSuperadditive_introduction (hne : keyword.toList ≠ [])
    (hkeyword : ∀ c ∈ keyword.toList, isWord c = true) :
    Phrase.IsSuperadditive [edge, exact keyword, gap, word] := by
  intro text lines
  refine (inOrder_introduction hne hkeyword (text ++ '\n' :: lines)).length_scan_add_le
    (text.length + 1) ?_ ?_
  · intro i m hfinds
    obtain ⟨front, taken, rest, rfl, rfl, rfl, hwhole, htakes⟩ := finds_iff.mp hfinds
    obtain ⟨hbefore, hintroduces, hstops⟩ := (takes_introduction hne hkeyword).mp htakes
    have hjoined : Stops isWord (rest ++ '\n' :: lines) :=
      stops_append hstops (stops_cons.mpr (by decide))
    refine ⟨finds_iff.mpr ⟨front, taken, rest ++ '\n' :: lines, by simp, rfl, rfl, by simp,
      (takes_introduction hne hkeyword).mpr ⟨hbefore, hintroduces, hjoined⟩⟩, ?_⟩
    simp only [List.length_append]
    omega
  · intro i m hfinds
    obtain ⟨front, taken, rest, rfl, rfl, rfl, hwhole, htakes⟩ := finds_iff.mp hfinds
    obtain ⟨hbefore, hintroduced⟩ := (takes_introduction hne hkeyword).mp htakes
    have hjoined : ∀ c ∈ (text ++ '\n' :: front).getLast?, isWord c = false :=
      (forall_getLast?_line (by decide)).mpr hbefore
    have hlength : (text ++ '\n' :: front).length = text.length + 1 + front.length := by
      rw [List.length_append, List.length_cons]
      omega
    exact finds_iff.mpr ⟨text ++ '\n' :: front, taken, rest, by simp, hlength, rfl, hwhole,
      (takes_introduction hne hkeyword).mpr ⟨hjoined, hintroduced⟩⟩

theorem classes_add_le (text lines : List Char) :
    classes text + classes lines ≤ classes (text ++ '\n' :: lines) :=
  isSuperadditive_introduction (by decide) (List.all_eq_true.mp (by decide)) text lines

end Declarations

/-! ## Joined texts -/

open Declarations in
/-- Joined by a line feed, two texts have at least the functions, the classes and the decision points of
both, and no other decision points if the first one does not end in a letter. -/
theorem add_le_count_joined (text lines : List Char) :
    functions text + functions lines ≤ functions (text ++ '\n' :: lines) ∧
      classes text + classes lines ≤ classes (text ++ '\n' :: lines) ∧
      min (Nat.pow 2 32 - 1) (Complexity.ofText text + Complexity.ofText lines - 1) ≤
        Complexity.ofText (text ++ '\n' :: lines) ∧
      ((∀ c ∈ (text.rdropWhile isBlank).getLast?, c.isAlpha = false) →
        Complexity.ofText (text ++ '\n' :: lines) =
          min (Nat.pow 2 32 - 1) (Complexity.ofText text + Complexity.ofText lines - 1)) := by
  refine ⟨functions_add_le text lines, classes_add_le text lines, ?_, fun hends => ?_⟩
  · have hpoints := Complexity.decisionPoints_add_le text lines
    simp only [Complexity.ofText_eq_min, Complexity.greatest]
    omega
  · have hpoints := Complexity.decisionPoints_joined hends lines
    simp only [Complexity.ofText_eq_min, Complexity.greatest]
    omega

/-- The first text ends in a brace. -/
theorem add_le_count_joined_brace :
    (∀ c ∈ ("if (a) \x7b f() \x7d ".toList.rdropWhile isBlank).getLast?, c.isAlpha = false) ∧
      Complexity.ofText ("if (a) \x7b f() \x7d ".toList ++ '\n' :: "(b) case 1: c&&d".toList) = 4 := by
  have hlast : ("if (a) \x7b f() \x7d ".toList.rdropWhile isBlank).getLast? = some '\x7d' := by decide
  have hends : ∀ c ∈ ("if (a) \x7b f() \x7d ".toList.rdropWhile isBlank).getLast?, c.isAlpha = false := by
    intro c hc
    rw [hlast] at hc
    obtain rfl := Option.some.inj hc
    decide
  exact ⟨hends, ((add_le_count_joined _ _).2.2.2 hends).trans (by decide)⟩

/-- The keyword at the end of the first text meets its parenthesis in the second one. -/
example : Complexity.ofText "a = b if".toList = 1 ∧ Complexity.ofText "(c)".toList = 1 ∧
    Complexity.ofText "a = b if\n(c)".toList = 2 := by
  decide

end SourceMetrics
