import SourceMetrics.Names.Binding
import SourceMetrics.Proofs.Names.Declared
import SourceMetrics.Proofs.Names.Runs

/-! # Names that occur at most once

A declared name is a whole run of name characters, and so is its token unless a dollar sign stands at
one of its ends: a run never holds a token that begins with its own dollar sign, and none that ends
with one.

* `token?_of_isName`: a name without such dollar signs is its own token.
* `countPlaces_runAt_le_one`: an unused variable occurs at most once.
* `exists_unusedVariables_twice`: any name with such a dollar sign may occur again. -/

namespace SourceMetrics.Names

set_option autoImplicit false

open Text

variable {text name : List Char}

theorem isName_of_mem_declared (h : name ∈ declared text) : IsName name := by
  obtain ⟨finding, hfinding, rfl⟩ := mem_declared_iff.mp h
  obtain ⟨behind, -, -, hread⟩ := Reader.exists_of_mem_findings hfinding
  exact (variableReader_eq_some_iff.mp hread).2.1

/-- A name that neither begins nor ends with a dollar sign is its own token. -/
theorem token?_of_isName (hname : IsName name) (hfirst : name.head? ≠ some '$')
    (hlast : name.getLast? ≠ some '$') : token? name = some name := by
  obtain ⟨⟨c, hc, hbegins⟩, -⟩ := hname
  have hdrop : name.rdropWhile (· == '$') = name := by
    rw [List.rdropWhile_eq_self_iff]
    intro hne hdollar
    rw [List.getLast?_eq_some_getLast hne] at hlast
    exact hlast (congrArg some (eq_of_beq hdollar))
  rw [token?, hdrop]
  cases name with
  | nil => cases hc
  | cons d rest =>
    obtain rfl := Option.some.inj hc
    have hword : isWord d = true := by
      have hinName := (Bool.and_eq_true_iff.mp hbegins).1
      refine (Bool.or_eq_true_iff.mp hinName).resolve_right fun hdollar => hfirst ?_
      rw [eq_of_beq hdollar]
      rfl
    have hedge : isEdge none (d :: rest) = true := isEdge_cons.mpr (by simp [hword])
    rw [fromEdge, hedge, hbegins]
    rfl

/-- An unused variable that neither begins nor ends with a dollar sign occurs at most once as a whole
run of name characters. -/
theorem countPlaces_runAt_le_one (text name : List Char) (h : name ∈ unusedVariables text)
    (hfirst : name.head? ≠ some '$') (hlast : name.getLast? ≠ some '$') :
    countPlaces text (RunAt name) ≤ 1 := by
  obtain ⟨hdeclared, hunused⟩ := List.mem_filter.mp h
  have htoken := token?_of_isName (isName_of_mem_declared hdeclared) hfirst hlast
  calc countPlaces text (RunAt name)
      ≤ countPlaces text (TokenAt name) := countPlaces_le fun _ _ hrun => ⟨name, hrun, htoken⟩
    _ = (tokens text).count name := (count_tokens name text).symm
    _ ≤ 1 := of_decide_eq_true hunused

/-- A name with a dollar sign inside. -/
theorem countPlaces_runAt_le_one_inner :
    "a$b".toList ∈ unusedVariables "const a$b = 1;".toList ∧
      countPlaces "const a$b = 1;".toList (RunAt "a$b".toList) ≤ 1 := by
  have hunused : "a$b".toList ∈ unusedVariables "const a$b = 1;".toList := by decide
  exact ⟨hunused, countPlaces_runAt_le_one _ _ hunused (by decide) (by decide)⟩

/-- A dollar sign that is declared and used twice is reported. -/
theorem dollar_mem_unusedVariables :
    "$".toList ∈ unusedVariables "const $ = 1; $($);".toList ∧
      1 < countPlaces "const $ = 1; $($);".toList (RunAt "$".toList) := by
  rw [← count_runs]
  decide

/-! ## Names with a dollar sign at an end -/

theorem fromEdge_suffix {before : Option Char} {found : List Char}
    (h : fromEdge before text = some found) : found <:+ text := by
  induction text generalizing before with
  | nil => cases h
  | cons c rest ih =>
    rw [fromEdge] at h
    split at h
    · obtain rfl := Option.some.inj h
      exact List.suffix_rfl
    · exact (ih h).trans (List.suffix_cons c rest)

/-- No run that begins or ends with a dollar sign is its own token. -/
theorem token?_ne_self (h : name.head? = some '$' ∨ name.getLast? = some '$') :
    token? name ≠ some name := by
  intro htoken
  rw [token?] at htoken
  have hfront := List.rdropWhile_prefix (· == '$') name
  have hsame : name.rdropWhile (· == '$') = name :=
    hfront.eq_of_length_le (fromEdge_suffix htoken).length_le
  rw [hsame] at htoken
  obtain hfirst | hlast := h
  · cases name with
    | nil => cases hfirst
    | cons c rest =>
      obtain rfl := Option.some.inj hfirst
      have hothers : fromEdge (some '$') rest = some ('$' :: rest) := htoken
      have hshort := (fromEdge_suffix hothers).length_le
      rw [List.length_cons] at hshort
      omega
  · have hne : name ≠ [] := by
      rintro rfl
      cases hlast
    rw [List.getLast?_eq_some_getLast hne, Option.some.injEq] at hlast
    refine (List.rdropWhile_eq_self_iff.mp hsame) hne ?_
    rw [hlast]
    rfl

/-- Whatever name begins or ends with a dollar sign, there is a text that uses it and in which it is
reported. -/
theorem exists_unusedVariables_twice (hname : IsName name)
    (h : name.head? = some '$' ∨ name.getLast? = some '$') :
    ∃ text, name ∈ unusedVariables text ∧ 1 < countPlaces text (RunAt name) := by
  have hne : name ≠ [] := by
    rintro rfl
    obtain ⟨⟨c, hc, -⟩, -⟩ := hname
    cases hc
  have hspace : inName ' ' = false := by decide
  have hvar : "var".toList ≠ name := by
    rintro rfl
    revert h
    decide
  have hruns : runs ("var".toList ++ ' ' :: (name ++ ' ' :: name)) = ["var".toList, name, name] := by
    rw [runs_append_cons hspace, runs_append_cons hspace, runs_of_forall hname.2]
    cases name with
    | nil => exact absurd rfl hne
    | cons c rest => rfl
  have hdeclares : DeclaresAt "var" name [] ("var".toList ++ ' ' :: (name ++ ' ' :: name)) :=
    ⟨by simp, hname, "var ".toList, ' ' :: name, rfl,
      ⟨by decide, [' '], rfl, List.cons_ne_nil _ _, all_isBlank_space⟩, stops_cons.mpr hspace⟩
  have hfree : ¬ EndsDeclared "var" [] ("var".toList ++ ' ' :: (name ++ ' ' :: name)) := by
    rintro ⟨finding, -, earlier, opening, lead, hfront, ⟨hearlier, gap, rfl, hgap, -⟩, -⟩
    simp [hgap] at hfront
  refine ⟨_, List.mem_filter.mpr ⟨(mem_declared_or_endsDeclared hdeclares).resolve_right hfree, ?_⟩, ?_⟩
  · have hnever : ∀ run ∈ ["var".toList, name, name], ¬ (token? run == some name) = true := by
      have hother : token? "var".toList = some "var".toList := by decide
      intro run hrun htoken
      rw [beq_iff_eq] at htoken
      rw [List.mem_cons, List.mem_pair] at hrun
      obtain rfl | rfl | rfl := hrun
      · rw [hother] at htoken
        exact hvar (Option.some.inj htoken)
      · exact token?_ne_self h htoken
      · exact token?_ne_self h htoken
    rw [List.nil_append, isUnused, tokens_eq_filterMap_runs, hruns, List.count_filterMap,
      List.countP_eq_zero.mpr hnever]
    rfl
  · rw [List.nil_append, ← count_runs, hruns, List.count_cons_of_ne hvar, List.count_cons_self,
      List.count_cons_self]
    exact Nat.le_add_left 2 _

end SourceMetrics.Names
