import SourceMetrics.Proofs.Names.Counts
import SourceMetrics.Proofs.Names.Runs

/-! # Names of joined texts

No name goes on over the end of a line, so the tokens of joined texts are those of the first text and
those of the second. The declared variables are not: a keyword at the end of the first text may take a
name from the second one. But a variable that is used in one of the texts is used in the whole, for its
token occurs there at least as often.

* `tokens_append_cons`: the tokens of joined texts.
* `counts_joined`: the counts of joined texts and the variables that stay used. -/

namespace SourceMetrics.Names

set_option autoImplicit false

open Text

variable {text name : List Char}

theorem tokens_append_cons {c : Char} (hc : inName c = false) (text rest : List Char) :
    tokens (text ++ c :: rest) = tokens text ++ tokens rest := by
  rw [tokens_eq_filterMap_runs, tokens_eq_filterMap_runs, tokens_eq_filterMap_runs,
    runs_append_cons hc, List.filterMap_append]

/-! ## Counts and used variables -/

theorem countOf_joined (text lines name : List Char) :
    countOf (text ++ '\n' :: lines) name = countOf text name + countOf lines name := by
  rw [countOf_eq, countOf_eq, countOf_eq, tokens_append_cons (by decide), List.count_append]

theorem two_le_countOf (hdeclared : name ∈ declared text) (hused : name ∉ unusedVariables text) :
    2 ≤ countOf text name := by
  by_contra hless
  have hunused : isUnused (tokens text) name = true :=
    isUnused_iff.mpr (Nat.le_of_lt_succ (Nat.lt_of_not_le hless))
  exact hused (List.mem_filter.mpr ⟨hdeclared, hunused⟩)

theorem not_mem_unusedVariables (h : 2 ≤ countOf text name) : name ∉ unusedVariables text := by
  intro hmem
  have hle := isUnused_iff.mp (List.mem_filter.mp hmem).2
  omega

/-- The counts of joined texts are the sums of their counts, name by name, and a variable that is
declared and used in a text stays used whatever lines stand behind the text or in front of it. -/
theorem counts_joined (text lines : List Char) :
    ((counts (text ++ '\n' :: lines)).map Prod.fst).Nodup ∧
      (∀ name n, (name, n) ∈ counts (text ++ '\n' :: lines) ↔
        0 < n ∧ n = countOf text name + countOf lines name) ∧
      ∀ name ∈ declared text, name ∉ unusedVariables text →
        name ∉ unusedVariables (text ++ '\n' :: lines) ∧
          name ∉ unusedVariables (lines ++ '\n' :: text) := by
  refine ⟨nodup_counts _, fun name n => ?_, fun name hdeclared hused => ?_⟩
  · rw [mem_counts_iff, countOf_joined]
  · have htwice := two_le_countOf hdeclared hused
    constructor
    · refine not_mem_unusedVariables ?_
      rw [countOf_joined]
      omega
    · refine not_mem_unusedVariables ?_
      rw [countOf_joined]
      omega

/-- The keyword at the end takes the first name of the next line. -/
theorem counts_joined_keyword :
    "x".toList ∈ declared "let x = x; let".toList ∧
      "x".toList ∉ unusedVariables "let x = x; let".toList ∧
      "y".toList ∈ declared ("let x = x; let".toList ++ '\n' :: "y = 1".toList) ∧
      "x".toList ∉ unusedVariables ("let x = x; let".toList ++ '\n' :: "y = 1".toList) := by
  have hdeclared : "x".toList ∈ declared "let x = x; let".toList := by decide
  have hused : "x".toList ∉ unusedVariables "let x = x; let".toList := by decide
  exact ⟨hdeclared, hused, by decide, ((counts_joined _ _).2.2 _ hdeclared hused).1⟩

end SourceMetrics.Names
