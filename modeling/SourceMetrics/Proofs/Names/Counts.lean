import Mathlib.Data.List.Basic
import SourceMetrics.Names.Binding
import SourceMetrics.Proofs.Names.Runs
import SourceMetrics.Proofs.Phrase.Findings

/-! # Counts by name

The counts of a text are asked for one name at a time, and a name that is not among them has no token. A
token holds characters of a name only, so any other text is counted as absent.

* `mem_counts_iff`: what the counts hold.
* `isUnused_iff`: a name is unused if its count is one at most.
* `countOf_eq_zero`: a text that is no name. -/

namespace SourceMetrics.Names

set_option autoImplicit false

open Text

/-- The number that the counts of a text give for a name. A name that is not among them has none. -/
def countOf (text name : List Char) : Nat :=
  ((counts text).lookup name).getD 0

variable {text name : List Char}

theorem countOf_eq (text name : List Char) : countOf text name = (tokens text).count name := by
  rw [countOf, counts]
  by_cases hmem : name ∈ (tokens text).eraseDups
  · rw [List.lookup_graph _ hmem]
    rfl
  · have hnone : ((tokens text).eraseDups.map fun token => (token, (tokens text).count token)).lookup
        name = none := by
      rw [List.lookup_eq_none_iff, List.forall_mem_map]
      intro token htoken
      rw [bne_iff_ne]
      rintro rfl
      exact hmem htoken
    rw [hnone, List.count_eq_zero_of_not_mem fun htoken => hmem (List.mem_eraseDups.mpr htoken)]
    rfl

theorem mem_counts_iff {n : Nat} : (name, n) ∈ counts text ↔ 0 < n ∧ n = countOf text name := by
  rw [counts, List.mem_map, countOf_eq]
  constructor
  · rintro ⟨token, htoken, hpair⟩
    obtain ⟨rfl, rfl⟩ := Prod.mk.inj hpair
    exact ⟨List.count_pos_iff.mpr (List.mem_eraseDups.mp htoken), rfl⟩
  · rintro ⟨hpos, rfl⟩
    exact ⟨name, List.mem_eraseDups.mpr (List.count_pos_iff.mp hpos), rfl⟩

theorem nodup_counts (text : List Char) : ((counts text).map Prod.fst).Nodup := by
  have hkeys : (counts text).map Prod.fst = (tokens text).eraseDups := by
    rw [counts, List.map_map]
    exact List.map_id _
  rw [hkeys]
  exact Reader.nodup_eraseDups_scan text

theorem isUnused_iff : isUnused (tokens text) name = true ↔ countOf text name ≤ 1 := by
  rw [isUnused, decide_eq_true_iff, countOf_eq]

/-- A token holds nothing but characters of a name. -/
theorem inName_of_mem_tokens (h : name ∈ tokens text) : ∀ c ∈ name, inName c = true := by
  rw [tokens, Reader.scan_eq_map_findings] at h
  obtain ⟨finding, hfinding, rfl⟩ := List.mem_map.mp h
  obtain ⟨behind, -, -, hread⟩ := Reader.exists_of_mem_findings hfinding
  rw [tokenReader] at hread
  split at hread
  · split at hread
    · rename_i c rest hname
      obtain ⟨run, hrun, hdrop⟩ := Option.map_eq_some_iff.mp hname
      obtain ⟨⟨-, hall⟩, -⟩ := name?_eq_some_iff.mp hrun
      have hfront : dropDollars run <+: run := dropDollars_prefix run
      rw [← (Prod.mk.inj (Option.some.inj hread)).1, ← hdrop]
      exact fun c hc => hall c (hfront.mem hc)
    · cases hread
  · cases hread

theorem countOf_eq_zero (h : ∃ c ∈ name, inName c = false) : countOf text name = 0 := by
  obtain ⟨c, hc, hnot⟩ := h
  rw [countOf_eq, List.count_eq_zero]
  intro htoken
  rw [inName_of_mem_tokens htoken c hc] at hnot
  cases hnot

end SourceMetrics.Names
