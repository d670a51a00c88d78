import SourceMetrics.Declarations
import SourceMetrics.Proofs.Phrase.Packing
import SourceMetrics.Proofs.Text.Word

/-! # Classes

The word that introduces a class may also be the name of one, so a class may be found at the name of
another one. It then ends behind that name, and the scan, which passes over it, finds the most classes
of which none begins inside another one.

* `takes_introduction`: a keyword in front of a name.
* `inOrder_introduction`: what begins inside a finding ends behind it. -/

namespace SourceMetrics.Declarations

set_option autoImplicit false

open Text Phrase Phrase.Part

/-- A keyword, blank characters and a name. -/
def IsIntroduction (keyword : String) (text : List Char) : Prop :=
  ∃ gap name, text = keyword.toList ++ gap ++ name ∧ gap ≠ [] ∧ (∀ c ∈ gap, isBlank c = true) ∧
    name ≠ [] ∧ ∀ c ∈ name, isWord c = true

variable {keyword : String} {before : Option Char} {text taken rest : List Char}

theorem takes_introduction (hne : keyword.toList ≠ [])
    (hkeyword : ∀ c ∈ keyword.toList, isWord c = true) :
    Takes before [edge, exact keyword, gap, word] taken rest ↔
      (∀ c ∈ before, isWord c = false) ∧ IsIntroduction keyword taken ∧ Stops isWord rest := by
  simp only [takes_keyword hne hkeyword, takes_gap, takes_word, takes_nil, any_isWord_ne_true_iff]
  refine and_congr_right fun _ => ?_
  constructor
  · rintro ⟨_, rfl, gap, _, rfl, hgapne, hgap, -, name, _, rfl, hnamene, hname, hstops, rfl⟩
    exact ⟨⟨gap, name, by simp, hgapne, hgap, hnamene, hname⟩, hstops⟩
  · rintro ⟨⟨gap, name, rfl, hgapne, hgap, hnamene, hname⟩, hstops⟩
    refine ⟨gap ++ name, List.append_assoc .., gap, name, rfl, hgapne, hgap, ?_, name, [],
      (List.append_nil _).symm, hnamene, hname, hstops, rfl⟩
    obtain ⟨c, name, rfl⟩ := List.exists_cons_of_ne_nil hnamene
    exact stops_cons.mpr (isBlank_eq_false_of_isWord (hname c List.mem_cons_self))

theorem IsIntroduction.keyword_le (h : IsIntroduction keyword text) :
    keyword.toList.length ≤ text.length := by
  obtain ⟨gap, name, rfl, -⟩ := h
  rw [List.append_assoc, List.length_append]
  exact Nat.le_add_right _ _

/-- What begins inside a finding is no longer than the keyword there, for it is the name of the finding
that is taken for the keyword. -/
theorem IsIntroduction.others_le {covered others next behind : List Char}
    (hne : keyword.toList ≠ []) (hkeyword : ∀ c ∈ keyword.toList, isWord c = true)
    (hfirst : IsIntroduction keyword (covered ++ others)) (hstops : Stops isWord rest)
    (hcovered : covered ≠ []) (hlast : ∀ c ∈ covered.getLast?, isWord c = false)
    (hnext : IsIntroduction keyword next) (hrest : others ++ rest = next ++ behind) :
    others.length ≤ next.length := by
  have hlength := hnext.keyword_le
  obtain ⟨gap, name, hparts, -, hgap, -, hname⟩ := hfirst
  obtain ⟨gap', name', rfl, hgapne', hgap', -, -⟩ := hnext
  obtain ⟨c, word, hword⟩ := List.exists_cons_of_ne_nil hne
  have hc : isWord c = true := hkeyword c (by rw [hword]; exact List.mem_cons_self)
  have hwhole : covered ++ c :: (word ++ gap' ++ name' ++ behind) =
      keyword.toList ++ gap ++ (name ++ rest) := by
    rw [← List.append_assoc _ name rest, ← hparts, List.append_assoc covered, hrest, hword]
    simp
  obtain ⟨lead, rfl, -⟩ := exists_lead_of_word hkeyword hgap hcovered hlast hc hwhole
  rw [List.append_assoc] at hparts
  have hothers := List.append_cancel_left hparts
  subst hothers
  have hblank : Stops isWord (gap' ++ (name' ++ behind)) := by
    obtain ⟨d, gap', rfl⟩ := List.exists_cons_of_ne_nil hgapne'
    exact stops_cons.mpr (isWord_eq_false_of_isBlank (hgap' d List.mem_cons_self))
  have hsame : others ++ rest = keyword.toList ++ (gap' ++ (name' ++ behind)) := by
    rw [hrest]
    simp
  obtain ⟨rfl, -⟩ := append_inj_of_stops (fun d hd => hname d (List.mem_append_right _ hd)) hstops
    hkeyword hblank hsame
  exact hlength

theorem inOrder_introduction (hne : keyword.toList ≠ [])
    (hkeyword : ∀ c ∈ keyword.toList, isWord c = true) (text : List Char) :
    (Phrase.reader [edge, exact keyword, gap, word]).InOrder text where
  pos hfinds := by
    obtain ⟨front, taken, rest, -, -, rfl, -, htakes⟩ := finds_iff.mp hfinds
    obtain ⟨-, hintroduces, -⟩ := (takes_introduction hne hkeyword).mp htakes
    exact Nat.lt_of_lt_of_le (List.length_pos_iff.mpr hne) hintroduces.keyword_le
  le {i j m n} hfirst hsecond hafter := by
    by_cases hwithin : j < i + m
    · obtain ⟨front, taken, rest, rfl, rfl, rfl, -, htakes⟩ := finds_iff.mp hfirst
      obtain ⟨later, next, behind, htext, rfl, rfl, -, hnext⟩ := finds_iff.mp hsecond
      obtain ⟨covered, others, hcovered, -, rfl, rfl, hrest⟩ := exists_between htext hafter hwithin
      obtain ⟨-, hintroduces, hstops⟩ := (takes_introduction hne hkeyword).mp htakes
      obtain ⟨hlast, hintroduced, -⟩ := (takes_introduction hne hkeyword).mp hnext
      rw [List.getLast?_append_of_ne_nil _ hcovered] at hlast
      have hle := hintroduces.others_le hne hkeyword hstops hcovered hlast hintroduced hrest
      rw [List.length_append, List.length_append]
      omega
    · omega

end SourceMetrics.Declarations
