import SourceMetrics.Text.Character

/-! # Blank characters, word characters and edges

A blank character is no word character, so a run of the one kind ends where the other begins. -/

namespace SourceMetrics.Text

set_option autoImplicit false

theorem isWord_eq_false_of_isBlank {c : Char} (h : isBlank c = true) : isWord c = false := by
  rw [Bool.eq_false_iff]
  intro hword
  have hkinds : isWord c = (((c.isUpper || c.isLower) || c.isDigit) || c == '_') := rfl
  rw [hkinds] at hword
  simp only [Bool.or_eq_true, beq_iff_eq] at hword
  simp only [isBlank, blankRanges, List.any_cons, List.any_nil, Bool.or_false, Bool.or_eq_true,
    Bool.and_eq_true, decide_eq_true_eq] at h
  obtain (((hupper | hlower) | hdigit) | rfl) := hword
  · have hrange : 65 ≤ c.toNat ∧ c.toNat ≤ 90 := of_decide_eq_true hupper
    omega
  · have hrange := Bool.and_eq_true_iff.mp hlower
    have hleast : 97 ≤ c.toNat := of_decide_eq_true hrange.1
    have hgreatest : c.toNat ≤ 122 := of_decide_eq_true hrange.2
    omega
  · have hrange := Bool.and_eq_true_iff.mp hdigit
    have hleast : 48 ≤ c.toNat := of_decide_eq_true hrange.1
    have hgreatest : c.toNat ≤ 57 := of_decide_eq_true hrange.2
    omega
  · revert h
    decide

theorem isBlank_eq_false_of_isWord {c : Char} (h : isWord c = true) : isBlank c = false := by
  rw [Bool.eq_false_iff]
  intro hblank
  rw [isWord_eq_false_of_isBlank hblank] at h
  cases h

theorem isEdge_iff_of_head {before : Option Char} {text : List Char} {c : Char} (h : c ∈ text.head?) :
    isEdge before text = true ↔ before.any isWord ≠ isWord c := by
  rw [isEdge, Option.mem_def.mp h, Option.any_some, bne_iff_ne]

theorem isEdge_cons {before : Option Char} {c : Char} {rest : List Char} :
    isEdge before (c :: rest) = true ↔ before.any isWord ≠ isWord c := by
  exact isEdge_iff_of_head rfl

theorem any_isWord_ne_true_iff {before : Option Char} :
    before.any isWord ≠ true ↔ ∀ c ∈ before, isWord c = false := by
  rw [ne_eq, Bool.not_eq_true, Option.any_eq_false]
  rfl

/-- Where a word begins behind another character, no word with blank characters behind it goes on. -/
theorem exists_lead_of_word {word gap taken behind rest : List Char} {c : Char}
    (hword : ∀ d ∈ word, isWord d = true) (hgap : ∀ d ∈ gap, isBlank d = true)
    (hne : taken ≠ []) (hlast : ∀ d ∈ taken.getLast?, isWord d = false) (hc : isWord c = true)
    (hsame : taken ++ c :: rest = word ++ gap ++ behind) :
    ∃ lead, taken = word ++ gap ++ lead ∧ behind = lead ++ c :: rest := by
  obtain ⟨between, hparts, hrest⟩ | ⟨lead, htaken, hbehind⟩ := List.append_eq_append_iff.mp hsame
  · cases between with
    | nil => exact ⟨[], by rw [hparts, List.append_nil, List.append_nil], hrest.symm⟩
    | cons d between =>
      exfalso
      obtain ⟨rfl, -⟩ := List.cons.inj hrest
      obtain ⟨part, hpart, -⟩ | ⟨part, -, hpart⟩ := List.append_eq_append_iff.mp hparts.symm
      · obtain ⟨d, hd⟩ := Option.isSome_iff_exists.mp (List.getLast?_isSome.mpr hne)
        have hmem : d ∈ word := by
          rw [hpart]
          exact List.mem_append_left _ (List.mem_of_getLast? hd)
        have hbefore := hlast d hd
        rw [hword d hmem] at hbefore
        cases hbefore
      · have hmem : c ∈ gap := by
          rw [hpart]
          exact List.mem_append_right _ List.mem_cons_self
        rw [isWord_eq_false_of_isBlank (hgap c hmem)] at hc
        cases hc
  · exact ⟨lead, htaken, hbehind⟩

end SourceMetrics.Text
