import SourceMetrics.Proofs.Phrase.Findings
import SourceMetrics.Proofs.Phrase.Places

/-! # The most findings that stand apart

A scan takes the first finding and goes on behind it. Where a finding that begins later does not end
earlier, this leaves the most room for others, so that no choice of findings which stand apart has more
of them than the scan.

* `length_le_length_scan`: a scan keeps the most findings that stand apart.
* `length_scan_add_le`: what two texts hold, a text that holds the findings of both holds at least. -/

namespace SourceMetrics.Reader

set_option autoImplicit false

variable {α : Type} {reader : Reader α} {text front rest : List Char} {i j m n : ℕ}

/-- No finding is empty, and one that begins later does not end earlier. -/
structure InOrder (reader : Reader α) (text : List Char) : Prop where
  pos : ∀ {i m}, reader.Finds text i m → 0 < m
  le : ∀ {i j m n}, reader.Finds text i m → reader.Finds text j n → i < j → i + m ≤ j + n

/-- A list of places with the number of characters that a finding covers there, each behind the one
before it. -/
structure Choice (reader : Reader α) (text : List Char) (places : List (ℕ × ℕ)) : Prop where
  finds : ∀ p ∈ places, reader.Finds text p.1 p.2
  apart : places.Pairwise fun p q => p.1 + p.2 ≤ q.1

theorem Finds.unique (hfirst : reader.Finds text i m) (hsecond : reader.Finds text i n) : m = n := by
  obtain ⟨-, value, hread⟩ := hfirst
  obtain ⟨-, value', hread'⟩ := hsecond
  rw [hread, Option.some.injEq] at hread'
  exact (Prod.mk.inj hread').2

/-- The choice behind its first place begins behind any finding that does not begin later. -/
theorem InOrder.le_of_choice (h : reader.InOrder text) {first : ℕ × ℕ} {places : List (ℕ × ℕ)}
    (hchoice : reader.Choice text (first :: places)) (hfinds : reader.Finds text i m)
    (hle : i ≤ first.1) : ∀ p ∈ places, i + m ≤ p.1 := by
  intro p hp
  have hfirst := hchoice.finds first List.mem_cons_self
  have hapart := (List.pairwise_cons.mp hchoice.apart).1 p hp
  refine Nat.le_trans ?_ hapart
  obtain rfl | hless := Nat.eq_or_lt_of_le hle
  · rw [hfinds.unique hfirst]
  · exact h.le hfinds hfirst hless

theorem Choice.tail {first : ℕ × ℕ} {places : List (ℕ × ℕ)}
    (h : reader.Choice text (first :: places)) : reader.Choice text places :=
  ⟨fun p hp => h.finds p (.tail _ hp), (List.pairwise_cons.mp h.apart).2⟩

/-- The induction is on what is left of the text. Where the scan takes a finding, the choice loses its
first place, and what is left of it stands behind the finding. -/
theorem InOrder.length_le_length_scanFrom (h : reader.InOrder text) (htext : text = front ++ rest)
    (skip : ℕ) {places : List (ℕ × ℕ)} (hchoice : reader.Choice text places)
    (hplaces : ∀ p ∈ places, front.length + skip ≤ p.1) :
    places.length ≤ (reader.scanFrom skip front.getLast? rest).length := by
  induction rest generalizing front skip places with
  | nil =>
    cases places with
    | nil => exact Nat.zero_le _
    | cons first places =>
      have hless := (hchoice.finds first List.mem_cons_self).1
      have hle := hplaces first List.mem_cons_self
      rw [htext, List.append_nil] at hless
      omega
  | cons c rest ih =>
    have hnext : text = (front ++ [c]) ++ rest := by
      rw [htext, List.append_assoc, List.singleton_append]
    have hlength : (front ++ [c]).length = front.length + 1 := by simp
    have hlast : some c = (front ++ [c]).getLast? := by simp
    obtain _ | skip := skip
    · rw [scanFrom]
      cases hread : reader front.getLast? (c :: rest) with
      | none =>
        simp only
        rw [hlast]
        refine ih hnext 0 hchoice fun p hp => ?_
        have hle := hplaces p hp
        have hne : p.1 ≠ front.length := by
          intro hsame
          have hfinds := hchoice.finds p hp
          rw [hsame] at hfinds
          obtain ⟨value, hvalue⟩ := (finds_length_iff htext).mp hfinds
          rw [hread] at hvalue
          cases hvalue
        omega
      | some found =>
        obtain ⟨value, covered⟩ := found
        have hhere : reader.Finds text front.length covered :=
          (finds_length_iff htext).mpr ⟨value, hread⟩
        have hpos := h.pos hhere
        simp only
        rw [hlast, List.length_cons]
        cases places with
        | nil => exact Nat.zero_le _
        | cons first places =>
          have hbehind := h.le_of_choice hchoice hhere (hplaces first List.mem_cons_self)
          refine Nat.succ_le_succ (ih hnext _ hchoice.tail fun p hp => ?_)
          have hle := hbehind p hp
          omega
    · rw [scanFrom, hlast]
      refine ih hnext skip hchoice fun p hp => ?_
      have hle := hplaces p hp
      omega

/-- No choice of findings that stand apart has more of them than the scan. -/
theorem InOrder.length_le_length_scan (h : reader.InOrder text) {places : List (ℕ × ℕ)}
    (hchoice : reader.Choice text places) : places.length ≤ (reader.scan text).length :=
  h.length_le_length_scanFrom (show text = [] ++ text from rfl) 0 hchoice fun _ _ => Nat.zero_le _

/-! ## Findings of two texts -/

/-- The places of what a scan finds. -/
def places (reader : Reader α) (text : List Char) : List (ℕ × ℕ) :=
  (reader.findings text).map fun finding => (finding.front.length, finding.covered)

theorem length_places (text : List Char) : (reader.places text).length = (reader.scan text).length := by
  rw [places, scan_eq_map_findings, List.length_map, List.length_map]

theorem choice_places (text : List Char) : reader.Choice text (reader.places text) where
  finds := by
    rw [places, List.forall_mem_map]
    intro finding hfinding
    obtain ⟨behind, htext, hbehind, hread⟩ := exists_of_mem_findings hfinding
    obtain ⟨c, rest, rfl⟩ := List.exists_cons_of_ne_nil hbehind
    exact (finds_length_iff htext).mpr ⟨finding.value, hread⟩
  apart := List.pairwise_map.mpr ((pairwise_findings text).imp And.right)

/-- A text in which the findings of two others stand apart holds at least as many as both. -/
theorem InOrder.length_scan_add_le {whole first second : List Char} (h : reader.InOrder whole)
    (shift : ℕ)
    (hfirst : ∀ {i m}, reader.Finds first i m → reader.Finds whole i m ∧ i + m ≤ shift)
    (hsecond : ∀ {i m}, reader.Finds second i m → reader.Finds whole (shift + i) m) :
    (reader.scan first).length + (reader.scan second).length ≤ (reader.scan whole).length := by
  have hchoice : reader.Choice whole
      (reader.places first ++ (reader.places second).map fun p => (shift + p.1, p.2)) := by
    refine ⟨?_, List.pairwise_append.mpr ⟨(choice_places first).apart, ?_, ?_⟩⟩
    · rw [List.forall_mem_append, List.forall_mem_map]
      exact ⟨fun p hp => (hfirst ((choice_places first).finds p hp)).1,
        fun p hp => hsecond ((choice_places second).finds p hp)⟩
    · refine List.pairwise_map.mpr ((choice_places second).apart.imp fun hapart => ?_)
      simp only
      omega
    · intro p hp q hq
      obtain ⟨later, -, rfl⟩ := List.mem_map.mp hq
      have hends := (hfirst ((choice_places first).finds p hp)).2
      simp only
      omega
  have hle := h.length_le_length_scan hchoice
  rwa [List.length_append, List.length_map, length_places, length_places] at hle

end SourceMetrics.Reader
