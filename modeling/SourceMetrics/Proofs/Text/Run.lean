/-! # Runs at the front of a sequence

`takeWhile` takes the run of elements with a property at the front. What follows the run is empty or
begins with an element without the property, and this tells the run. -/

namespace SourceMetrics.Text

set_option autoImplicit false

variable {α : Type} {allowed : α → Bool}

/-- A sequence does not begin with an allowed element. -/
def Stops (allowed : α → Bool) (rest : List α) : Prop :=
  ∀ a ∈ rest.head?, allowed a = false

theorem stops_nil : Stops allowed [] :=
  fun _ ha => absurd ha (by simp)

theorem stops_cons {a : α} {rest : List α} : Stops allowed (a :: rest) ↔ allowed a = false := by
  simp [Stops]

theorem stops_append {front rest : List α} (hfront : Stops allowed front) (hrest : Stops allowed rest) :
    Stops allowed (front ++ rest) := by
  cases front with
  | nil => exact hrest
  | cons a front => exact hfront

theorem takeWhile_append_of_stops {front rest : List α} (hfront : ∀ a ∈ front, allowed a = true)
    (hrest : Stops allowed rest) : (front ++ rest).takeWhile allowed = front := by
  rw [List.takeWhile_append_of_pos hfront]
  cases rest with
  | nil => rw [List.takeWhile_nil, List.append_nil]
  | cons a rest =>
    have ha : ¬ allowed a = true := by simp [stops_cons.mp hrest]
    rw [List.takeWhile_cons_of_neg ha, List.append_nil]

theorem dropWhile_of_stops {rest : List α} (h : Stops allowed rest) : rest.dropWhile allowed = rest := by
  cases rest with
  | nil => rfl
  | cons a rest => exact List.dropWhile_cons_of_neg (by simp [stops_cons.mp h])

theorem stops_dropWhile (text : List α) : Stops allowed (text.dropWhile allowed) := by
  intro a ha
  have hnot := List.head?_dropWhile_not allowed text
  rw [Option.mem_def.mp ha] at hnot
  exact hnot

theorem exists_run (allowed : α → Bool) (text : List α) :
    ∃ front rest, text = front ++ rest ∧ (∀ a ∈ front, allowed a = true) ∧ Stops allowed rest :=
  ⟨text.takeWhile allowed, text.dropWhile allowed, List.takeWhile_append_dropWhile.symm,
    List.all_eq_true.mp List.all_takeWhile, stops_dropWhile text⟩

theorem takeWhile_append_eq_iff {front rest : List α} :
    (front ++ rest).takeWhile allowed = front ↔
      (∀ a ∈ front, allowed a = true) ∧ Stops allowed rest := by
  constructor
  · intro h
    have hfront : ∀ a ∈ front, allowed a = true := by
      intro a ha
      rw [← h] at ha
      exact List.all_eq_true.mp List.all_takeWhile a ha
    refine ⟨hfront, ?_⟩
    cases rest with
    | nil => exact stops_nil
    | cons a rest =>
      rw [List.takeWhile_append_of_pos hfront] at h
      rw [stops_cons, Bool.eq_false_iff]
      intro ha
      rw [List.takeWhile_cons_of_pos ha] at h
      exact absurd (List.append_right_eq_self.mp h) (List.cons_ne_nil _ _)
  · rintro ⟨hfront, hrest⟩
    exact takeWhile_append_of_stops hfront hrest

/-- A sequence is parted in one way at the end of its run of allowed elements. -/
theorem append_inj_of_stops {front front' rest rest' : List α} (hfront : ∀ a ∈ front, allowed a = true)
    (hrest : Stops allowed rest) (hfront' : ∀ a ∈ front', allowed a = true)
    (hrest' : Stops allowed rest') (h : front ++ rest = front' ++ rest') :
    front = front' ∧ rest = rest' := by
  have hsame : front = front' := by
    rw [← takeWhile_append_of_stops hfront hrest, h, takeWhile_append_of_stops hfront' hrest']
  subst hsame
  exact ⟨rfl, List.append_cancel_left h⟩

/-- Allowed elements at the front are part of the run. -/
theorem prefix_of_stops {front front' rest rest' : List α} (hfront : ∀ a ∈ front, allowed a = true)
    (hrest' : Stops allowed rest') (h : front ++ rest = front' ++ rest') : front <+: front' := by
  obtain ⟨behind, hfront', -⟩ | ⟨others, hothers, hrest⟩ := List.append_eq_append_iff.mp h
  · exact ⟨behind, hfront'.symm⟩
  · cases others with
    | nil => exact ⟨[], by rw [hothers, List.append_nil, List.append_nil]⟩
    | cons a others =>
      have hallowed := hfront a (by rw [hothers]; exact List.mem_append_right _ List.mem_cons_self)
      rw [hrest, List.cons_append, stops_cons, hallowed] at hrest'
      cases hrest'

theorem takeWhile_append_stop [DecidableEq α] {stop : α} {front rest : List α}
    (hfront : stop ∉ front) : (front ++ stop :: rest).takeWhile (· != stop) = front := by
  refine takeWhile_append_of_stops (fun a ha => ?_) (stops_cons.mpr (bne_self_eq_false stop))
  rw [bne_iff_ne]
  rintro rfl
  exact hfront ha

/-- A sequence is parted in one way at its first `stop`. -/
theorem append_cons_inj_of_not_mem [DecidableEq α] {stop : α} {front front' rest rest' : List α}
    (hfront : stop ∉ front) (hfront' : stop ∉ front')
    (h : front ++ stop :: rest = front' ++ stop :: rest') : front = front' ∧ rest = rest' := by
  have hsame : front = front' := by
    rw [← takeWhile_append_stop hfront, h, takeWhile_append_stop hfront']
  subst hsame
  exact ⟨rfl, (List.cons.inj (List.append_cancel_left h)).2⟩

end SourceMetrics.Text
