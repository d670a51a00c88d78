import SourceMetrics.Phrase.Scan

/-! # Findings and where they stand

A scan keeps the values that it reads. Here each of them is kept with the text in front of it and the
number of characters that it covers.

* `scan_eq_map_findings`: the values are those of the scan.
* `pairwise_findings`: the findings stand from left to right, and none begins inside another one.
* `mem_findings_or_covered`: what can be read at a place is a finding, or an earlier finding covers the
  place.
* `pairwise_eraseDups_scan`: the values without repetitions are in the order of their first findings. -/

namespace SourceMetrics

set_option autoImplicit false

/-- What a scan has found: the text in front of it, its value, and the number of characters that it
covers. -/
structure Reader.Finding (α : Type) where
  front : List Char
  value : α
  covered : Nat

namespace Reader

variable {α : Type} {reader : Reader α} {text front rest : List Char}

/-- The findings in `rest`, which stands behind `front`, where the first `skip` characters are already
covered. -/
def findingsFrom (reader : Reader α) : (skip : Nat) → (front : List Char) → List Char → List (Finding α)
  | _, _, [] => []
  | skip + 1, front, c :: rest => findingsFrom reader skip (front ++ [c]) rest
  | 0, front, c :: rest =>
    match reader front.getLast? (c :: rest) with
    | some (value, covered) =>
      ⟨front, value, covered⟩ :: findingsFrom reader (covered - 1) (front ++ [c]) rest
    | none => findingsFrom reader 0 (front ++ [c]) rest

/-- The findings in a text, from left to right. -/
def findings (reader : Reader α) (text : List Char) : List (Finding α) :=
  reader.findingsFrom 0 [] text

theorem scanFrom_eq_map (skip : Nat) (front rest : List Char) :
    reader.scanFrom skip front.getLast? rest =
      (reader.findingsFrom skip front rest).map Finding.value := by
  induction rest generalizing skip front with
  | nil => rfl
  | cons c rest ih =>
    have hlast : some c = (front ++ [c]).getLast? := by simp
    cases skip with
    | zero =>
      rw [scanFrom, findingsFrom]
      cases reader front.getLast? (c :: rest) with
      | none =>
        simp only
        rw [hlast]
        exact ih 0 _
      | some found =>
        obtain ⟨value, covered⟩ := found
        simp only
        rw [List.map_cons, hlast, ih]
    | succ skip =>
      rw [scanFrom, findingsFrom, hlast]
      exact ih skip _

theorem scan_eq_map_findings (text : List Char) :
    reader.scan text = (reader.findings text).map Finding.value :=
  scanFrom_eq_map 0 [] text

/-- A finding is read where it stands, behind what is already covered. -/
theorem exists_of_mem_findingsFrom {skip : Nat} {finding : Finding α}
    (h : finding ∈ reader.findingsFrom skip front rest) :
    ∃ passed behind, finding.front = front ++ passed ∧ rest = passed ++ behind ∧
      skip ≤ passed.length ∧ behind ≠ [] ∧
      reader finding.front.getLast? behind = some (finding.value, finding.covered) := by
  induction rest generalizing skip front with
  | nil => cases h
  | cons c rest ih =>
    -- a finding behind the first character
    have hlater : ∀ {skip'}, finding ∈ reader.findingsFrom skip' (front ++ [c]) rest →
        skip ≤ skip' + 1 → ∃ passed behind, finding.front = front ++ passed ∧
          c :: rest = passed ++ behind ∧ skip ≤ passed.length ∧ behind ≠ [] ∧
          reader finding.front.getLast? behind = some (finding.value, finding.covered) := by
      intro skip' hmem hle
      obtain ⟨passed, behind, hfront, hrest, hskip, hbehind, hread⟩ := ih hmem
      refine ⟨c :: passed, behind, ?_, ?_, ?_, hbehind, hread⟩
      · rw [hfront, List.append_assoc, List.singleton_append]
      · rw [hrest, List.cons_append]
      · rw [List.length_cons]
        omega
    cases skip with
    | zero =>
      rw [findingsFrom] at h
      cases hread : reader front.getLast? (c :: rest) with
      | none =>
        rw [hread] at h
        exact hlater h (Nat.zero_le _)
      | some found =>
        obtain ⟨value, covered⟩ := found
        rw [hread] at h
        obtain rfl | hmem := List.mem_cons.mp h
        · exact ⟨[], c :: rest, (List.append_nil _).symm, rfl, Nat.zero_le _, List.cons_ne_nil _ _,
            hread⟩
        · exact hlater hmem (Nat.zero_le _)
    | succ skip =>
      rw [findingsFrom] at h
      exact hlater h (Nat.le_refl _)

theorem exists_of_mem_findings {finding : Finding α} (h : finding ∈ reader.findings text) :
    ∃ behind, text = finding.front ++ behind ∧ behind ≠ [] ∧
      reader finding.front.getLast? behind = some (finding.value, finding.covered) := by
  obtain ⟨passed, behind, hfront, htext, -, hbehind, hread⟩ := exists_of_mem_findingsFrom h
  rw [List.nil_append] at hfront
  exact ⟨behind, by rw [hfront, htext], hbehind, hread⟩

theorem pairwise_findingsFrom (skip : Nat) (front rest : List Char) :
    (reader.findingsFrom skip front rest).Pairwise fun earlier later =>
      earlier.front.length < later.front.length ∧
        earlier.front.length + earlier.covered ≤ later.front.length := by
  induction rest generalizing skip front with
  | nil => exact List.Pairwise.nil
  | cons c rest ih =>
    cases skip with
    | zero =>
      rw [findingsFrom]
      cases reader front.getLast? (c :: rest) with
      | none => exact ih 0 _
      | some found =>
        obtain ⟨value, covered⟩ := found
        refine List.pairwise_cons.mpr ⟨fun later hlater => ?_, ih _ _⟩
        obtain ⟨passed, _, hfront, -, hskip, -⟩ := exists_of_mem_findingsFrom hlater
        simp only [hfront, List.length_append, List.length_singleton]
        omega
    | succ skip => exact ih skip _

/-- The findings stand from left to right, and none begins inside another one. -/
theorem pairwise_findings (text : List Char) :
    (reader.findings text).Pairwise fun earlier later =>
      earlier.front.length < later.front.length ∧
        earlier.front.length + earlier.covered ≤ later.front.length :=
  pairwise_findingsFrom 0 [] text

theorem mem_findingsFrom_or_covered {value : α} {covered : Nat} (passed : List Char) (hrest : rest ≠ [])
    (hread : reader (front ++ passed).getLast? rest = some (value, covered)) (skip : Nat)
    (hskip : skip ≤ passed.length) :
    ⟨front ++ passed, value, covered⟩ ∈ reader.findingsFrom skip front (passed ++ rest) ∨
      ∃ finding ∈ reader.findingsFrom skip front (passed ++ rest), ∃ taken, taken ≠ [] ∧
        front ++ passed = finding.front ++ taken ∧ taken.length < finding.covered := by
  induction passed generalizing front skip with
  | nil =>
    obtain rfl := Nat.le_zero.mp hskip
    obtain ⟨c, rest, rfl⟩ := List.exists_cons_of_ne_nil hrest
    rw [List.append_nil] at hread ⊢
    rw [List.nil_append, findingsFrom, hread]
    exact .inl List.mem_cons_self
  | cons c passed ih =>
    have hfront : front ++ c :: passed = (front ++ [c]) ++ passed := by
      rw [List.append_assoc, List.singleton_append]
    rw [hfront] at hread ⊢
    rw [List.cons_append]
    cases skip with
    | succ skip =>
      rw [findingsFrom]
      exact ih hread skip (Nat.le_of_succ_le_succ hskip)
    | zero =>
      rw [findingsFrom]
      cases hhere : reader front.getLast? (c :: (passed ++ rest)) with
      | none => exact ih hread 0 (Nat.zero_le _)
      | some found =>
        obtain ⟨value', covered'⟩ := found
        by_cases hcovered : covered' - 1 ≤ passed.length
        · obtain hmem | ⟨finding, hmem, hcovers⟩ := ih hread _ hcovered
          · exact .inl (.tail _ hmem)
          · exact .inr ⟨finding, .tail _ hmem, hcovers⟩
        · have hcovers : (c :: passed).length < covered' := by
            rw [List.length_cons]
            omega
          exact .inr ⟨_, List.mem_cons_self, c :: passed, List.cons_ne_nil _ _, hfront.symm, hcovers⟩

/-- What can be read at a place is a finding there, or an earlier finding covers the place. -/
theorem mem_findings_or_covered {value : α} {covered : Nat} (hrest : rest ≠ [])
    (hread : reader front.getLast? rest = some (value, covered)) :
    ⟨front, value, covered⟩ ∈ reader.findings (front ++ rest) ∨
      ∃ finding ∈ reader.findings (front ++ rest), ∃ taken, taken ≠ [] ∧
        front = finding.front ++ taken ∧ taken.length < finding.covered :=
  mem_findingsFrom_or_covered front hrest hread 0 (Nat.zero_le _)

/-! ## Each value once -/

/-- Without repetitions, the values of a list are in the order of the items that first have them. The
rest of the list loses the repetitions of its first value, so the induction is on the length. -/
theorem pairwise_eraseDups_map {β : Type} [BEq α] [LawfulBEq α] {value : β → α}
    {precedes : β → β → Prop} {items : List β} (h : items.Pairwise precedes) :
    (items.map value).eraseDups.Pairwise fun a b => a ≠ b ∧
      ∃ item ∈ items, value item = a ∧ ∀ later ∈ items, value later = b → precedes item later := by
  induction hlength : items.length using Nat.strongRecOn generalizing items with
  | ind length ih =>
    cases items with
    | nil => exact List.Pairwise.nil
    | cons item items =>
      obtain ⟨hfirst, hitems⟩ := List.pairwise_cons.mp h
      have hshorter : (items.filter fun later => !value later == value item).length < length := by
        have hle := List.length_filter_le (fun later => !value later == value item) items
        rw [← hlength, List.length_cons]
        omega
      have hothers := ih _ hshorter (hitems.filter _) rfl
      have hmap : (items.map value).filter (fun b => !b == value item) =
          (items.filter fun later => !value later == value item).map value := by
        rw [List.filter_map]
        rfl
      have hnew : ∀ a ∈ ((items.map value).filter fun b => !b == value item).eraseDups,
          a ≠ value item := by
        intro a ha
        have hkept := (List.mem_filter.mp (List.mem_eraseDups.mp ha)).2
        simpa using hkept
      rw [List.map_cons, List.eraseDups_cons]
      refine List.pairwise_cons.mpr ⟨fun b hb => ?_, ?_⟩
      · refine ⟨(hnew b hb).symm, item, List.mem_cons_self, rfl, fun later hlater hvalue => ?_⟩
        obtain rfl | hlater := List.mem_cons.mp hlater
        · exact absurd hvalue.symm (hnew b hb)
        · exact hfirst later hlater
      · rw [← hmap] at hothers
        refine hothers.imp_of_mem fun {a b} _ hb hpair => ?_
        obtain ⟨hne, earlier, hearlier, hvalue, hall⟩ := hpair
        refine ⟨hne, earlier, .tail _ (List.mem_filter.mp hearlier).1, hvalue, ?_⟩
        intro later hlater hlast
        obtain rfl | hlater := List.mem_cons.mp hlater
        · exact absurd hlast.symm (hnew b hb)
        · refine hall later (List.mem_filter.mpr ⟨hlater, ?_⟩) hlast
          rw [hlast]
          simpa using hnew b hb

/-- The values of a scan, each once, are in the order of their first findings. -/
theorem pairwise_eraseDups_scan [BEq α] [LawfulBEq α] (text : List Char) :
    (reader.scan text).eraseDups.Pairwise fun a b => a ≠ b ∧
      ∃ finding ∈ reader.findings text, finding.value = a ∧
        ∀ later ∈ reader.findings text, later.value = b →
          finding.front.length < later.front.length := by
  rw [scan_eq_map_findings]
  exact pairwise_eraseDups_map ((pairwise_findings text).imp And.left)

theorem nodup_eraseDups_scan [BEq α] [LawfulBEq α] (text : List Char) :
    (reader.scan text).eraseDups.Nodup :=
  (pairwise_eraseDups_scan text).imp And.left

/-- What is covered is passed over. -/
theorem scanFrom_append_length (before : Option Char) (front rest : List Char) :
    reader.scanFrom front.length before (front ++ rest) =
      reader.scanFrom 0 (front.getLast?.or before) rest := by
  induction front generalizing before with
  | nil => rfl
  | cons c front ih =>
    rw [List.cons_append, List.length_cons, scanFrom, ih, List.getLast?_cons]
    cases front.getLast? with
    | none => rfl
    | some d => rfl

end Reader

end SourceMetrics
