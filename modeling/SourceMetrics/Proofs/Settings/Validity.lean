import SourceMetrics.Proofs.Pattern.Validity
import SourceMetrics.Proofs.Settings.Standard

/-! # Settings from given patterns

Settings are refused if some given pattern is no glob by itself, and for no other reason, as far as
the patterns do not end in a backslash and are not nested too deep.

* `exists_compile_getD_iff`: the standard patterns are always accepted.
* `ofPatterns_eq_error`: the fault is that of the first malformed pattern, the included ones before
  the excluded ones.
* `ofPatterns_error_iff`: when there is a fault, what it says, and what the settings hold if there is
  none. -/

namespace SourceMetrics.Settings

set_option autoImplicit false

open Glob Pattern

/-- The patterns that are given, the included ones first. -/
def given (included excluded : Option (List String)) : List String :=
  included.getD [] ++ excluded.getD []

/-! ## Lists that may be missing -/

section Missing

variable {standard : List String} {list : PatternList}
  (hstandard : PatternList.compile standard = .ok list)

include hstandard

/-- The standard patterns are accepted where no others are given. -/
theorem exists_compile_getD_iff (sources : Option (List String)) :
    (∃ found, PatternList.compile (sources.getD standard) = .ok found) ↔
      ∃ found, PatternList.compile (sources.getD []) = .ok found := by
  cases sources with
  | none => exact ⟨fun _ => ⟨_, rfl⟩, fun _ => ⟨list, hstandard⟩⟩
  | some sources => rfl

theorem compile_getD_eq_error {sources : Option (List String)} {fault : PatternFault}
    (h : PatternList.compile (sources.getD standard) = .error fault) :
    PatternList.compile (sources.getD []) = .error fault := by
  cases sources with
  | none => cases h.symm.trans hstandard
  | some sources => exact h

end Missing

/-! ## Given patterns -/

section Given

variable {included excluded : Option (List String)} {limit : Option Nat}

theorem ofPatterns_eq_ok {settings : Settings} :
    ofPatterns included excluded limit = .ok settings ↔
      ∃ wanted passed, PatternList.compile (included.getD standardIncluded) = .ok wanted ∧
        PatternList.compile (excluded.getD standardExcluded) = .ok passed ∧
        settings = ⟨⟨wanted, passed⟩, limit⟩ := by
  simp only [ofPatterns, bind_eq_ok, pure_eq_ok]
  constructor
  · rintro ⟨wanted, hwanted, passed, hpassed, rfl⟩
    exact ⟨wanted, passed, hwanted, hpassed, rfl⟩
  · rintro ⟨wanted, passed, hwanted, hpassed, rfl⟩
    exact ⟨wanted, hwanted, passed, hpassed, rfl⟩

variable (hend : ∀ source ∈ given included excluded, source.toList.getLast? ≠ some '\\')
  (hlimit : ∀ source ∈ given included excluded, KeepsLimit source)

include hend hlimit

theorem exists_ofPatterns_iff :
    (∃ settings, ofPatterns included excluded limit = .ok settings) ↔
      ∀ source ∈ given included excluded, IsWellFormed source.toList := by
  have hends := List.forall_mem_append.mp hend
  have hlimits := List.forall_mem_append.mp hlimit
  obtain ⟨_, hincluded, -⟩ := exists_standardIncluded
  obtain ⟨_, hexcluded, -⟩ := exists_standardExcluded
  rw [given, List.forall_mem_append, ← PatternList.exists_compile_iff hends.1 hlimits.1,
    ← PatternList.exists_compile_iff hends.2 hlimits.2,
    ← exists_compile_getD_iff hincluded,
    ← exists_compile_getD_iff hexcluded]
  simp only [ofPatterns_eq_ok]
  constructor
  · rintro ⟨_, wanted, passed, hwanted, hpassed, rfl⟩
    exact ⟨⟨wanted, hwanted⟩, passed, hpassed⟩
  · rintro ⟨⟨wanted, hwanted⟩, passed, hpassed⟩
    exact ⟨_, wanted, passed, hwanted, hpassed, rfl⟩

/-- The fault is that of the first malformed pattern. -/
theorem ofPatterns_eq_error {fault : PatternFault}
    (h : ofPatterns included excluded limit = .error fault) :
    ∃ front source rest, given included excluded = front ++ source :: rest ∧
      (∀ other ∈ front, IsWellFormed other.toList) ∧ ¬ IsWellFormed source.toList ∧
        Blames fault source := by
  have hends := List.forall_mem_append.mp hend
  have hlimits := List.forall_mem_append.mp hlimit
  obtain ⟨_, hincluded, -⟩ := exists_standardIncluded
  obtain ⟨_, hexcluded, -⟩ := exists_standardExcluded
  obtain hwanted | ⟨wanted, hwanted, h⟩ := bind_eq_error.mp h
  · obtain ⟨front, source, rest, hsplit, hfault⟩ := PatternList.compile_eq_error hends.1 hlimits.1
      (compile_getD_eq_error hincluded hwanted)
    exact ⟨front, source, rest ++ excluded.getD [], by simp [given, hsplit], hfault⟩
  · obtain hpassed | ⟨_, _, hpure⟩ := bind_eq_error.mp h
    · -- the included patterns have all been accepted
      have hformed := (PatternList.exists_compile_iff hends.1 hlimits.1).mp
        ((exists_compile_getD_iff hincluded included).mp ⟨wanted, hwanted⟩)
      obtain ⟨front, source, rest, hsplit, hfront, hfault⟩ := PatternList.compile_eq_error hends.2
        hlimits.2 (compile_getD_eq_error hexcluded hpassed)
      exact ⟨included.getD [] ++ front, source, rest, by simp [given, hsplit],
        List.forall_mem_append.mpr ⟨hformed, hfront⟩, hfault⟩
    · cases hpure

end Given

/-- **A pattern is valid if it is a glob by itself.** Settings are refused if some given pattern is
no glob, and what the patterns are widened to makes no difference. The fault then starts with the
text of the first such pattern and quotes the first of its widened texts. -/
theorem ofPatterns_error_iff (included excluded : Option (List String)) (limit : Option Nat)
    (hend : ∀ source ∈ given included excluded, source.toList.getLast? ≠ some '\\')
    (hlimit : ∀ source ∈ given included excluded, KeepsLimit source) :
    ((∃ fault, ofPatterns included excluded limit = .error fault) ↔
        ∃ source ∈ given included excluded, ¬ IsWellFormed source.toList) ∧
      (∀ source ∈ given included excluded, IsWellFormed source.toList ↔
        ∀ widened ∈ widen source.toList, IsWellFormed widened) ∧
      (∀ fault, ofPatterns included excluded limit = .error fault →
        ∃ front source rest first others own reason,
          given included excluded = front ++ source :: rest ∧
          (∀ other ∈ front, IsWellFormed other.toList) ∧
          parse? source.toList = .error own ∧ own ≠ .danglingEscape ∧
          widen source.toList = first :: others ∧ parse? first = .error reason ∧
          fault = .malformed source (String.ofList first) reason ∧
          fault.message =
            source ++ ": error parsing glob '" ++ String.ofList first ++ "': " ++ reason.message) ∧
      ∀ settings, ofPatterns included excluded limit = .ok settings →
        settings.filter.included.sources = included.getD standardIncluded ∧
          settings.filter.excluded.sources = excluded.getD standardExcluded := by
  refine ⟨?_, fun source hsource => isWellFormed_iff_widened (hend source hsource), ?_, ?_⟩
  · constructor
    · rintro ⟨fault, h⟩
      obtain ⟨front, source, rest, hsplit, -, hsource, -⟩ := ofPatterns_eq_error hend hlimit h
      exact ⟨source, by simp [hsplit], hsource⟩
    · rintro ⟨source, hsource, hnot⟩
      cases hsettings : ofPatterns included excluded limit with
      | error fault => exact ⟨fault, rfl⟩
      | ok settings =>
        exact absurd ((exists_ofPatterns_iff hend hlimit).mp ⟨settings, hsettings⟩ source hsource) hnot
  · intro fault h
    obtain ⟨front, source, rest, hsplit, hfront, hnot, first, others, reason, hwiden, hreason, rfl⟩ :=
      ofPatterns_eq_error hend hlimit h
    obtain ⟨own, hown⟩ := not_isWellFormed.mp hnot
    have hsource : source ∈ given included excluded := by simp [hsplit]
    exact ⟨front, source, rest, first, others, own, reason, hsplit, hfront, hown,
      ne_danglingEscape (hend source hsource) hown, hwiden, hreason, rfl, rfl⟩
  · intro settings h
    obtain ⟨wanted, passed, hwanted, hpassed, rfl⟩ := ofPatterns_eq_ok.mp h
    exact ⟨PatternList.sources_of_compile hwanted, PatternList.sources_of_compile hpassed⟩

/-- The second pattern of the first list is no glob, and neither is the only one of the second list. -/
theorem ofPatterns_error_iff_secondPattern :
    (∀ source ∈ given (some ["a*", "[b"]) (some ["\x7bc"]), source.toList.getLast? ≠ some '\\') ∧
    (∀ source ∈ given (some ["a*", "[b"]) (some ["\x7bc"]), KeepsLimit source) ∧
    ∃ fault, ofPatterns (some ["a*", "[b"]) (some ["\x7bc"]) none = .error fault ∧
      fault.message = "[b: error parsing glob '**/*[b*': unclosed character class; missing ']'" := by
  have hend : ∀ source ∈ given (some ["a*", "[b"]) (some ["\x7bc"]),
      source.toList.getLast? ≠ some '\\' := by decide
  have hlimit : ∀ source ∈ given (some ["a*", "[b"]) (some ["\x7bc"]), KeepsLimit source := by
    simp only [given, Option.getD_some, List.cons_append, List.nil_append, List.forall_mem_cons]
    refine ⟨?_, ?_, ?_, by simp⟩
    · rintro pattern hread
      cases hread
      rfl
    · rintro pattern hread
      cases hread
    · rintro pattern hread
      cases hread
  obtain ⟨hrefused, -, hfault, -⟩ := ofPatterns_error_iff _ _ none hend hlimit
  obtain ⟨fault, h⟩ := hrefused.mpr ⟨"[b", by decide, not_isWellFormed.mpr ⟨.unclosedClass, rfl⟩⟩
  obtain ⟨front, source, rest, first, others, _, reason, hsplit, hfront, hown, -, hwiden, hreason,
    -, hmessage⟩ := hfault fault h
  refine ⟨hend, hlimit, fault, h, hmessage.trans ?_⟩
  obtain _ | ⟨other, _ | ⟨later, front⟩⟩ := front
  · obtain ⟨rfl, -⟩ := List.cons.inj hsplit
    cases hown
  · obtain ⟨rfl, hrest⟩ := List.cons.inj hsplit
    obtain ⟨rfl, -⟩ := List.cons.inj hrest
    obtain ⟨rfl, -⟩ := List.cons.inj hwiden
    cases hreason
    decide
  · -- the fault is not about a pattern behind the second one, which is no glob itself
    obtain ⟨-, hrest⟩ := List.cons.inj hsplit
    obtain ⟨rfl, -⟩ := List.cons.inj hrest
    exact absurd (hfront "[b" (by simp)) (not_isWellFormed.mpr ⟨.unclosedClass, rfl⟩)

end SourceMetrics.Settings
