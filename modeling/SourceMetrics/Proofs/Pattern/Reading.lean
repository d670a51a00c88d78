import Mathlib.Data.List.Forall2
import SourceMetrics.Pattern.List

/-! # Reading patterns

When a pattern is read and accepted, and what comes of it where it is not.

* `mapM_eq_ok`, `mapM_eq_error`: reading a list comes to reading each of its items, up to the first
  one that cannot be read.
* `Pattern.read_eq_ok`: a pattern is read if each of its widened texts spells a glob.
* `ofNesting_eq_ok`: globs are passed one by one.
* `Pattern.compile_eq_ok`: a pattern is accepted if it is read and its globs are passed. -/

namespace SourceMetrics

set_option autoImplicit false

/-! ## Results and faults -/

theorem bind_eq_ok {α β ε : Type} {found : Except ε α} {f : α → Except ε β} {result : β} :
    found >>= f = .ok result ↔ ∃ value, found = .ok value ∧ f value = .ok result := by
  cases found with
  | error fault => simp [bind, Except.bind]
  | ok value => simp [bind, Except.bind]

theorem pure_eq_ok {α ε : Type} {value result : α} :
    (pure value : Except ε α) = .ok result ↔ value = result :=
  ⟨Except.ok.inj, congrArg Except.ok⟩

theorem bind_eq_error {α β ε : Type} {found : Except ε α} {f : α → Except ε β} {fault : ε} :
    found >>= f = .error fault ↔
      found = .error fault ∨ ∃ value, found = .ok value ∧ f value = .error fault := by
  cases found with
  | error other => simp [bind, Except.bind]
  | ok value => simp [bind, Except.bind]

theorem mapM_eq_ok {α β ε : Type} {f : α → Except ε β} {items : List α} {results : List β} :
    items.mapM f = .ok results ↔
      List.Forall₂ (fun item result => f item = .ok result) items results := by
  induction items generalizing results with
  | nil =>
    rw [List.mapM_nil, List.forall₂_nil_left_iff]
    exact ⟨fun h => (Except.ok.inj h).symm, fun h => congrArg Except.ok h.symm⟩
  | cons item items ih =>
    rw [List.mapM_cons, List.forall₂_cons_left_iff]
    simp only [bind_eq_ok, ih, pure_eq_ok]
    constructor
    · rintro ⟨result, hitem, rest, hrest, rfl⟩
      exact ⟨result, rest, hitem, hrest, rfl⟩
    · rintro ⟨result, rest, hitem, hrest, rfl⟩
      exact ⟨result, hitem, rest, hrest, rfl⟩

/-- The fault of a list is that of the first item that has one. -/
theorem mapM_eq_error {α β ε : Type} {f : α → Except ε β} {items : List α} {fault : ε} :
    items.mapM f = .error fault ↔
      ∃ front item rest, items = front ++ item :: rest ∧
        (∀ other ∈ front, ∃ result, f other = .ok result) ∧ f item = .error fault := by
  induction items with
  | nil =>
    rw [List.mapM_nil]
    constructor
    · intro h
      cases h
    · rintro ⟨front, item, rest, hsplit, -, -⟩
      simp at hsplit
  | cons first items ih =>
    rw [List.mapM_cons, bind_eq_error]
    constructor
    · rintro (hfirst | ⟨result, hfirst, hrest⟩)
      · exact ⟨[], first, items, rfl, by simp, hfirst⟩
      · obtain hrest | ⟨_, _, hpure⟩ := bind_eq_error.mp hrest
        · obtain ⟨front, item, rest, rfl, hfront, hitem⟩ := ih.mp hrest
          exact ⟨first :: front, item, rest, rfl,
            List.forall_mem_cons.mpr ⟨⟨result, hfirst⟩, hfront⟩, hitem⟩
        · cases hpure
    · rintro ⟨front, item, rest, hsplit, hfront, hitem⟩
      cases front with
      | nil =>
        obtain ⟨rfl, rfl⟩ := List.cons.inj hsplit
        exact .inl hitem
      | cons other front =>
        obtain ⟨rfl, rfl⟩ := List.cons.inj hsplit
        obtain ⟨⟨result, hresult⟩, hfront⟩ := List.forall_mem_cons.mp hfront
        refine .inr ⟨result, hresult, bind_eq_error.mpr (.inl ?_)⟩
        exact ih.mpr ⟨front, item, rest, rfl, hfront, hitem⟩

theorem exists_results {α β ε : Type} {f : α → Except ε β} {items : List α} :
    (∃ results, List.Forall₂ (fun item result => f item = .ok result) items results) ↔
      ∀ item ∈ items, ∃ result, f item = .ok result := by
  induction items with
  | nil => exact ⟨fun _ _ h => absurd h List.not_mem_nil, fun _ => ⟨[], .nil⟩⟩
  | cons item items ih =>
    rw [List.forall_mem_cons, ← ih]
    constructor
    · rintro ⟨_, h⟩
      obtain ⟨result, results, hitem, hrest, rfl⟩ := List.forall₂_cons_left_iff.mp h
      exact ⟨⟨result, hitem⟩, results, hrest⟩
    · rintro ⟨⟨result, hitem⟩, results, hrest⟩
      exact ⟨result :: results, .cons hitem hrest⟩

/-- What is true of some result is true of the result of some item. -/
theorem exists_mem_results {α β ε : Type} {f : α → Except ε β} {items : List α} {results : List β}
    (h : List.Forall₂ (fun item result => f item = .ok result) items results)
    (property : β → Prop) :
    (∃ result ∈ results, property result) ↔
      ∃ item ∈ items, ∃ result, f item = .ok result ∧ property result := by
  induction h with
  | nil => simp
  | cons hitem _ ih =>
    rw [List.exists_mem_cons_iff, List.exists_mem_cons_iff, ih, hitem]
    simp

theorem mapError_eq_ok {α δ ε : Type} {f : δ → ε} {result : Except δ α} {value : α} :
    result.mapError f = .ok value ↔ result = .ok value := by
  cases result with
  | error fault => simp [Except.mapError]
  | ok found => simp [Except.mapError]

theorem mapError_eq_error {α δ ε : Type} {f : δ → ε} {result : Except δ α} {fault : ε} :
    result.mapError f = .error fault ↔ ∃ reason, result = .error reason ∧ f reason = fault := by
  cases result with
  | error reason => simp [Except.mapError]
  | ok found => simp [Except.mapError]

namespace Pattern

/-- Each of the texts spells the glob in its place. -/
def Spell (texts : List (List Char)) (globs : List Glob) : Prop :=
  List.Forall₂ (fun text glob => Glob.parse? text = .ok glob) texts globs

theorem Spell.unique {texts : List (List Char)} {globs others : List Glob}
    (h : Spell texts globs) (h' : Spell texts others) : others = globs :=
  List.right_unique_forall₂' (fun _ _ _ hother hglob => Except.ok.inj (hother.symm.trans hglob))
    h' h

theorem read_eq_ok {source : String} {pattern : Pattern} :
    read source = .ok pattern ↔
      ∃ globs, pattern = ⟨source, globs⟩ ∧ Spell (widen source.toList) globs := by
  simp only [read, bind_eq_ok, mapM_eq_ok, mapError_eq_ok, pure_eq_ok]
  constructor
  · rintro ⟨globs, hspell, rfl⟩
    exact ⟨globs, rfl, hspell⟩
  · rintro ⟨globs, rfl, hspell⟩
    exact ⟨globs, hspell, rfl⟩

/-- Globs are passed if none of them is nested too deep, those apart that are told by a part of the
path and not looked at. -/
theorem ofNesting_eq_ok {sources : List String} {globs : List Glob} :
    PatternFault.ofNesting sources globs = .ok () ↔
      ∀ glob ∈ globs, glob.search = .extension ∨ glob.search = .whole → glob.isTooDeep = false := by
  have halone : (globs.find? fun glob => glob.search = .extension ∧ glob.isTooDeep) = none ↔
      ∀ glob ∈ globs, glob.search = .extension → glob.isTooDeep = false := by
    simp [List.find?_eq_none]
  have htogether : (globs.filter (·.search = .whole)).findIdx? Glob.isTooDeep = none ↔
      ∀ glob ∈ globs, glob.search = .whole → glob.isTooDeep = false := by
    simp [List.findIdx?_eq_none_iff]
  simp only [or_imp, forall_and]
  rw [← halone, ← htogether, PatternFault.ofNesting]
  cases globs.find? fun glob => glob.search = .extension ∧ glob.isTooDeep with
  | some glob => simp
  | none =>
    cases (globs.filter (·.search = .whole)).findIdx? Glob.isTooDeep with
    | some place => simp
    | none => simp

theorem compile_eq_ok {source : String} {pattern : Pattern} :
    compile source = .ok pattern ↔
      read source = .ok pattern ∧ PatternFault.ofNesting [source] pattern.globs = .ok () := by
  simp only [compile, bind_eq_ok, pure_eq_ok]
  constructor
  · rintro ⟨_, hread, _, hnesting, rfl⟩
    exact ⟨hread, hnesting⟩
  · rintro ⟨hread, hnesting⟩
    exact ⟨pattern, hread, (), hnesting, rfl⟩

theorem read_of_compile {source : String} {pattern : Pattern} (h : compile source = .ok pattern) :
    read source = .ok pattern :=
  (compile_eq_ok.mp h).1

end Pattern

end SourceMetrics
