import SourceMetrics.Proofs.Walk.Preorder

/-! # The entries that a walk asks about

Which entries of a tree a walk comes to, and what it asks the file system about each of them, told by
the places at which they stand.

* `Stands`: an entry stands at a place below some entries, and the walk comes to it.
* `asked?`: the call that an entry gives rise to.
* `Visits`: the places below some entries at which something is asked, in the order of the tree.
* `mem_visits_iff`: these are the places of the entries that give rise to a call. The induction is on
  the reading; what stands behind an entry is counted on from it.
* `pairwise_visits`: each of them is visited once, and the places grow.
* `exists_visits_of_acc`: there is such a reading wherever no way down is endless. -/

namespace SourceMetrics

set_option autoImplicit false

namespace FileSystem.Call

/-- The item that the answer to a call yields: what is read, or the fault of a list. -/
def item? (files : FileSystem Id) : Call → Option Item
  | .isFile _ => none
  | .list path =>
    match files.list path with
    | .ok _ => none
    | .error fault => some (.error fault)
  | .read path => some (Walk.readFile files path)

/-- The entries that the answer to a call shows. -/
def entries (files : FileSystem Id) : Call → List Entry
  | .isFile _ => []
  | .list path =>
    match files.list path with
    | .ok entries => entries
    | .error _ => []
  | .read _ => []

end FileSystem.Call

namespace Walk

open FileSystem (Call)

/-! ## Places -/

section Places

/-- An entry stands at a place below some entries, and every directory on the way to it is listed and
not passed over. A place gives the number of each of these directories in the list that it stands in,
the outermost one first, and at last that of the entry. -/
inductive Stands (files : FileSystem Id) (prunes : Path → Bool) :
    List Entry → List Nat → Entry → Prop
  | here {entries : List Entry} {number : Nat} {entry : Entry} :
      entries[number]? = some entry → Stands files prunes entries [number] entry
  | inside {entries inner : List Entry} {number : Nat} {directory : Path} {place : List Nat}
      {entry : Entry} : entries[number]? = some ⟨directory, .directory⟩ → prunes directory = false →
      files.list directory = .ok inner → Stands files prunes inner place entry →
      Stands files prunes entries (number :: place) entry

/-- What is asked about an entry: a directory that is not passed over is listed, a wanted file is
read. -/
def asked? (filter : Filter) : Entry → Option Call
  | ⟨path, .directory⟩ => if filter.prunes path then none else some (.list path)
  | ⟨path, .file⟩ => if filter.wants path then some (.read path) else none
  | ⟨_, .other⟩ => none

/-- The places below some entries at which something is asked, with what is asked there. What is below
a directory comes before what is listed behind it. The entries are counted from a number on. -/
inductive Visits (files : FileSystem Id) (filter : Filter) :
    Nat → List Entry → List (List Nat × Call) → Prop
  | nil {number : Nat} : Visits files filter number [] []
  | passed {number : Nat} {entry : Entry} {rest : List Entry} {later : List (List Nat × Call)} :
      asked? filter entry = none → Visits files filter (number + 1) rest later →
      Visits files filter number (entry :: rest) later
  | asked {number : Nat} {entry : Entry} {call : Call} {rest : List Entry}
      {inner later : List (List Nat × Call)} :
      asked? filter entry = some call → Visits files filter 0 (call.entries files) inner →
      Visits files filter (number + 1) rest later →
      Visits files filter number (entry :: rest)
        (([number], call) :: inner.map (Prod.map (number :: ·) id) ++ later)

end Places

section Reading

variable {files : FileSystem Id} {filter : Filter} {prunes : Path → Bool}

theorem Stands.ne_nil {entries : List Entry} {place : List Nat} {entry : Entry}
    (h : Stands files prunes entries place entry) : place ≠ [] := by
  cases h <;> exact List.cons_ne_nil _ _

theorem not_stands_nil {place : List Nat} {entry : Entry} :
    ¬ Stands files prunes [] place entry := by
  intro h
  cases h with
  | here hentry => cases hentry
  | inside hentry _ _ _ => cases hentry

theorem stands_succ_iff {first : Entry} {rest : List Entry} {number : Nat} {place : List Nat}
    {entry : Entry} : Stands files prunes (first :: rest) ((number + 1) :: place) entry ↔
      Stands files prunes rest (number :: place) entry := by
  constructor
  · intro h
    cases h with
    | here hentry => exact .here hentry
    | inside hentry hprunes hlist hinner => exact .inside hentry hprunes hlist hinner
  · intro h
    cases h with
    | here hentry => exact .here hentry
    | inside hentry hprunes hlist hinner => exact .inside hentry hprunes hlist hinner

theorem asked?_directory {path : Path} (h : filter.prunes path = false) :
    asked? filter ⟨path, .directory⟩ = some (.list path) := by
  rw [asked?, h]
  rfl

theorem asked?_file {path : Path} (h : filter.wants path = true) :
    asked? filter ⟨path, .file⟩ = some (.read path) := by
  rw [asked?, h]
  rfl

theorem asked?_eq_some_iff {entry : Entry} {call : Call} : asked? filter entry = some call ↔
    (∃ path, entry = ⟨path, .directory⟩ ∧ filter.prunes path = false ∧ call = .list path) ∨
      ∃ path, entry = ⟨path, .file⟩ ∧ filter.wants path = true ∧ call = .read path := by
  constructor
  · intro h
    obtain ⟨path, kind⟩ := entry
    cases kind with
    | directory =>
      obtain ⟨hprunes, heq⟩ := Option.ite_none_left_eq_some.mp h
      cases heq
      exact .inl ⟨path, rfl, Bool.eq_false_iff.mpr hprunes, rfl⟩
    | file =>
      obtain ⟨hwants, heq⟩ := Option.ite_none_right_eq_some.mp h
      cases heq
      exact .inr ⟨path, rfl, hwants, rfl⟩
    | other => cases h
  · rintro (⟨path, rfl, hprunes, rfl⟩ | ⟨path, rfl, hwants, rfl⟩)
    · exact asked?_directory hprunes
    · exact asked?_file hwants

theorem Call.entries_list {path : Path} {inner : List Entry} (h : files.list path = .ok inner) :
    Call.entries files (.list path) = inner := by
  simp only [Call.entries, h]

theorem Call.entries_unlisted {path : Path} {fault : Fault} (h : files.list path = .error fault) :
    Call.entries files (.list path) = [] := by
  simp only [Call.entries, h]

/-- What stands below an entry stands among the entries that the call about it shows. -/
theorem stands_entries_iff {outer : Entry} {call : Call} (hasked : asked? filter outer = some call)
    {place : List Nat} {entry : Entry} :
    Stands files filter.prunes (call.entries files) place entry ↔
      ∃ directory inner, outer = ⟨directory, .directory⟩ ∧ filter.prunes directory = false ∧
        files.list directory = .ok inner ∧ Stands files filter.prunes inner place entry := by
  constructor
  · intro h
    obtain ⟨path, rfl, hprunes, rfl⟩ | ⟨path, rfl, -, rfl⟩ := asked?_eq_some_iff.mp hasked
    · cases hlist : files.list path with
      | error fault =>
        rw [Call.entries_unlisted hlist] at h
        exact absurd h not_stands_nil
      | ok inner =>
        rw [Call.entries_list hlist] at h
        exact ⟨path, inner, rfl, hprunes, hlist, h⟩
    · exact absurd h not_stands_nil
  · rintro ⟨directory, inner, rfl, hprunes, hlist, h⟩
    obtain ⟨path, heq, -, rfl⟩ | ⟨path, heq, -⟩ := asked?_eq_some_iff.mp hasked
    · cases heq
      rwa [Call.entries_list hlist]
    · cases heq

/-- At the number of the first entry stands this entry, and below it what the call about it shows. -/
theorem stands_zero_iff {first : Entry} {rest : List Entry} {place : List Nat} {entry : Entry}
    {call : Call} (hasked : asked? filter first = some call) :
    Stands files filter.prunes (first :: rest) (0 :: place) entry ↔
      place = [] ∧ entry = first ∨ Stands files filter.prunes (call.entries files) place entry := by
  rw [stands_entries_iff hasked]
  constructor
  · intro h
    cases h with
    | here hentry => exact .inl ⟨rfl, (Option.some.inj hentry).symm⟩
    | inside hentry hprunes hlist hinner =>
      exact .inr ⟨_, _, Option.some.inj hentry, hprunes, hlist, hinner⟩
  · rintro (⟨rfl, rfl⟩ | ⟨directory, inner, rfl, hprunes, hlist, hinner⟩)
    · exact .here rfl
    · exact .inside rfl hprunes hlist hinner

/-- Nothing is asked at the number of an entry that gives rise to no call. -/
theorem asked?_of_stands_zero {first : Entry} {rest : List Entry} {place : List Nat} {entry : Entry}
    (hpassed : asked? filter first = none)
    (h : Stands files filter.prunes (first :: rest) (0 :: place) entry) :
    asked? filter entry = none := by
  cases h with
  | here hentry =>
    cases hentry
    exact hpassed
  | inside hentry hprunes _ _ =>
    cases hentry
    cases hpassed.symm.trans (asked?_directory hprunes)

/-! ## What is visited -/

/-- A call is made at a place below some entries, which are counted from a number on. -/
def AsksAt (files : FileSystem Id) (filter : Filter) (number : Nat) (entries : List Entry)
    (place : List Nat) (call : Call) : Prop :=
  ∃ index inner entry, place = (number + index) :: inner ∧
    Stands files filter.prunes entries (index :: inner) entry ∧ asked? filter entry = some call

theorem asksAt_zero_iff {entries : List Entry} {place : List Nat} {call : Call} :
    AsksAt files filter 0 entries place call ↔
      ∃ entry, Stands files filter.prunes entries place entry ∧ asked? filter entry = some call := by
  constructor
  · rintro ⟨index, inner, entry, rfl, hstands, hasked⟩
    rw [Nat.zero_add]
    exact ⟨entry, hstands, hasked⟩
  · rintro ⟨entry, hstands, hasked⟩
    obtain ⟨index, inner, rfl⟩ := List.exists_cons_of_ne_nil hstands.ne_nil
    exact ⟨index, inner, entry, by rw [Nat.zero_add], hstands, hasked⟩

/-- A call is made at the first entry or below it, or at the entries behind it. -/
theorem asksAt_cons_iff {number : Nat} {first : Entry} {rest : List Entry} {place : List Nat}
    {call : Call} : AsksAt files filter number (first :: rest) place call ↔
      (∃ inner entry, place = number :: inner ∧
        Stands files filter.prunes (first :: rest) (0 :: inner) entry ∧
        asked? filter entry = some call) ∨ AsksAt files filter (number + 1) rest place call := by
  constructor
  · rintro ⟨index, inner, entry, rfl, hstands, hasked⟩
    cases index with
    | zero => exact .inl ⟨inner, entry, rfl, hstands, hasked⟩
    | succ index =>
      rw [stands_succ_iff] at hstands
      exact .inr ⟨index, inner, entry, by rw [Nat.add_right_comm, Nat.add_assoc], hstands, hasked⟩
  · rintro (⟨inner, entry, rfl, hstands, hasked⟩ | ⟨index, inner, entry, rfl, hstands, hasked⟩)
    · exact ⟨0, inner, entry, rfl, hstands, hasked⟩
    · rw [← stands_succ_iff] at hstands
      exact ⟨index + 1, inner, entry, by rw [Nat.add_right_comm, Nat.add_assoc], hstands, hasked⟩

theorem mem_visits_iff {number : Nat} {entries : List Entry} {visits : List (List Nat × Call)}
    (h : Visits files filter number entries visits) {place : List Nat} {call : Call} :
    (place, call) ∈ visits ↔ AsksAt files filter number entries place call := by
  induction h generalizing place call with
  | nil =>
    refine ⟨fun hmem => absurd hmem List.not_mem_nil, ?_⟩
    rintro ⟨_, _, _, _, hstands, _⟩
    exact absurd hstands not_stands_nil
  | passed hpassed _ ih =>
    rw [ih, asksAt_cons_iff]
    refine ⟨.inr, fun h => h.resolve_left ?_⟩
    rintro ⟨_, _, _, hstands, hasked⟩
    cases hasked.symm.trans (asked?_of_stands_zero hpassed hstands)
  | @asked number first made rest inner later hfirst _ _ ihInner ih =>
    rw [List.cons_append, List.mem_cons, List.mem_append, ih, asksAt_cons_iff, ← or_assoc]
    refine or_congr_left ⟨?_, ?_⟩
    · rintro (heq | hmem)
      · cases heq
        exact ⟨[], first, rfl, .here rfl, hfirst⟩
      · obtain ⟨⟨place, call⟩, hvisit, heq⟩ := List.mem_map.mp hmem
        cases heq
        obtain ⟨entry, hstands, hasked⟩ := asksAt_zero_iff.mp (ihInner.mp hvisit)
        exact ⟨place, entry, rfl, (stands_zero_iff hfirst).mpr (.inr hstands), hasked⟩
    · rintro ⟨place, entry, rfl, hstands, hasked⟩
      obtain ⟨rfl, rfl⟩ | hinner := (stands_zero_iff hfirst).mp hstands
      · cases hfirst.symm.trans hasked
        exact .inl rfl
      · have hvisit := ihInner.mpr (asksAt_zero_iff.mpr ⟨entry, hinner, hasked⟩)
        exact .inr (List.mem_map_of_mem (f := Prod.map (number :: ·) id) hvisit)

/-- The places are visited in their lexicographic order, so each of them once. -/
theorem pairwise_visits {number : Nat} {entries : List Entry} {visits : List (List Nat × Call)}
    (h : Visits files filter number entries visits) :
    visits.Pairwise fun earlier later => earlier.1 < later.1 := by
  induction h with
  | nil => exact .nil
  | passed _ _ ih => exact ih
  | @asked number first made rest inner later _ hinner hlater ihInner ih =>
    have hbehind : ∀ visit ∈ later, ∃ index below, visit.1 = (number + 1 + index) :: below := by
      rintro ⟨place, call⟩ hvisit
      obtain ⟨index, below, _, rfl, -⟩ := (mem_visits_iff hlater).mp hvisit
      exact ⟨index, below, rfl⟩
    rw [List.cons_append, List.pairwise_cons, List.pairwise_append, List.pairwise_map]
    refine ⟨fun visit hvisit => ?_, ihInner.imp ?_, ih, ?_⟩
    · obtain hmem | hmem := List.mem_append.mp hvisit
      · obtain ⟨⟨place, call⟩, hbelow, rfl⟩ := List.mem_map.mp hmem
        obtain ⟨index, below, _, rfl, -⟩ := (mem_visits_iff hinner).mp hbelow
        exact List.cons_lt_cons_iff.mpr (.inr ⟨rfl, List.nil_lt_cons _ _⟩)
      · obtain ⟨index, below, hplace⟩ := hbehind visit hmem
        rw [hplace]
        exact List.cons_lt_cons_iff.mpr (.inl (by omega))
    · exact fun hless => List.cons_lt_cons_iff.mpr (.inr ⟨rfl, hless⟩)
    · intro visit hvisit behind hmem
      obtain ⟨⟨place, call⟩, -, rfl⟩ := List.mem_map.mp hvisit
      obtain ⟨index, below, hplace⟩ := hbehind behind hmem
      rw [hplace]
      exact List.cons_lt_cons_iff.mpr (.inl (by omega))

/-! ## There is a reading -/

theorem exists_visits (entries : List Entry)
    (inside : ∀ entry ∈ entries, ∀ call, asked? filter entry = some call →
      ∃ visits, Visits files filter 0 (call.entries files) visits) (number : Nat) :
    ∃ visits, Visits files filter number entries visits := by
  induction entries generalizing number with
  | nil => exact ⟨[], .nil⟩
  | cons entry rest ih =>
    obtain ⟨later, hlater⟩ := ih (fun other hother => inside other (.tail entry hother)) (number + 1)
    cases hasked : asked? filter entry with
    | none => exact ⟨later, .passed hasked hlater⟩
    | some call =>
      obtain ⟨inner, hinner⟩ := inside entry List.mem_cons_self call hasked
      exact ⟨_, .asked hasked hinner hlater⟩

/-- What a directory lists has a reading if there is no endless way down from it. -/
theorem exists_visits_of_acc {directory : Path}
    (finite : Acc (Descends files filter.prunes) directory) :
    ∃ visits, Visits files filter 0 (Call.entries files (.list directory)) visits := by
  induction finite with
  | intro directory _ ih =>
    refine exists_visits _ (fun entry hentry call hasked => ?_) 0
    obtain ⟨path, rfl, hprunes, rfl⟩ | ⟨path, rfl, -, rfl⟩ := asked?_eq_some_iff.mp hasked
    · cases hlist : files.list directory with
      | error fault =>
        rw [Call.entries_unlisted hlist] at hentry
        exact absurd hentry List.not_mem_nil
      | ok entries =>
        rw [Call.entries_list hlist] at hentry
        exact ih path ⟨entries, hlist, hentry, hprunes⟩
    · exact ⟨[], .nil⟩

end Reading

end Walk

end SourceMetrics
