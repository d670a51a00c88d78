import SourceMetrics.Summary

/-! # The most complex file and the files above the limit

The hotspot of a scan is kept while the records go by: each record is put against the best one so far.
What is kept is the better one of two, where the first one wins if they are equally complex, and this
choice does not depend on how the records are taken together. So after any run of records the hotspot
is that of the whole list.

* `foldl_moreComplex`: a run of records put against what was best before.
* `greatest_eq_some_iff`: the hotspot is the first of the most complex records.
* `exists_places`: the places of the records above the limit.
* `hotspot_overLimit`: the hotspot, the files above the limit, and what they say of each other. -/

namespace SourceMetrics

set_option autoImplicit false

namespace Hotspot

def ofRecord (record : Record) : Hotspot :=
  ⟨record.path, record.complexity⟩

/-- The more complex one of two hotspots, if there are two, and the first one if they are equally
complex. -/
def better : Option Hotspot → Option Hotspot → Option Hotspot
  | none, second => second
  | some first, none => some first
  | some first, some second =>
    if first.complexity < second.complexity then some second else some first

theorem better_none (best : Option Hotspot) : better best none = best := by
  cases best with
  | none => rfl
  | some best => rfl

theorem better_assoc (first second third : Option Hotspot) :
    better (better first second) third = better first (better second third) := by
  obtain _ | first := first
  · rfl
  obtain _ | second := second
  · rfl
  obtain _ | third := third
  · rw [better_none, better_none]
  by_cases hfirst : first.complexity < second.complexity
  · by_cases hsecond : second.complexity < third.complexity
    · simp only [better, if_pos hfirst, if_pos hsecond, if_pos (Nat.lt_trans hfirst hsecond)]
    · simp only [better, if_pos hfirst, if_neg hsecond]
  · by_cases hsecond : second.complexity < third.complexity
    · simp only [better, if_neg hfirst, if_pos hsecond]
    · have hthird : ¬ first.complexity < third.complexity := by omega
      simp only [better, if_neg hfirst, if_neg hsecond, if_neg hthird]

end Hotspot

namespace Summary

open Hotspot (better)

variable {records : List Record} {record other : Record} {found : Hotspot} {limit : Option Nat}
  {place otherPlace : Nat}

/-! ## The hotspot -/

/-- The hotspot of a list of records. -/
def greatest (records : List Record) : Option Hotspot :=
  records.foldl moreComplex none

theorem moreComplex_eq (best : Option Hotspot) (record : Record) :
    moreComplex best record = better best (some (.ofRecord record)) := by
  cases best with
  | none => rfl
  | some best => rfl

theorem foldl_moreComplex (best : Option Hotspot) (records : List Record) :
    records.foldl moreComplex best = better best (greatest records) := by
  induction records generalizing best with
  | nil => exact (Hotspot.better_none best).symm
  | cons record records ih =>
    rw [greatest, List.foldl_cons, List.foldl_cons, ih, ih (moreComplex none record), moreComplex_eq,
      Hotspot.better_assoc]
    rfl

theorem greatest_cons (record : Record) (records : List Record) :
    greatest (record :: records) = better (some (.ofRecord record)) (greatest records) :=
  foldl_moreComplex _ records

theorem greatest_append (front rest : List Record) :
    greatest (front ++ rest) = better (greatest front) (greatest rest) := by
  rw [greatest, List.foldl_append, foldl_moreComplex]
  rfl

theorem greatest_eq_none_iff : greatest records = none ↔ records = [] := by
  cases records with
  | nil => exact ⟨fun _ => rfl, fun _ => rfl⟩
  | cons record records =>
    rw [greatest_cons]
    cases greatest records with
    | none => simp [better]
    | some found =>
      simp only [better]
      split <;> simp

/-- No record of the list is more complex, and each one in front of its place is less complex. -/
structure IsFirstGreatest (records : List Record) (place : Nat) (record : Record) : Prop where
  stands : records[place]? = some record
  greatest : ∀ other ∈ records, other.complexity ≤ record.complexity
  first : ∀ earlier ∈ records.take place, earlier.complexity < record.complexity

theorem IsFirstGreatest.not_lt (h : IsFirstGreatest records place record)
    (h' : IsFirstGreatest records otherPlace other) : ¬ place < otherPlace := by
  intro hlt
  have hearlier : record ∈ records.take otherPlace :=
    List.mem_of_getElem? ((List.getElem?_take_of_lt hlt).trans h.stands)
  have hless := h'.first record hearlier
  have hle := h.greatest other (List.mem_of_getElem? h'.stands)
  omega

theorem IsFirstGreatest.unique (h : IsFirstGreatest records place record)
    (h' : IsFirstGreatest records otherPlace other) : record = other := by
  obtain rfl : place = otherPlace := Nat.le_antisymm (Nat.le_of_not_lt (h'.not_lt h))
    (Nat.le_of_not_lt (h.not_lt h'))
  exact Option.some.inj (h.stands.symm.trans h'.stands)

theorem isFirstGreatest_here (h : ∀ other ∈ records, other.complexity ≤ record.complexity) :
    IsFirstGreatest (record :: records) 0 record :=
  ⟨rfl, List.forall_mem_cons.mpr ⟨Nat.le_refl _, h⟩, fun _ hmem => absurd hmem List.not_mem_nil⟩

theorem IsFirstGreatest.behind (h : IsFirstGreatest records place record)
    (hless : other.complexity < record.complexity) :
    IsFirstGreatest (other :: records) (place + 1) record :=
  ⟨h.stands, List.forall_mem_cons.mpr ⟨Nat.le_of_lt hless, h.greatest⟩,
    List.forall_mem_cons.mpr ⟨hless, h.first⟩⟩

theorem exists_of_greatest (h : greatest records = some found) :
    ∃ place record, IsFirstGreatest records place record ∧ found = .ofRecord record := by
  induction records generalizing found with
  | nil => cases h
  | cons record records ih =>
    rw [greatest_cons] at h
    cases hrest : greatest records with
    | none =>
      obtain rfl := greatest_eq_none_iff.mp hrest
      exact ⟨0, record, isFirstGreatest_here nofun, (Option.some.inj h).symm⟩
    | some best =>
      obtain ⟨place, later, hlater, rfl⟩ := ih hrest
      rw [hrest] at h
      simp only [better] at h
      split at h
      next hless => exact ⟨place + 1, later, hlater.behind hless, (Option.some.inj h).symm⟩
      next hless =>
        refine ⟨0, record, isFirstGreatest_here fun other hother => ?_, (Option.some.inj h).symm⟩
        exact Nat.le_trans (hlater.greatest other hother) (Nat.le_of_not_lt hless)

theorem greatest_eq_some_iff : greatest records = some found ↔
    ∃ place record, IsFirstGreatest records place record ∧ found = .ofRecord record := by
  refine ⟨exists_of_greatest, ?_⟩
  rintro ⟨place, record, hrecord, rfl⟩
  have hne : greatest records ≠ none := by
    rw [ne_eq, greatest_eq_none_iff]
    rintro rfl
    cases hrecord.stands
  obtain ⟨best, hbest⟩ := Option.ne_none_iff_exists'.mp hne
  obtain ⟨_, other, hother, rfl⟩ := exists_of_greatest hbest
  rw [hbest, hother.unique hrecord]

/-- Whatever file is the hotspot, its complexity is the maximum. -/
theorem complexity_greatest (records : List Record) :
    (greatest records).map (·.complexity) = (records.map (·.complexity)).max? := by
  cases hgreatest : greatest records with
  | none =>
    rw [greatest_eq_none_iff.mp hgreatest]
    rfl
  | some found =>
    obtain ⟨place, record, hrecord, rfl⟩ := exists_of_greatest hgreatest
    refine (List.max?_eq_some_iff.mpr ⟨?_, ?_⟩).symm
    · exact List.mem_map_of_mem (List.mem_of_getElem? hrecord.stands)
    · exact List.forall_mem_map.mpr hrecord.greatest

/-! ## The files above the limit -/

theorem any_exceeds_iff :
    limit.any record.exceeds = true ↔ ∃ bound ∈ limit, bound < record.complexity := by
  rw [Option.any_eq_true]
  simp only [Record.exceeds, decide_eq_true_eq]
  rfl

/-- The files above the limit are those at some places, from left to right, and these are all the places
of a record above it. -/
theorem exists_places (records : List Record) (limit : Option Nat) :
    ∃ places : List Nat, places.Pairwise (· < ·) ∧
      (∀ place, place ∈ places ↔ ∃ bound ∈ limit, ∃ record,
        records[place]? = some record ∧ bound < record.complexity) ∧
      (ofRecords records limit).overLimit.map some =
        places.map fun place => records[place]?.map (·.path) := by
  let above : Record × Nat → Bool := fun entry => limit.any entry.1.exceeds
  refine ⟨(records.zipIdx.filter above).map Prod.snd, ?_, fun place => ?_, ?_⟩
  · have hall : (records.zipIdx.map Prod.snd).Pairwise (· < ·) := by
      rw [List.zipIdx_map_snd]
      exact List.pairwise_lt_range'
    exact hall.sublist (List.filter_sublist.map Prod.snd)
  · constructor
    · intro hplace
      obtain ⟨⟨record, _⟩, hentry, rfl⟩ := List.mem_map.mp hplace
      obtain ⟨hstands, habove⟩ := List.mem_filter.mp hentry
      obtain ⟨bound, hbound, hless⟩ := any_exceeds_iff.mp habove
      exact ⟨bound, hbound, record, List.mem_zipIdx_iff_getElem?.mp hstands, hless⟩
    · rintro ⟨bound, hbound, record, hstands, hless⟩
      have hentry : (record, place) ∈ records.zipIdx := List.mem_zipIdx_iff_getElem?.mpr hstands
      exact List.mem_map.mpr ⟨(record, place),
        List.mem_filter.mpr ⟨hentry, any_exceeds_iff.mpr ⟨bound, hbound, hless⟩⟩, rfl⟩
  · have hrecords := List.filter_map (f := Prod.fst) (p := fun record : Record => limit.any record.exceeds)
      (l := records.zipIdx)
    rw [List.zipIdx_map_fst] at hrecords
    rw [ofRecords, hrecords, List.map_map, List.map_map, List.map_map]
    refine List.map_congr_left fun entry hentry => ?_
    have hstands := List.mem_zipIdx_iff_getElem?.mp (List.mem_filter.mp hentry).1
    simp only [Function.comp_apply, hstands, Option.map_some]

theorem mem_overLimit {bound : Nat} (hrecord : record ∈ records) (hbound : bound ∈ limit)
    (hless : bound < record.complexity) : record.path ∈ (ofRecords records limit).overLimit :=
  List.mem_map_of_mem (List.mem_filter.mpr ⟨hrecord, any_exceeds_iff.mpr ⟨bound, hbound, hless⟩⟩)

theorem overLimit_ne_nil_iff : (ofRecords records limit).overLimit ≠ [] ↔
    ∃ bound ∈ limit, ∃ found ∈ (ofRecords records limit).hotspot, bound < found.complexity := by
  constructor
  · intro hne
    obtain ⟨path, hpath⟩ := List.exists_mem_of_ne_nil _ hne
    obtain ⟨other, hother, -⟩ := List.mem_map.mp hpath
    obtain ⟨hmem, habove⟩ := List.mem_filter.mp hother
    obtain ⟨bound, hbound, hless⟩ := any_exceeds_iff.mp habove
    have hsome : greatest records ≠ none :=
      mt greatest_eq_none_iff.mp (List.ne_nil_of_mem hmem)
    obtain ⟨found, hfound⟩ := Option.ne_none_iff_exists'.mp hsome
    obtain ⟨place, record, hrecord, rfl⟩ := exists_of_greatest hfound
    exact ⟨bound, hbound, _, hfound, Nat.lt_of_lt_of_le hless (hrecord.greatest other hmem)⟩
  · rintro ⟨bound, hbound, found, hfound, hless⟩
    obtain ⟨place, record, hrecord, rfl⟩ := exists_of_greatest hfound
    exact List.ne_nil_of_mem (mem_overLimit (List.mem_of_getElem? hrecord.stands) hbound hless)

/-- The hotspot of a summary is the first of the most complex files, and there is none only without
files. The files above the limit are those of the records above it, in their order and as often as they
occur, and none without a limit. There is one if and only if the hotspot is above the limit. -/
theorem hotspot_overLimit (records : List Record) (limit : Option Nat) :
    ((ofRecords records limit).hotspot = none ↔ records = []) ∧
      (∀ found, (ofRecords records limit).hotspot = some found ↔
        ∃ place record, IsFirstGreatest records place record ∧
          found = ⟨record.path, record.complexity⟩) ∧
      (∃ places : List Nat, places.Pairwise (· < ·) ∧
        (∀ place, place ∈ places ↔ ∃ bound ∈ limit, ∃ record,
          records[place]? = some record ∧ bound < record.complexity) ∧
        (ofRecords records limit).overLimit.map some =
          places.map fun place => records[place]?.map (·.path)) ∧
      (ofRecords records none).overLimit = [] ∧
      ((ofRecords records limit).overLimit ≠ [] ↔
        ∃ bound ∈ limit, ∃ found ∈ (ofRecords records limit).hotspot, bound < found.complexity) := by
  refine ⟨greatest_eq_none_iff, fun found => greatest_eq_some_iff, exists_places records limit,
    Classical.not_not.mp fun hne => ?_, overLimit_ne_nil_iff⟩
  obtain ⟨bound, hbound, -⟩ := overLimit_ne_nil_iff.mp hne
  cases hbound

end Summary

end SourceMetrics
