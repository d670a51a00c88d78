import SourceMetrics.Collection
import SourceMetrics.Proofs.Delivery.Calls
import SourceMetrics.Proofs.Walk.Pruning

/-! # The order of a collection

In whatever order the records come in, a collection has them in the order of the walk, and it is
what a scan that measures one file after the other comes to.

* `fill_of_perm`: what has come in stands in its places. Each place is set once, so the order in
  which they are set does not show.
* `measure_eq`: the records of some files, for every schedule.
* `gather_eq_run`: gathering files and measuring them afterwards is to deliver them to the sink that
  keeps everything. The induction is on the steps.
* `records?_eq_ok`, `records?_of_read`: when a collection succeeds.
* `records?_eq_scan`: the two scans are the same. -/

namespace SourceMetrics.Collection

set_option autoImplicit false

/-! ## Places -/

section Places

theorem foldl_set_of_not_mem {arrivals : List Arrival} {place : Nat}
    (h : place ∉ arrivals.map (·.1)) (places : List (Option Record)) :
    (arrivals.foldl (fun places arrival => places.set arrival.1 (some arrival.2)) places)[place]? =
      places[place]? := by
  induction arrivals generalizing places with
  | nil => rfl
  | cons arrival arrivals ih =>
    rw [List.map_cons, List.mem_cons, not_or] at h
    obtain ⟨hother, hrest⟩ := h
    rw [List.foldl_cons, ih hrest, List.getElem?_set_ne (Ne.symm hother)]

/-- A record that has come in stands in its place, if no other one has the same place. -/
theorem foldl_set_of_mem {arrivals : List Arrival} (distinct : (arrivals.map (·.1)).Nodup)
    {place : Nat} {record : Record} (h : (place, record) ∈ arrivals)
    {places : List (Option Record)} (hplace : place < places.length) :
    (arrivals.foldl (fun places arrival => places.set arrival.1 (some arrival.2)) places)[place]? =
      some (some record) := by
  induction arrivals generalizing places with
  | nil => cases h
  | cons arrival arrivals ih =>
    rw [List.map_cons, List.nodup_cons] at distinct
    obtain ⟨hnew, hrest⟩ := distinct
    rw [List.foldl_cons]
    obtain rfl | hlater := List.mem_cons.mp h
    · rw [foldl_set_of_not_mem hnew, List.getElem?_set_self hplace]
    · exact ih hrest hlater (by rw [List.length_set]; exact hplace)

theorem length_foldl_set (arrivals : List Arrival) (places : List (Option Record)) :
    (arrivals.foldl (fun places arrival => places.set arrival.1 (some arrival.2)) places).length =
      places.length := by
  induction arrivals generalizing places with
  | nil => rfl
  | cons arrival arrivals ih => rw [List.foldl_cons, ih, List.length_set]

theorem length_fill (count : Nat) (arrivals : List Arrival) :
    (fill count arrivals).length = count := by
  rw [fill, length_foldl_set, List.length_replicate]

theorem distinct_places {files : List SourceFile} {arrivals : List Arrival}
    (h : arrivals.Perm (files.zipIdx.map fun entry => (entry.2, Record.ofFile entry.1))) :
    (arrivals.map (·.1)).Nodup := by
  have hplaces := h.map (·.1)
  have hrange : (files.zipIdx.map fun entry => (entry.2, Record.ofFile entry.1)).map (·.1) =
      List.range' 0 files.length := by
    rw [List.map_map, ← List.zipIdx_map_snd]
    rfl
  rw [hplaces.nodup_iff, hrange]
  exact List.nodup_range'

theorem fill_of_perm {files : List SourceFile} {arrivals : List Arrival}
    (h : arrivals.Perm (files.zipIdx.map fun entry => (entry.2, Record.ofFile entry.1))) :
    fill files.length arrivals = files.map fun file => some (.ofFile file) := by
  apply List.ext_getElem?
  intro place
  by_cases hplace : place < files.length
  · have hfile : (files[place], place) ∈ files.zipIdx :=
      List.mk_mem_zipIdx_iff_getElem?.mpr (List.getElem?_eq_getElem hplace)
    have harrival : (place, Record.ofFile files[place]) ∈ arrivals :=
      h.symm.subset (List.mem_map_of_mem hfile)
    have hplaces : place < (List.replicate files.length (none : Option Record)).length := by
      rw [List.length_replicate]
      exact hplace
    rw [fill, foldl_set_of_mem (distinct_places h) harrival hplaces, List.getElem?_map,
      List.getElem?_eq_getElem hplace]
    rfl
  · rw [List.getElem?_eq_none (by rw [length_fill]; omega),
      List.getElem?_eq_none (by rw [List.length_map]; omega)]

end Places

theorem measure_eq {schedule : Schedule} (permutes : ∀ width arrivals,
    (schedule width arrivals).Perm arrivals) (width : Nat) (files : List SourceFile) :
    measure schedule width files = files.map .ofFile := by
  have hfill := fill_of_perm (permutes (max width 1)
    (files.zipIdx.map fun entry => (entry.2, Record.ofFile entry.1)))
  simp only [measure]
  rw [hfill, List.filterMap_map]
  exact congrFun List.filterMap_eq_map files

/-! ## Gathering -/

section Gathering

variable {m : Type → Type} [Monad m] {φ : Type}

/-- What the sink that keeps everything has got when a delivery ends. -/
def kept : Ending × φ × List Record → Option (Except Fault (List Record))
  | (.complete _, _, found) => some (.ok found)
  | (.failed fault, _, _) => some (.error fault)
  | (.unfinished, _, _) => none

theorem scan_eq_kept [LawfulMonad m] (files : FileSystem m) (filter : Filter) (fuel : Nat)
    (root : Path) : Scan.records? files filter fuel root =
      kept <$> Delivery.run (Walk.step files filter) Sink.keep fuel 0 (.ofRoot root) [] := by
  rw [map_eq_pure_bind]
  apply bind_congr
  rintro ⟨ending, -, found⟩
  cases ending <;> rfl

theorem gather_eq_run [LawfulMonad m] (step : φ → m (Outcome × φ)) (fuel count : Nat)
    (gathered : List SourceFile) (feed : φ) :
    (fun found => found.map fun files => files.map (List.map Record.ofFile)) <$>
        gather step fuel gathered feed =
      kept <$> Delivery.run step Sink.keep fuel count feed (gathered.map .ofFile) := by
  induction fuel generalizing count gathered feed with
  | zero =>
    simp only [gather, Delivery.run, map_pure]
    rfl
  | succ fuel ih =>
    simp only [gather, Delivery.run, map_bind]
    apply bind_congr
    rintro ⟨outcome, later⟩
    cases outcome with
    | quiet => exact ih count gathered later
    | finished =>
      simp only [map_pure]
      rfl
    | item found =>
      cases found with
      | error fault =>
        simp only [map_pure]
        rfl
      | ok file =>
        have hlater := ih (count + 1) (gathered ++ [file]) later
        rw [List.map_append, List.map_singleton] at hlater
        exact hlater

/-- A collection gathers what the sink that keeps everything would get. -/
theorem records?_eq_kept [LawfulMonad m] (files : FileSystem m) (filter : Filter)
    {schedule : Schedule} (permutes : ∀ width arrivals, (schedule width arrivals).Perm arrivals)
    (width fuel : Nat) (root : Path) : records? files filter schedule width fuel root =
      kept <$> Delivery.run (Walk.step files filter) Sink.keep fuel 0 (.ofRoot root) [] := by
  have hmeasure : measure schedule width = List.map Record.ofFile :=
    funext fun found => measure_eq permutes width found
  have hgather := gather_eq_run (Walk.step files filter) fuel 0 [] (.ofRoot root)
  rw [List.map_nil] at hgather
  rw [← hgather, map_eq_pure_bind]
  simp only [records?, hmeasure]

end Gathering

/-! ## Trees without faults -/

section Success

variable {files : FileSystem Id} {filter : Filter} {schedule : Schedule} {root : Path}

/-- A collection that succeeds has read every file of the walk. -/
theorem records?_eq_ok (permutes : ∀ width arrivals, (schedule width arrivals).Perm arrivals)
    (finite : files.isFile root = false → Acc (Walk.Descends files filter.prunes) root)
    {width fuel : Nat} {found : List Record}
    (h : records? files filter schedule width fuel root = some (.ok found)) :
    ∃ read : List SourceFile, Walk.OfRoot files filter.wants filter.prunes root (read.map .ok) ∧
      found = read.map .ofFile := by
  obtain ⟨items, hitems⟩ : ∃ items, Walk.OfRoot files filter.wants filter.prunes root items :=
    Walk.exists_ofRoot root finite
  obtain ⟨steps, more, between, rest, hdraws, hend⟩ :=
    Delivery.yields_draws (Walk.ofRoot_yields hitems)
  obtain ⟨⟨ending, left, last⟩, hrun⟩ : ∃ result, Delivery.run (Walk.step files filter) Sink.keep
    fuel 0 (.ofRoot root) [] = result := ⟨_, rfl⟩
  rw [records?_eq_kept files filter permutes] at h
  change kept (Delivery.run (m := Id) _ _ _ _ _ _) = _ at h
  rw [hrun] at h
  cases ending with
  | failed _ => cases h
  | unfinished => cases h
  | complete count =>
    cases h
    -- the walk is read to its end in enough steps, and none of them changes what has come out
    have hlong := Delivery.run_add hrun Ending.noConfusion (steps + more)
    obtain ⟨read, rfl⟩ | ⟨read, fault, behind, rfl⟩ := Delivery.failed_or_complete items
    · have hread := Delivery.run_complete hdraws hend (Delivery.keep_accepts [] _)
        (Nat.le_add_left (steps + more) fuel)
      cases hread.symm.trans hlong
      exact ⟨read, hitems, List.nil_append _⟩
    · rw [List.append_cons] at hdraws
      obtain ⟨first, later, _, rfl, hdraws, -⟩ := hdraws.split
      have hread := Delivery.run_failed hdraws (Delivery.keep_accepts [] _) .fault
        (by omega : first ≤ fuel + (first + later + more))
      cases hread.symm.trans hlong

/-- A collection succeeds if every file of the walk can be read and it may take enough steps. -/
theorem records?_of_read (permutes : ∀ width arrivals, (schedule width arrivals).Perm arrivals)
    (width : Nat) {read : List SourceFile}
    (h : Walk.OfRoot files filter.wants filter.prunes root (read.map .ok)) :
    ∃ bound, ∀ fuel, bound ≤ fuel →
      records? files filter schedule width fuel root = some (.ok (read.map .ofFile)) := by
  obtain ⟨steps, more, between, rest, hdraws, hend⟩ := Delivery.yields_draws (Walk.ofRoot_yields h)
  refine ⟨steps + more, fun fuel hfuel => ?_⟩
  have hrun := Delivery.run_complete hdraws hend (Delivery.keep_accepts [] _) hfuel
  rw [records?_eq_kept files filter permutes]
  show kept (Delivery.run (m := Id) _ _ _ _ _ _) = _
  rw [hrun]
  rfl

end Success

/-- **A collection is a scan that measures one file after the other.** It has the same effects and
comes to the same records in the same order, or to the same first fault, whatever the number of
files that are measured at a time and the order in which the records come in. -/
theorem records?_eq_scan {m : Type → Type} [Monad m] [LawfulMonad m] (files : FileSystem m)
    (filter : Filter) (schedule : Schedule)
    (permutes : ∀ width arrivals, (schedule width arrivals).Perm arrivals) (width fuel : Nat)
    (root : Path) :
    records? files filter schedule width fuel root = Scan.records? files filter fuel root := by
  rw [scan_eq_kept, records?_eq_kept files filter permutes]

/-- Two records that come in the wrong way round. -/
theorem records?_eq_scan_nestedTree :
    (∀ width arrivals, ((fun _ found => found.reverse : Schedule) width arrivals).Perm arrivals) ∧
      records? Walk.nestedTree Walk.everyFile (fun _ found => found.reverse) 0 8 ⟨[0x72]⟩ =
        some (.ok [.ofFile ⟨Path.toText ⟨[0x72, 0x2F, 0x61, 0x2F, 0x78]⟩, "x"⟩,
          .ofFile ⟨Path.toText ⟨[0x72, 0x2F, 0x62]⟩, "b"⟩]) := by
  have permutes : ∀ (_ : Nat) (arrivals : List Arrival), arrivals.reverse.Perm arrivals :=
    fun _ arrivals => arrivals.reverse_perm
  exact ⟨permutes,
    (records?_eq_scan Walk.nestedTree Walk.everyFile _ permutes 0 8 ⟨[0x72]⟩).trans rfl⟩

end SourceMetrics.Collection
