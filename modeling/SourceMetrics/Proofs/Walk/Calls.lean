import SourceMetrics.Proofs.Walk.Refinement
import SourceMetrics.Proofs.Walk.Visits

/-! # The calls of a walk

A walk asks the file system only for what the next item needs. The calls that it makes while its items
are requested one by one are those of the reading of the tree, and each request makes them up to the
first one that yields an item.

* `requests`: what so many requests come to, each with the calls that are made for it.
* `rounds`: calls in a row, parted behind each one that yields an item.
* `Steps`, `Round`, `Follows`: what a step, a request and all requests on a walk come to.
* `visits_follow`: the calls about the entries on top of a stack are made before those about the stack
  below. The induction is on the reading, for every stack at once.
* `requests_ofRoot`: the calls of a whole walk. -/

namespace SourceMetrics.Walk

set_option autoImplicit false

open FileSystem (Call)

section Requests

variable (files : FileSystem Id) (filter : Filter)

/-- The outcomes of so many requests for an item, each with the calls to the file system that it adds
to the log. -/
def requests (fuel : Nat) : (count : Nat) → Walk → List Call → List (Outcome × List Call)
  | 0, _, _ => []
  | count + 1, walk, log =>
    let found := next files.logged filter fuel walk log
    (found.1.1, found.2.drop log.length) :: requests fuel count found.1.2 found.2

/-- What is asked about a root: whether it is a file, and then its content or its list. -/
def ofRootCalls (root : Path) : List Call :=
  match files.isFile root with
  | true => [.isFile root, .read root]
  | false => [.isFile root, .list root]

/-- The requests in which calls are made one after the other. A request ends with the first call that
yields an item, and the last request with the end of the calls. -/
def rounds : List Call → List (Outcome × List Call)
  | [] => [(.finished, [])]
  | call :: calls =>
    match call.item? files with
    | some item => (.item item, [call]) :: rounds calls
    | none => (rounds calls).modifyHead (Prod.map id (call :: ·))

/-- A step on the walk comes to an outcome, makes some calls and leaves the walk at `rest`. -/
def Steps (walk : Walk) (outcome : Outcome) (made : List Call) (rest : Walk) : Prop :=
  ∀ log, step files.logged filter walk log = ((outcome, rest), log ++ made)

/-- With enough fuel, a request comes to an outcome, makes some calls and leaves the walk at `rest`. -/
def Round (walk : Walk) (outcome : Outcome) (made : List Call) (rest : Walk) : Prop :=
  ∃ bound, ∀ fuel, bound ≤ fuel → ∀ log,
    next files.logged filter fuel walk log = ((outcome, rest), log ++ made)

/-- Requests come to the given outcomes and make the given calls, one after the other; those behind
them find that the walk is finished and make no call. -/
def Serves : Walk → List (Outcome × List Call) → Prop
  | walk, [] => Round files filter walk .finished [] walk
  | walk, round :: later =>
    ∃ rest, Round files filter walk round.1 round.2 rest ∧ Serves rest later

/-- The calls that are still to be made on a walk. -/
def Follows (walk : Walk) (calls : List Call) : Prop :=
  Serves files filter walk (rounds files calls)

end Requests

section Steps

variable {files : FileSystem Id} {filter : Filter}

/-! ## Calls and their rounds -/

theorem rounds_item {call : Call} {item : Item} (h : call.item? files = some item)
    (calls : List Call) : rounds files (call :: calls) = (.item item, [call]) :: rounds files calls := by
  rw [rounds, h]

theorem rounds_quiet {call : Call} (h : call.item? files = none) (calls : List Call) :
    rounds files (call :: calls) = (rounds files calls).modifyHead (Prod.map id (call :: ·)) := by
  rw [rounds, h]

theorem rounds_append {made : List Call} (h : ∀ call ∈ made, call.item? files = none)
    (calls : List Call) :
    rounds files (made ++ calls) = (rounds files calls).modifyHead (Prod.map id (made ++ ·)) := by
  induction made with
  | nil => exact (congrFun List.modifyHead_id _).symm
  | cons call made ih =>
    rw [List.forall_mem_cons] at h
    rw [List.cons_append, rounds_quiet h.1, ih h.2, List.modifyHead_modifyHead]
    rfl

theorem exists_rounds (files : FileSystem Id) (calls : List Call) :
    ∃ round later, rounds files calls = round :: later := by
  induction calls with
  | nil => exact ⟨_, _, rfl⟩
  | cons call calls ih =>
    obtain ⟨round, later, h⟩ := ih
    cases hitem : call.item? files with
    | some item => exact ⟨_, _, rounds_item hitem calls⟩
    | none => exact ⟨_, later, by rw [rounds_quiet hitem, h, List.modifyHead_cons]⟩

/-! ## From steps to requests -/

theorem Round.of_quiet {walk later rest : Walk} {outcome : Outcome} {made more : List Call}
    (hs : Steps files filter walk .quiet made later) (h : Round files filter later outcome more rest) :
    Round files filter walk outcome (made ++ more) rest := by
  obtain ⟨bound, h⟩ := h
  refine ⟨bound + 1, fun fuel hfuel log => ?_⟩
  obtain ⟨fuel, rfl⟩ : ∃ less, fuel = less + 1 := ⟨fuel - 1, by omega⟩
  simp only [next, bind, StateT.bind, hs log]
  rw [h fuel (by omega), List.append_assoc]

theorem Round.of_steps {walk rest : Walk} {outcome : Outcome} {made : List Call}
    (hs : Steps files filter walk outcome made rest) (hends : outcome ≠ .quiet) :
    Round files filter walk outcome made rest := by
  refine ⟨1, fun fuel hfuel log => ?_⟩
  obtain ⟨fuel, rfl⟩ : ∃ less, fuel = less + 1 := ⟨fuel - 1, by omega⟩
  simp only [next, bind, StateT.bind, hs log]
  cases outcome with
  | quiet => exact absurd rfl hends
  | item found => rfl
  | finished => rfl

theorem Follows.of_quiet {walk later : Walk} {made calls : List Call}
    (hs : Steps files filter walk .quiet made later)
    (hmade : ∀ call ∈ made, call.item? files = none) (h : Follows files filter later calls) :
    Follows files filter walk (made ++ calls) := by
  obtain ⟨round, behind, hrounds⟩ := exists_rounds files calls
  rw [Follows, hrounds] at h
  obtain ⟨rest, hround, hbehind⟩ := h
  rw [Follows, rounds_append hmade, hrounds, List.modifyHead_cons]
  exact ⟨rest, hround.of_quiet hs, hbehind⟩

/-- A step that asks nothing. -/
theorem Follows.of_passed {walk later : Walk} {calls : List Call}
    (hs : Steps files filter walk .quiet [] later) (h : Follows files filter later calls) :
    Follows files filter walk calls :=
  h.of_quiet hs fun _ hcall => absurd hcall List.not_mem_nil

theorem Follows.of_item {walk later : Walk} {made calls : List Call} {call : Call} {item : Item}
    (hs : Steps files filter walk (.item item) (made ++ [call]) later)
    (hmade : ∀ call ∈ made, call.item? files = none) (hitem : call.item? files = some item)
    (h : Follows files filter later calls) : Follows files filter walk (made ++ call :: calls) := by
  rw [Follows, rounds_append hmade, rounds_item hitem, List.modifyHead_cons]
  exact ⟨later, .of_steps hs Outcome.noConfusion, h⟩

theorem follows_empty : Follows files filter ⟨none, []⟩ [] := by
  have hend : Steps files filter ⟨none, []⟩ .finished [] ⟨none, []⟩ := fun log => by
    rw [List.append_nil]
    rfl
  have hround : Round files filter ⟨none, []⟩ .finished [] ⟨none, []⟩ :=
    .of_steps hend Outcome.noConfusion
  exact ⟨⟨none, []⟩, hround, hround⟩

/-! ## What a single step asks -/

theorem item?_list {path : Path} {entries : List Entry} (h : files.list path = .ok entries) :
    Call.item? files (.list path) = none := by
  simp only [Call.item?, h]

theorem item?_unlisted {path : Path} {fault : Fault} (h : files.list path = .error fault) :
    Call.item? files (.list path) = some (.error fault) := by
  simp only [Call.item?, h]

theorem readFile_logged (files : FileSystem Id) (path : Path) (log : List Call) :
    readFile files.logged path log = (readFile files path, log ++ [.read path]) := by
  cases hread : files.read path <;>
    simp only [readFile, FileSystem.logged, bind, StateT.bind, hread] <;> rfl

theorem enter_logged_listed {path : Path} {entries : List Entry}
    (hl : files.list path = .ok entries) (stack : List (List Entry)) (log : List Call) :
    enter files.logged path stack log =
      ((.quiet, ⟨none, entries :: stack⟩), log ++ [.list path]) := by
  simp only [enter, FileSystem.logged, bind, StateT.bind, hl]
  rfl

theorem enter_logged_unlisted {path : Path} {fault : Fault} (hl : files.list path = .error fault)
    (stack : List (List Entry)) (log : List Call) :
    enter files.logged path stack log =
      ((.item (.error fault), ⟨none, stack⟩), log ++ [.list path]) := by
  simp only [enter, FileSystem.logged, bind, StateT.bind, hl]
  rfl

theorem steps_popped (stack : List (List Entry)) :
    Steps files filter ⟨none, [] :: stack⟩ .quiet [] ⟨none, stack⟩ := fun log => by
  rw [List.append_nil]
  rfl

theorem steps_passed {entry : Entry} (h : asked? filter entry = none) (entries : List Entry)
    (stack : List (List Entry)) :
    Steps files filter ⟨none, (entry :: entries) :: stack⟩ .quiet [] ⟨none, entries :: stack⟩ := by
  intro log
  rw [List.append_nil]
  obtain ⟨path, kind⟩ := entry
  cases kind with
  | directory =>
    cases hprunes : filter.prunes path with
    | true =>
      simp only [step, hprunes, if_true]
      rfl
    | false => cases h.symm.trans (asked?_directory hprunes)
  | file =>
    cases hwants : filter.wants path with
    | true => cases h.symm.trans (asked?_file hwants)
    | false =>
      simp only [step, hwants]
      rfl
  | other => rfl

/-- A directory is entered, and what its list shows lies on top of the stack. -/
theorem steps_listed {path : Path} {inner : List Entry} (hprunes : filter.prunes path = false)
    (hl : files.list path = .ok inner) (entries : List Entry) (stack : List (List Entry)) :
    Steps files filter ⟨none, (⟨path, .directory⟩ :: entries) :: stack⟩ .quiet [.list path]
      ⟨none, inner :: entries :: stack⟩ := by
  intro log
  rw [← enter_logged_listed hl]
  simp only [step, hprunes]
  rfl

theorem steps_unlisted {path : Path} {fault : Fault} (hprunes : filter.prunes path = false)
    (hl : files.list path = .error fault) (entries : List Entry) (stack : List (List Entry)) :
    Steps files filter ⟨none, (⟨path, .directory⟩ :: entries) :: stack⟩ (.item (.error fault))
      [.list path] ⟨none, entries :: stack⟩ := by
  intro log
  rw [← enter_logged_unlisted hl]
  simp only [step, hprunes]
  rfl

theorem steps_wanted {path : Path} (hwants : filter.wants path = true) (entries : List Entry)
    (stack : List (List Entry)) :
    Steps files filter ⟨none, (⟨path, .file⟩ :: entries) :: stack⟩ (.item (readFile files path))
      [.read path] ⟨none, entries :: stack⟩ := by
  intro log
  simp only [step, hwants, if_true, bind, StateT.bind, readFile_logged]
  rfl

/-! ## The whole walk -/

/-- The calls about the entries on top of a stack come first, then those of the stack below. -/
theorem visits_follow {number : Nat} {entries : List Entry} {visits : List (List Nat × Call)}
    (h : Visits files filter number entries visits) :
    ∀ {stack : List (List Entry)} {calls : List Call}, Follows files filter ⟨none, stack⟩ calls →
      Follows files filter ⟨none, entries :: stack⟩ (visits.map Prod.snd ++ calls) := by
  have hnone : ∀ call ∈ ([] : List Call), call.item? files = none :=
    fun call hcall => absurd hcall List.not_mem_nil
  induction h with
  | nil => exact fun hcalls => hcalls.of_passed (steps_popped _)
  | passed hpassed _ ih => exact fun hcalls => (ih hcalls).of_passed (steps_passed hpassed _ _)
  | @asked number entry call rest inner later hasked hinner _ ihInner ih =>
    intro stack calls hcalls
    have hmade : ((([number], call) :: inner.map (Prod.map (number :: ·) id) ++ later).map Prod.snd
        ++ calls) = call :: (inner.map Prod.snd ++ (later.map Prod.snd ++ calls)) := by
      simp only [List.cons_append, List.map_cons, List.map_append, List.map_map, List.append_assoc,
        Prod.map_snd, Function.comp_def, id]
    rw [hmade]
    obtain ⟨path, rfl, hprunes, rfl⟩ | ⟨path, rfl, hwants, rfl⟩ := asked?_eq_some_iff.mp hasked
    · cases hl : files.list path with
      | ok entries =>
        rw [Call.entries_list hl] at ihInner
        -- what is left of the directory around it is by now part of the stack
        exact (ihInner (ih hcalls)).of_quiet (steps_listed hprunes hl rest stack)
          (List.forall_mem_singleton.mpr (item?_list hl))
      | error fault =>
        rw [Call.entries_unlisted hl] at hinner
        cases hinner
        exact (ih hcalls).of_item (steps_unlisted hprunes hl rest stack) hnone (item?_unlisted hl)
    · cases hinner
      exact (ih hcalls).of_item (steps_wanted hwants rest stack) hnone rfl

theorem ofRootCalls_file {root : Path} (hf : files.isFile root = true) :
    ofRootCalls files root = [.isFile root, .read root] := by
  rw [ofRootCalls, hf]

theorem ofRootCalls_directory {root : Path} (hf : files.isFile root = false) :
    ofRootCalls files root = [.isFile root, .list root] := by
  rw [ofRootCalls, hf]

theorem steps_rootFile {root : Path} (hf : files.isFile root = true) :
    Steps files filter (.ofRoot root) (.item (readFile files root)) ([.isFile root] ++ [.read root])
      ⟨none, []⟩ := by
  intro log
  have hread := readFile_logged files root (log ++ [.isFile root])
  rw [List.append_assoc] at hread
  simp only [step, ofRoot, bind, StateT.bind, FileSystem.logged, hf, if_true] at hread ⊢
  rw [hread]
  rfl

theorem step_rootDirectory_logged {root : Path} (hf : files.isFile root = false) (log : List Call) :
    step files.logged filter (.ofRoot root) log =
      enter files.logged root [] (log ++ [.isFile root]) := by
  simp only [step, ofRoot, bind, StateT.bind, FileSystem.logged, hf]
  rfl

/-- The calls of a walk are those about its root, and then those of the reading of what the root
lists. -/
theorem ofRoot_follows {root : Path} {visits : List (List Nat × Call)}
    (hfile : files.isFile root = true → visits = [])
    (h : files.isFile root = false → Visits files filter 0 (Call.entries files (.list root)) visits) :
    Follows files filter (.ofRoot root) (ofRootCalls files root ++ visits.map Prod.snd) := by
  have hasked : ∀ call ∈ [Call.isFile root], call.item? files = none :=
    List.forall_mem_singleton.mpr rfl
  cases hf : files.isFile root with
  | true =>
    rw [ofRootCalls_file hf, hfile hf]
    exact follows_empty.of_item (steps_rootFile hf) hasked rfl
  | false =>
    rw [ofRootCalls_directory hf]
    have hvisits := h hf
    cases hl : files.list root with
    | error fault =>
      rw [Call.entries_unlisted hl] at hvisits
      cases hvisits
      have hstep : Steps files filter (.ofRoot root) (.item (.error fault))
          ([.isFile root] ++ [.list root]) ⟨none, []⟩ := fun log => by
        rw [step_rootDirectory_logged hf, enter_logged_unlisted hl, List.append_assoc]
      exact follows_empty.of_item hstep hasked (item?_unlisted hl)
    | ok entries =>
      rw [Call.entries_list hl] at hvisits
      have hall := visits_follow hvisits follows_empty
      rw [List.append_nil] at hall
      have hstep : Steps files filter (.ofRoot root) .quiet [.isFile root, .list root]
          ⟨none, [entries]⟩ := fun log => by
        rw [step_rootDirectory_logged hf, enter_logged_listed hl, List.append_assoc]
        rfl
      exact hall.of_quiet hstep
        (List.forall_mem_cons.mpr ⟨rfl, List.forall_mem_singleton.mpr (item?_list hl)⟩)

/-! ## Counted requests -/

theorem requests_finished {walk : Walk} {fuel : Nat}
    (h : ∀ log, next files.logged filter fuel walk log = ((.finished, walk), log ++ []))
    (count : Nat) (log : List Call) :
    requests files filter fuel count walk log = List.replicate count (Outcome.finished, []) := by
  induction count generalizing log with
  | zero => rfl
  | succ count ih =>
    simp only [requests, h log, ih, List.drop_left]
    rfl

theorem Serves.requests_eq {walk : Walk} {row : List (Outcome × List Call)}
    (h : Serves files filter walk row) :
    ∃ bound, ∀ fuel, bound ≤ fuel → ∀ count log, requests files filter fuel count walk log =
      (row ++ List.replicate count (Outcome.finished, [])).take count := by
  induction row generalizing walk with
  | nil =>
    obtain ⟨bound, hround⟩ := h
    refine ⟨bound, fun fuel hfuel count log => ?_⟩
    rw [requests_finished (hround fuel hfuel), List.nil_append, List.take_replicate, Nat.min_self]
  | cons round later ih =>
    obtain ⟨rest, ⟨first, hround⟩, hrest⟩ := h
    obtain ⟨behind, hlater⟩ := ih hrest
    refine ⟨max first behind, fun fuel hfuel count log => ?_⟩
    cases count with
    | zero => rfl
    | succ count =>
      simp only [requests, hround fuel (by omega), hlater fuel (by omega), List.drop_left]
      simp [List.replicate_succ', ← List.append_assoc, List.take_append]

end Steps

/-- **The calls of a walk on a finite tree.** First the root is asked whether it is a file, and then it
is read or listed. After that something is asked about the entries that the walk comes to and that give
rise to a call, about each of them once and in the order of the tree, and about nothing else. A request
makes these calls up to the first one that yields an item. The request behind the last item makes those
that are left, and any further one makes none. -/
theorem requests_ofRoot (files : FileSystem Id) (filter : Filter) (root : Path)
    (finite : files.isFile root = false → Acc (Descends files filter.prunes) root) :
    ∃ visits : List (List Nat × Call),
      visits.Pairwise (fun earlier later => earlier.1 < later.1) ∧
      (∀ place call, (place, call) ∈ visits ↔ ∃ entries entry, files.isFile root = false ∧
        files.list root = .ok entries ∧ Stands files filter.prunes entries place entry ∧
        asked? filter entry = some call) ∧
      ∃ bound, ∀ fuel, bound ≤ fuel → ∀ count log,
        requests files filter fuel count (.ofRoot root) log =
          (rounds files (ofRootCalls files root ++ visits.map Prod.snd) ++
            List.replicate count (Outcome.finished, [])).take count := by
  cases hf : files.isFile root with
  | true =>
    have hfollows : Follows files filter (.ofRoot root) (ofRootCalls files root ++ List.map _ []) :=
      ofRoot_follows (fun _ => rfl) fun hd => by simp [hf] at hd
    refine ⟨[], .nil, fun place call => ⟨fun hmem => absurd hmem List.not_mem_nil, ?_⟩,
      hfollows.requests_eq⟩
    rintro ⟨_, _, hd, -⟩
    cases hd
  | false =>
    obtain ⟨visits, hvisits⟩ := exists_visits_of_acc (finite hf)
    have hfollows : Follows files filter (.ofRoot root) _ :=
      ofRoot_follows (fun hd => by simp [hf] at hd) fun _ => hvisits
    refine ⟨visits, pairwise_visits hvisits, fun place call => ?_, hfollows.requests_eq⟩
    rw [mem_visits_iff hvisits, asksAt_zero_iff]
    constructor
    · rintro ⟨entry, hstands, hasked⟩
      cases hl : files.list root with
      | error fault =>
        rw [Call.entries_unlisted hl] at hstands
        exact absurd hstands not_stands_nil
      | ok entries =>
        rw [Call.entries_list hl] at hstands
        exact ⟨entries, entry, rfl, rfl, hstands, hasked⟩
    · rintro ⟨entries, entry, -, hl, hstands, hasked⟩
      exact ⟨entry, by rwa [Call.entries_list hl], hasked⟩

/-- The directory that is passed over is not listed, and the files in front of it and behind it are
read. -/
theorem requests_ofRoot_faultyTree :
    ∃ excluded, (PatternList.compile ["/d/"] = .ok excluded ∧
      faultyTree.isFile ⟨[0x72]⟩ = false ∧
      Acc (Descends faultyTree (Filter.prunes ⟨everyFile.included, excluded⟩)) ⟨[0x72]⟩) ∧
    ∃ visits : List (List Nat × Call),
      visits.Pairwise (fun earlier later => earlier.1 < later.1) ∧
      ([0], .read ⟨[0x72, 0x2F, 0x61]⟩) ∈ visits ∧ ([2], .read ⟨[0x72, 0x2F, 0x62]⟩) ∈ visits ∧
      (∀ place, (place, .list ⟨[0x72, 0x2F, 0x64]⟩) ∉ visits) ∧
      ∃ bound, ∀ fuel, bound ≤ fuel → ∀ count log,
        requests faultyTree ⟨everyFile.included, excluded⟩ fuel count (.ofRoot ⟨[0x72]⟩) log =
          (rounds faultyTree ([Call.isFile ⟨[0x72]⟩, .list ⟨[0x72]⟩] ++ visits.map Prod.snd) ++
            List.replicate count (Outcome.finished, [])).take count := by
  obtain ⟨excluded, hcompile, hprunes, hfront, hbehind⟩ : ∃ excluded,
      PatternList.compile ["/d/"] = .ok excluded ∧
        Filter.prunes ⟨everyFile.included, excluded⟩ ⟨[0x72, 0x2F, 0x64]⟩ = true ∧
        Filter.wants ⟨everyFile.included, excluded⟩ ⟨[0x72, 0x2F, 0x61]⟩ = true ∧
        Filter.wants ⟨everyFile.included, excluded⟩ ⟨[0x72, 0x2F, 0x62]⟩ = true :=
    ⟨_, rfl, by decide, by decide, by decide⟩
  have finite := acc_faultyTree (Filter.prunes ⟨everyFile.included, excluded⟩)
  obtain ⟨visits, hsorted, hmem, hrequests⟩ :=
    requests_ofRoot faultyTree ⟨everyFile.included, excluded⟩ ⟨[0x72]⟩ fun _ => finite
  refine ⟨excluded, ⟨hcompile, rfl, finite⟩, visits, hsorted, ?_, ?_, fun place hplace => ?_, hrequests⟩
  · exact (hmem _ _).mpr ⟨_, _, rfl, rfl, .here rfl, asked?_file hfront⟩
  · exact (hmem _ _).mpr ⟨_, _, rfl, rfl, .here rfl, asked?_file hbehind⟩
  · obtain ⟨_, entry, -, -, -, hasked⟩ := (hmem _ _).mp hplace
    obtain ⟨path, -, hopen, heq⟩ | ⟨path, -, -, heq⟩ := asked?_eq_some_iff.mp hasked
    · cases heq
      cases hprunes.symm.trans hopen
    · cases heq

end SourceMetrics.Walk
