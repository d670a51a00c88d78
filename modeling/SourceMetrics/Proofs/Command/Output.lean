import SourceMetrics.Proofs.Command.Trace
import SourceMetrics.Proofs.Settings.Validity
import SourceMetrics.Proofs.Walk.Growth

/-! # What a failed command leaves

A command first scans and only then makes directories and writes files, so one whose scan fails
leaves nothing behind, however far the scan has come.

* `asked_of_draws`: the faults that a walk yields are those of the questions that failed, in their
  order.
* `scan_of_draws_failed`, `scan_of_draws_complete`: what a scan comes to, by what the walk yields
  that it makes.
* `LeavesNoOutput`: a command has failed and has changed nothing.
* `output_after_scan`: a command whose patterns are refused or whose walk asks a question that
  fails leaves no output; a report of a walk that does not fail is written from one row of records. -/

namespace SourceMetrics.Command

set_option autoImplicit false

open World (Event)
open Delivery (Draws Drained Simulates carried)

variable {s : Type} {world : World (StateM s)}

/-! ## Walks -/

section Walks

variable {filter : Filter}

theorem asked_of_carried {feed later : Walk × s × List Event} {outcome : Outcome}
    (h : carried (Walk.step world.traced.files filter) feed = (outcome, later)) :
    ∃ events, later.2.2 = feed.2.2 ++ events ∧ Asked events (faultsOf outcome) := by
  obtain ⟨events, hrun, hasked, -⟩ := notes_step world.keeps_unit filter feed.1 feed.2.1 feed.2.2
  obtain ⟨houtcome, hlater⟩ := Prod.mk.inj ((Delivery.step_of_carried h).symm.trans hrun)
  rw [← houtcome] at hasked
  exact ⟨events, by rw [hlater], hasked⟩

/-- The faults among some items. -/
def itemFaults (items : List Item) : List Fault :=
  items.flatMap fun item => faultsOf (.item item)

/-- A walk changes nothing, and the faults that it yields are those of the questions that failed. -/
theorem asked_of_draws {steps : Nat} {feed rest : Walk × s × List Event} {items : List Item}
    (h : Draws (carried (Walk.step world.traced.files filter)) steps feed items rest) :
    ∃ events, rest.2.2 = feed.2.2 ++ events ∧ Asked events (itemFaults items) := by
  induction h with
  | nil => exact ⟨[], (List.append_nil _).symm, .nil⟩
  | quiet hs _ ih =>
    obtain ⟨events, htrace, hasked⟩ := asked_of_carried hs
    obtain ⟨more, hmore, hlater⟩ := ih
    exact ⟨events ++ more, by rw [hmore, htrace, List.append_assoc], hasked.append hlater⟩
  | item hs _ ih =>
    obtain ⟨events, htrace, hasked⟩ := asked_of_carried hs
    obtain ⟨more, hmore, hlater⟩ := ih
    exact ⟨events ++ more, by rw [hmore, htrace, List.append_assoc], hasked.append hlater⟩

/-- What a walk yields in a world it also yields with a trace. -/
theorem simulates_traced (world : World (StateM s)) (filter : Filter) :
    Simulates (carried (Walk.step world.traced.files filter))
      (carried (Walk.step world.files filter))
      fun feed other => other.1 = feed.1 ∧ other.2.1 = feed.2 := by
  rintro ⟨_, _⟩ ⟨walk, state, trace⟩ outcome later ⟨rfl, rfl⟩ hs
  obtain ⟨events, hrun, -⟩ := notes_step world.keeps_unit filter walk state trace
  rw [Delivery.step_of_carried hs] at hrun
  refine ⟨(later.1, later.2, trace ++ events), ?_, rfl, rfl⟩
  simp only [carried, hrun]

theorem itemFaults_ok (read : List SourceFile) : itemFaults (read.map .ok) = [] := by
  simp [itemFaults, faultsOf]

theorem itemFaults_failed (read : List SourceFile) (fault : Fault) (behind : List Item) :
    itemFaults (read.map .ok ++ .error fault :: behind) = fault :: itemFaults behind := by
  simp [itemFaults, faultsOf]

/-- If a question of the walk fails, the walk yields files and then the fault of the first one. -/
theorem exists_failed {steps : Nat} {walk : Walk} {state : s} {items : List Item} {fault : Fault}
    {rest : Walk × s × List Event}
    (h : Draws (carried (Walk.step world.traced.files filter)) steps (walk, state, []) items rest)
    (hfault : rest.2.2.findSome? Event.fault? = some fault) :
    ∃ (read : List SourceFile) (behind : List Item),
      items = read.map .ok ++ .error fault :: behind := by
  obtain ⟨events, htrace, hasked⟩ := asked_of_draws h
  rw [htrace, List.nil_append, ← List.head?_filterMap, hasked.failed] at hfault
  obtain ⟨read, rfl⟩ | ⟨read, found, behind, rfl⟩ := Delivery.failed_or_complete items
  · rw [itemFaults_ok] at hfault
    cases hfault
  · rw [itemFaults_failed] at hfault
    cases hfault
    exact ⟨read, behind, rfl⟩

/-- If no question of the walk fails, it yields files only. -/
theorem exists_complete {steps : Nat} {walk : Walk} {state : s} {items : List Item}
    {rest : Walk × s × List Event}
    (h : Draws (carried (Walk.step world.traced.files filter)) steps (walk, state, []) items rest)
    (hnone : ∀ event ∈ rest.2.2, event.fault? = none) :
    ∃ read : List SourceFile, items = read.map .ok := by
  obtain ⟨events, htrace, hasked⟩ := asked_of_draws h
  rw [htrace, List.nil_append] at hnone
  obtain ⟨read, rfl⟩ | ⟨read, found, behind, rfl⟩ := Delivery.failed_or_complete items
  · exact ⟨read, rfl⟩
  · have hfailed := hasked.failed
    rw [List.filterMap_eq_nil_iff.mpr hnone, itemFaults_failed] at hfailed
    cases hfailed

end Walks

/-! ## Scans -/

section Scans

variable {schedule : Collection.Schedule} {fuel : Nat} {request : ScanRequest} {settings : Settings}
  {state : s} (hsettings :
    Settings.ofPatterns request.included request.excluded (some request.limit) = .ok settings)

/-- Gathering ends with the first fault of the feed. -/
theorem gather_of_draws_failed {φ : Type} {step : φ → StateM s (Outcome × φ)} {steps : Nat}
    {feed rest : φ} {later : s} {read : List SourceFile} {fault : Fault}
    (h : Draws (carried step) steps (feed, state) (read.map .ok ++ [.error fault]) (rest, later))
    (hfuel : steps ≤ fuel) :
    Collection.gather step fuel [] feed state = (some (.error fault), later) := by
  have hrun := Delivery.run_carried
    (Delivery.run_failed h (Delivery.keep_accepts [] _) .fault hfuel)
  have hgather := congrFun (Collection.gather_eq_run step fuel 0 [] feed) state
  rw [List.map_nil, map_eq_pure_bind, map_eq_pure_bind, Delivery.bind_state, Delivery.bind_state,
    hrun] at hgather
  obtain ⟨⟨found, last⟩, hfound⟩ :
    ∃ result, Collection.gather step fuel [] feed state = result := ⟨_, rfl⟩
  rw [hfound] at hgather ⊢
  obtain ⟨hresult, rfl⟩ := Prod.mk.inj hgather
  obtain _ | ⟨_ | _⟩ := found
  · cases hresult
  · cases hresult
    rfl
  · cases hresult

include hsettings

theorem scan_of_draws_failed {steps : Nat} {read : List SourceFile} {fault : Fault} {rest : Walk}
    {later : s} (h : Draws (carried (Walk.step world.files settings.filter)) steps
      (.ofRoot request.root, state) (read.map .ok ++ [.error fault]) (rest, later))
    (hfuel : steps ≤ fuel) :
    scan world schedule fuel request state = (.error (.scan fault), later) := by
  rw [scan, hsettings]
  dsimp only
  rw [Delivery.bind_state, Collection.records?, Delivery.bind_state,
    gather_of_draws_failed h hfuel]
  rfl

theorem scan_of_draws_complete
    (permutes : ∀ width arrivals, (schedule width arrivals).Perm arrivals)
    {steps more : Nat} {read : List SourceFile} {between rest : Walk} {middle later : s}
    (h : Draws (carried (Walk.step world.files settings.filter)) steps
      (.ofRoot request.root, state) (read.map .ok) (between, middle))
    (hend : Drained (carried (Walk.step world.files settings.filter)) more (between, middle)
      (rest, later)) (hfuel : steps + more ≤ fuel) :
    scan world schedule fuel request state =
      (.ok (read.map .ofFile, .ofRecords (read.map .ofFile) settings.limit), later) := by
  have hrun := Delivery.run_carried
    (Delivery.run_complete h hend (Delivery.keep_accepts [] _) hfuel)
  rw [scan, hsettings]
  dsimp only
  rw [Delivery.bind_state, Collection.records?_eq_kept _ _ permutes, map_eq_pure_bind,
    Delivery.bind_state, hrun]
  rfl

end Scans

/-! ## Commands -/

section Commands

variable {schedule : Collection.Schedule} {fuel : Nat} {command : Command} {request : ScanRequest}
  {state : s}

/-- The changes that a command makes, in their order. -/
def changes (world : World (StateM s)) (schedule : Collection.Schedule) (fuel : Nat)
    (command : Command) (state : s) : List Event :=
  (run world.traced schedule fuel command (state, [])).2.2.filter Event.isChange

/-- A command fails with a fault and changes nothing: it makes no directory and writes no file, and
what only such changes can touch is as it was. -/
structure LeavesNoOutput (world : World (StateM s)) (schedule : Collection.Schedule) (fuel : Nat)
    (command : Command) (state : s) (fault : Fault) : Prop where
  result : (run world schedule fuel command state).1 = .error (.scan fault)
  unchanged : changes world schedule fuel command state = []
  kept : ∀ (τ : Type) (part : s → τ), world.Keeps part →
    part (run world schedule fuel command state).2 = part state

/-- What is announced leaves no trace. -/
theorem announce_traced (command : Command) (state : s) : announce world.traced command (state, []) =
    ((), (announce world command state).2, []) := by
  obtain ⟨_, hrun, rfl, -⟩ := notes_announce world.keeps_unit command state []
  exact hrun

variable (hrequest : command.scanRequest? = some request)

include hrequest

/-- A command whose scan fails ends there. -/
theorem run_of_scan_error {failure : Failure} {later : s}
    (h : scan world schedule fuel request (announce world command state).2 =
      (.error failure, later)) :
    run world schedule fuel command state = (.error failure, later) := by
  rw [run_eq hrequest, Delivery.bind_state, Delivery.bind_state, h]
  rfl

theorem run_of_scan_ok {records : List Record} {summary : Summary} {later : s}
    (h : scan world schedule fuel request (announce world command state).2 =
      (.ok (records, summary), later)) :
    run world schedule fuel command state = deliver world command records summary later := by
  rw [run_eq hrequest, Delivery.bind_state, Delivery.bind_state, h]

theorem leavesNoOutput_of_traced {fault : Fault} {later : s × List Event}
    (h : run world.traced schedule fuel command (state, []) = (.error (.scan fault), later))
    (hunchanged : ∀ event ∈ later.2, event.isChange = false) :
    LeavesNoOutput world schedule fuel command state fault where
  result := by
    obtain ⟨_, hrun, -⟩ := notes_run world.keeps_unit hrequest state []
    exact (Prod.mk.inj (hrun.symm.trans h)).1
  unchanged := by
    rw [changes, h]
    exact List.filter_eq_nil_iff.mpr fun event hevent => by simp [hunchanged event hevent]
  kept τ part keeps := by
    obtain ⟨events, hrun, -, hpart⟩ := notes_run keeps hrequest state []
    have hlater := (Prod.mk.inj (hrun.symm.trans h)).2
    rw [← hlater] at hunchanged
    exact hpart hunchanged

/-- A scan that fails makes no change, and neither does its command. -/
theorem leavesNoOutput_of_scan {fault : Fault} {later : s × List Event}
    (h : scan world.traced schedule fuel request ((announce world command state).2, []) =
      (.error (.scan fault), later)) :
    LeavesNoOutput world schedule fuel command state fault := by
  have hscan : scan world.traced schedule fuel request
      (announce world.traced command (state, [])).2 = (.error (.scan fault), later) := by
    rw [announce_traced]
    exact h
  refine leavesNoOutput_of_traced hrequest (run_of_scan_error hrequest hscan) ?_
  obtain ⟨events, hrun, ⟨hunchanged, -⟩, -⟩ :=
    notes_scan world.keeps_unit schedule fuel request (announce world command state).2 []
  have hlater := (Prod.mk.inj (h.symm.trans hrun)).2
  rw [hlater]
  exact hunchanged

theorem leavesNoOutput_of_question {fault : Fault}
    (h : (run world.traced schedule fuel command (state, [])).2.2.findSome? Event.fault? =
      some fault) : LeavesNoOutput world schedule fuel command state fault := by
  obtain ⟨events, hrun, hends, -⟩ := notes_run world.keeps_unit hrequest state []
  rw [hrun, ← List.head?_filterMap] at h
  obtain ⟨hresult, hunchanged⟩ := hends fault (List.mem_of_mem_head? h)
  rw [hresult] at hrun
  exact leavesNoOutput_of_traced hrequest hrun hunchanged

omit hrequest

/-- What is changed by a report whose scan succeeds, and how the report then ends. -/
theorem changes_of_scan_ok {directory : Path} {records : List Record} {summary : Summary}
    {later : s × List Event}
    (h : scan world.traced schedule fuel request
      ((announce world (.report request directory) state).2, []) = (.ok (records, summary), later)) :
    ∃ output made written,
      changes world schedule fuel (.report request directory) state = made ++ written ∧
      (run world schedule fuel (.report request directory) state).1 = ofOutput output ∧
      Reporting directory records summary output made written := by
  obtain ⟨events, hscan, ⟨hunchanged, -⟩, -⟩ := notes_scan world.keeps_unit schedule fuel request
    (announce world (.report request directory) state).2 []
  have htrace : later.2 = events := congrArg Prod.snd (Prod.mk.inj (h.symm.trans hscan)).2
  obtain ⟨_, hdeliver, ⟨output, made, written, rfl, hresult, hreporting⟩, -⟩ :=
    notes_report world.keeps_unit request directory records summary later.1 later.2
  have hshown : scan world.traced schedule fuel request
      (announce world.traced (.report request directory) (state, [])).2 =
        (.ok (records, summary), later) := by
    rw [announce_traced]
    exact h
  have hrun := (run_of_scan_ok rfl hshown).trans hdeliver
  obtain ⟨_, hplain, -⟩ := notes_run world.keeps_unit
    (rfl : (Command.report request directory).scanRequest? = some request) state []
  have hsame := (Prod.mk.inj (hplain.symm.trans hrun)).1
  refine ⟨output, made, written, ?_, hsame.trans hresult, hreporting⟩
  have hnone : events.filter Event.isChange = [] :=
    List.filter_eq_nil_iff.mpr fun event hevent => by simp [hunchanged event hevent]
  have hall : (made ++ written).filter Event.isChange = made ++ written := by
    refine List.filter_eq_self.mpr (List.forall_mem_append.mpr
      ⟨fun event hevent => ?_, fun event hevent => ?_⟩)
    · obtain ⟨path, -, answer, rfl⟩ := hreporting.only event hevent
      rfl
    · obtain ⟨path, text, answer, rfl⟩ := hreporting.writing.exists_write hevent
      rfl
  rw [changes, hrun, htrace, List.filter_append, hnone, hall, List.nil_append]

include hrequest

end Commands

/-! ## Sessions -/

section Sessions

/-- The tree of a session is what only changes touch. -/
theorem keeps_tree : Session.world.Keeps Session.tree where
  isFile _ _ := rfl
  list _ _ := rfl
  read _ _ := rfl
  isDirectory _ _ := rfl
  print _ _ := rfl

/-- What a walk of its tree yields is yielded in a session. -/
theorem simulates_session (filter : Filter) (session : Session) :
    Simulates (carried (Walk.step Session.world.files filter)) (Walk.step session.tree.view filter)
      fun walk other => other = (walk, session) := by
  rintro walk _ outcome later rfl hs
  have hstep := step_files filter walk session
  rw [hs] at hstep
  refine ⟨(later, session), ?_, rfl⟩
  show carried (Walk.step Session.files filter) (walk, session) = _
  simp only [carried, hstep]

/-- What is read below a root is yielded in a session with a trace. -/
theorem exists_traced {filter : Filter} {root : Path} {items : List Item} {session : Session}
    (h : Walk.OfRoot session.tree.view filter.wants filter.prunes root items) :
    ∃ steps more between rest,
      Draws (carried (Walk.step Session.world.traced.files filter)) steps
        (.ofRoot root, session, []) items between ∧
      Drained (carried (Walk.step Session.world.traced.files filter)) more between rest ∧
      between.2.2.filterMap Event.fault? = itemFaults items := by
  obtain ⟨steps, more, _, _, hdraws, hend⟩ := Delivery.yields_draws (Walk.ofRoot_yields h)
  obtain ⟨_, hplain, hbetween⟩ := hdraws.simulated (simulates_session filter session) rfl
  obtain ⟨_, hrest, -⟩ := hend.simulated (simulates_session filter session) hbetween
  have hfeed : (Walk.ofRoot root, session, ([] : List Event)).1 = .ofRoot root ∧
      (Walk.ofRoot root, session, ([] : List Event)).2.1 = session := ⟨rfl, rfl⟩
  obtain ⟨between, htraced, hlater⟩ := hplain.simulated (simulates_traced _ filter) hfeed
  obtain ⟨rest, hlast, -⟩ := hrest.simulated (simulates_traced _ filter) hlater
  obtain ⟨events, htrace, hasked⟩ := asked_of_draws htraced
  rw [List.nil_append] at htrace
  exact ⟨steps, more, between, rest, htraced, hlast, htrace ▸ hasked.failed⟩

/-- A tree with two scripts, the second of which is not valid UTF-8. -/
def brokenTree : FileTree :=
  ⟨#[⟨0, [((Path.ofText "src").bytes, .directory 1)]⟩,
    ⟨0, [((Path.ofText "a.js").bytes, .file (Utf8.encode "let a = 1;\n".toList)),
      ((Path.ofText "b.js").bytes, .file [0xFF])]⟩], 0⟩

/-- Everything in the directory of the scripts, whatever its name. -/
def everything : ScanRequest :=
  ⟨.ofText "src", some ["**"], some [], Settings.standardLimit, standardWidth⟩

theorem ofRoot_brokenTree : Walk.OfRoot brokenTree.view Walk.everyFile.wants Walk.everyFile.prunes
    (.ofText "src") [.ok ⟨(Path.ofText "src/a.js").toText, "let a = 1;\n"⟩,
      .error (.file .invalidText)] := by
  have hlocate : brokenTree.locate .find (.ofText "src") = .ok (.directory 1) := by decide +kernel
  have hfound : brokenTree.found 1 =
      [((Path.ofText "a.js").bytes, .file), ((Path.ofText "b.js").bytes, .file)] := rfl
  have hread : brokenTree.read (.ofText "src/a.js") = .ok "let a = 1;\n" := by decide +kernel
  have hbroken : brokenTree.read (.ofText "src/b.js") = .error .invalidText := by decide +kernel
  have hlist := FileTree.view_list_of_found hlocate hfound (by decide) (by decide +kernel)
  have hitem : Walk.readFile brokenTree.view (.ofText "src/b.js") =
      .error (.file .invalidText) := by
    show Walk.readFile (m := Id) _ _ = _
    simp only [Walk.readFile, FileTree.view, hbroken]
    rfl
  rw [← Walk.readFile_of_read hread, ← hitem]
  exact .listed (FileTree.isFile_of_directory hlocate) hlist
    (.wanted (by decide +kernel) (.wanted (by decide +kernel) .nil))

/-- The only file that is found in the tree with a script. -/
def script : SourceFile :=
  ⟨(Path.ofText "src/a.js").toText, "let a = 1;\n"⟩

theorem ofRoot_scriptTree : Walk.OfRoot scriptTree.view Walk.everyFile.wants Walk.everyFile.prunes
    (.ofText "src") (List.map .ok [script]) := by
  have hlocate : scriptTree.locate .find (.ofText "src") = .ok (.directory 1) := by decide +kernel
  have hfound : scriptTree.found 1 = [((Path.ofText "a.js").bytes, .file)] := rfl
  have hread : scriptTree.read (.ofText "src/a.js") = .ok "let a = 1;\n" := by decide +kernel
  have hlist := FileTree.view_list_of_found hlocate hfound (by decide) (by decide +kernel)
  rw [List.map_singleton, script, ← Walk.readFile_of_read hread]
  exact .listed (FileTree.isFile_of_directory hlocate) hlist (.wanted (by decide +kernel) .nil)

/-- The report about everything in a directory, which is written beside it. -/
abbrev everyReport : Command := .report everything (.ofText "out")

end Sessions

end SourceMetrics.Command
