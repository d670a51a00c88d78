import SourceMetrics.Proofs.Command.Session

/-! # What happens to a world

A world that keeps a trace of what can fail a scan, and of what is changed in it. The trace does not
show in what a command does.

* `World.traced`: the world with a trace.
* `World.Notes`: an action of the traced world does what the one without a trace does, and adds
  events that fit its result. `Notes.bind` puts two of them together.
* `notes_step`, `notes_gather`, `notes_scan`: a scan lists and reads, and it fails with what one of
  these questions failed with.
* `notes_makeAll`, `notes_writeReport`: what is made and written for a report, and in which order.
  Where the output fails, the call that fails is the last one.
* `notes_run`: a command, any question of which that fails is the end of it. -/

namespace SourceMetrics

set_option autoImplicit false

namespace World

/-! ## Traces -/

/-- What happens to a world: a question that can fail a scan or a change that is asked for, with its
answer. -/
inductive Event where
  | list (path : Path) (answer : Except Fault (List Entry))
  | read (path : Path) (answer : Except Fault String)
  | makeDirectory (path : Path) (answer : Except FileFault Unit)
  | write (path : Path) (text : String) (answer : Except FileFault Unit)

namespace Event

/-- The fault with which a question is answered. -/
def fault? : Event → Option Fault
  | .list _ (.error fault) => some fault
  | .read _ (.error fault) => some fault
  | _ => none

def isChange : Event → Bool
  | .makeDirectory _ _ => true
  | .write _ _ _ => true
  | _ => false

end Event

variable {s : Type}

/-- An action that notes events behind those that were noted before. -/
def noting {α : Type} (action : StateM s α) (events : α → List Event) :
    StateM (s × List Event) α := fun state =>
  let found := action state.1
  (found.1, found.2, state.2 ++ events found.1)

/-- A world with a trace. -/
def traced (world : World (StateM s)) : World (StateM (s × List Event)) where
  files :=
    { isFile := fun path => noting (world.files.isFile path) fun _ => []
      list := fun path => noting (world.files.list path) fun answer => [.list path answer]
      read := fun path => noting (world.files.read path) fun answer => [.read path answer] }
  isDirectory path := noting (world.isDirectory path) fun _ => []
  makeDirectory path := noting (world.makeDirectory path) fun answer => [.makeDirectory path answer]
  write path text := noting (world.write path text) fun answer => [.write path text answer]
  print text := noting (world.print text) fun _ => []

/-- Some part of the state that only changes touch. -/
structure Keeps {τ : Type} (world : World (StateM s)) (part : s → τ) : Prop where
  isFile : ∀ path state, part (world.files.isFile path state).2 = part state
  list : ∀ path state, part (world.files.list path state).2 = part state
  read : ∀ path state, part (world.files.read path state).2 = part state
  isDirectory : ∀ path state, part (world.isDirectory path state).2 = part state
  print : ∀ text state, part (world.print text state).2 = part state

theorem keeps_unit (world : World (StateM s)) : world.Keeps fun _ => () where
  isFile _ _ := rfl
  list _ _ := rfl
  read _ _ := rfl
  isDirectory _ _ := rfl
  print _ _ := rfl

/-! ## Actions that note events -/

section Notes

variable {τ α β : Type} {part : s → τ}

/-- An action with a trace does what one without does. It notes events that fit its result, and
where none of them is a change it leaves a part of the state as it was. -/
def Notes (part : s → τ) (noted : StateM (s × List Event) α) (plain : StateM s α)
    (fits : α → List Event → Prop) : Prop :=
  ∀ state trace, ∃ events, noted (state, trace) = ((plain state).1, (plain state).2, trace ++ events) ∧
    fits (plain state).1 events ∧
    ((∀ event ∈ events, event.isChange = false) → part (plain state).2 = part state)

theorem Notes.pure {value : α} {fits : α → List Event → Prop} (h : fits value []) :
    Notes part (Pure.pure value) (Pure.pure value) fits := fun state trace =>
  ⟨[], by rw [List.append_nil]; rfl, h, fun _ => rfl⟩

theorem Notes.mono {noted : StateM (s × List Event) α} {plain : StateM s α}
    {fits fits' : α → List Event → Prop} (h : Notes part noted plain fits)
    (himp : ∀ value events, fits value events → fits' value events) :
    Notes part noted plain fits' := fun state trace =>
  have ⟨events, hrun, hfits, hpart⟩ := h state trace
  ⟨events, hrun, himp _ _ hfits, hpart⟩

/-- Two actions one after the other note first the events of the one and then those of the other. -/
theorem Notes.bind {noted : StateM (s × List Event) α} {plain : StateM s α}
    {noted' : α → StateM (s × List Event) β} {plain' : α → StateM s β}
    {first : α → List Event → Prop} {fits : β → List Event → Prop}
    (h : Notes part noted plain first)
    (h' : ∀ value events, first value events →
      Notes part (noted' value) (plain' value) fun result rest => fits result (events ++ rest)) :
    Notes part (noted >>= noted') (plain >>= plain') fits := by
  intro state trace
  obtain ⟨events, hrun, hfirst, hpart⟩ := h state trace
  obtain ⟨rest, hrest, hfits, hpart'⟩ := h' _ events hfirst (plain state).2 (trace ++ events)
  refine ⟨events ++ rest, ?_, hfits, fun hnone => ?_⟩
  · rw [Delivery.bind_state, hrun]
    exact hrest.trans (by rw [List.append_assoc]; rfl)
  · obtain ⟨hnoneFirst, hnoneRest⟩ := List.forall_mem_append.mp hnone
    exact (hpart' hnoneRest).trans (hpart hnoneFirst)

/-- What holds of all events of two actions holds of those of both together. -/
theorem Notes.bindAll {noted : StateM (s × List Event) α} {plain : StateM s α}
    {noted' : α → StateM (s × List Event) β} {plain' : α → StateM s β} {holds : Event → Prop}
    (h : Notes part noted plain fun _ events => ∀ event ∈ events, holds event)
    (h' : ∀ value, Notes part (noted' value) (plain' value)
      fun _ events => ∀ event ∈ events, holds event) :
    Notes part (noted >>= noted') (plain >>= plain')
      fun _ events => ∀ event ∈ events, holds event :=
  h.bind fun value _ hevents => (h' value).mono fun _ _ hrest =>
    List.forall_mem_append.mpr ⟨hevents, hrest⟩

/-- A question leaves the part as it was. -/
theorem notes_question {action : StateM s α} (events : α → List Event)
    (h : ∀ state, part (action state).2 = part state) :
    Notes part (noting action events) action fun value noted => noted = events value :=
  fun state _ => ⟨_, rfl, rfl, fun _ => h state⟩

/-- Whatever a change does, it is noted as one. -/
theorem notes_change {action : StateM s α} {event : α → Event}
    (h : ∀ answer, (event answer).isChange = true) :
    Notes part (noting action fun answer => [event answer]) action
      fun answer noted => noted = [event answer] := by
  intro state trace
  refine ⟨_, rfl, rfl, fun hnone => ?_⟩
  have hchange := h (action state).1
  rw [hnone _ List.mem_cons_self] at hchange
  cases hchange

end Notes

end World

namespace Command

open World (Event Notes)

variable {s τ : Type} {world : World (StateM s)} {part : s → τ}

/-! ## Scans -/

/-- The faults among some events, and none of the events is a change. -/
structure Asked (events : List Event) (faults : List Fault) : Prop where
  unchanged : ∀ event ∈ events, event.isChange = false
  failed : events.filterMap Event.fault? = faults

theorem Asked.nil : Asked [] [] where
  unchanged _ h := nomatch h
  failed := rfl

theorem Asked.append {events later : List Event} {faults more : List Fault}
    (h : Asked events faults) (h' : Asked later more) :
    Asked (events ++ later) (faults ++ more) where
  unchanged := List.forall_mem_append.mpr ⟨h.unchanged, h'.unchanged⟩
  failed := by rw [List.filterMap_append, h.failed, h'.failed]

/-- The fault that an outcome yields, if it yields one. -/
def faultsOf : Outcome → List Fault
  | .item (.error fault) => [fault]
  | _ => []

/-- The fault with which something ends that may not have ended. -/
def failures {α : Type} : Option (Except Fault α) → List Fault
  | some (.error fault) => [fault]
  | _ => []

section Scans

variable (keeps : world.Keeps part)

include keeps

theorem notes_readFile (path : Path) :
    Notes part (Walk.readFile world.traced.files path) (Walk.readFile world.files path)
      fun item events => Asked events (faultsOf (.item item)) := by
  refine (World.notes_question (fun answer => [.read path answer]) (keeps.read path)).bind ?_
  rintro answer _ rfl
  cases answer with
  | ok content => exact .pure ⟨by simp [Event.isChange], rfl⟩
  | error fault => exact .pure ⟨by simp [Event.isChange], rfl⟩

theorem notes_enter (path : Path) (stack : List (List Entry)) :
    Notes part (Walk.enter world.traced.files path stack) (Walk.enter world.files path stack)
      fun found events => Asked events (faultsOf found.1) := by
  refine (World.notes_question (fun answer => [.list path answer]) (keeps.list path)).bind ?_
  rintro answer _ rfl
  cases answer with
  | ok entries => exact .pure ⟨by simp [Event.isChange], rfl⟩
  | error fault => exact .pure ⟨by simp [Event.isChange], rfl⟩

/-- A step reads and lists only, and yields the fault of what fails. -/
theorem notes_step (filter : Filter) (walk : Walk) :
    Notes part (Walk.step world.traced.files filter walk) (Walk.step world.files filter walk)
      fun found events => Asked events (faultsOf found.1) := by
  have readNext : ∀ (path : Path) (later : Walk), Notes part
      (do return (Outcome.item (← Walk.readFile world.traced.files path), later))
      (do return (Outcome.item (← Walk.readFile world.files path), later))
      fun found events => Asked events (faultsOf found.1) := by
    intro path later
    refine (notes_readFile keeps path).bind fun item events hasked => .pure ?_
    rw [List.append_nil]
    exact hasked
  match walk with
  | ⟨some root, stack⟩ =>
    refine (World.notes_question (fun _ => []) (keeps.isFile root)).bind ?_
    rintro isFile _ rfl
    cases isFile with
    | true => exact readNext root _
    | false => exact notes_enter keeps root stack
  | ⟨none, []⟩ => exact .pure .nil
  | ⟨none, [] :: stack⟩ => exact .pure .nil
  | ⟨none, (⟨path, .directory⟩ :: entries) :: stack⟩ =>
    simp only [Walk.step]
    split
    · exact .pure .nil
    · exact notes_enter keeps path (entries :: stack)
  | ⟨none, (⟨path, .file⟩ :: entries) :: stack⟩ =>
    simp only [Walk.step]
    split
    · exact readNext path _
    · exact .pure .nil
  | ⟨none, (⟨_, .other⟩ :: entries) :: stack⟩ => exact .pure .nil

theorem notes_gather (filter : Filter) (fuel : Nat) (gathered : List SourceFile) (walk : Walk) :
    Notes part (Collection.gather (Walk.step world.traced.files filter) fuel gathered walk)
      (Collection.gather (Walk.step world.files filter) fuel gathered walk)
      fun found events => Asked events (failures found) := by
  induction fuel generalizing gathered walk with
  | zero => exact .pure .nil
  | succ fuel ih =>
    refine (notes_step keeps filter walk).bind ?_
    rintro ⟨outcome, later⟩ events hasked
    cases outcome with
    | quiet => exact (ih gathered later).mono fun _ _ => hasked.append
    | finished => exact .pure (by rw [List.append_nil]; exact hasked)
    | item found =>
      cases found with
      | error fault => exact .pure (by rw [List.append_nil]; exact hasked)
      | ok file => exact (ih (gathered ++ [file]) later).mono fun _ _ => hasked.append

theorem notes_records? (filter : Filter) (schedule : Collection.Schedule) (width fuel : Nat)
    (root : Path) :
    Notes part (Collection.records? world.traced.files filter schedule width fuel root)
      (Collection.records? world.files filter schedule width fuel root)
      fun found events => Asked events (failures found) := by
  refine (notes_gather keeps filter fuel [] (.ofRoot root)).bind fun found events hasked => .pure ?_
  rw [List.append_nil]
  obtain _ | ⟨fault | files⟩ := found <;> exact hasked

/-- A scan changes nothing, and it fails with what a question failed with. -/
theorem notes_scan (schedule : Collection.Schedule) (fuel : Nat) (request : ScanRequest) :
    Notes part (scan world.traced schedule fuel request) (scan world schedule fuel request)
      fun result events => (∀ event ∈ events, event.isChange = false) ∧
        ∀ fault ∈ events.filterMap Event.fault?, result = .error (.scan fault) := by
  unfold scan
  cases Settings.ofPatterns request.included request.excluded (some request.limit) with
  | error fault => exact .pure ⟨Asked.nil.unchanged, fun _ h => nomatch h⟩
  | ok settings =>
    refine (notes_records? keeps settings.filter schedule request.width fuel request.root).bind ?_
    rintro found events ⟨hunchanged, hfaults⟩
    obtain _ | ⟨fault | records⟩ := found
    all_goals
      refine .pure ?_
      rw [List.append_nil, hfaults]
      exact ⟨hunchanged, by simp [failures]⟩

end Scans

/-! ## Output -/

section Output

variable (keeps : world.Keeps part)

/-- The events of making directories: nothing else is made, and a failure is the answer to the last
one of them. -/
structure Making (paths : List Path) (result : Except FileFault Unit) (events : List Event) :
    Prop where
  only : ∀ event ∈ events, ∃ path ∈ paths, ∃ answer, event = .makeDirectory path answer
  refused : ∀ cause, result = .error cause →
    ∃ front path, events = front ++ [.makeDirectory path (.error cause)]

theorem Making.ok {paths : List Path} {events : List Event}
    (h : ∀ event ∈ events, ∃ path ∈ paths, ∃ answer, event = .makeDirectory path answer) :
    Making paths (.ok ()) events :=
  ⟨h, fun _ hresult => nomatch hresult⟩

/-- Directories that are made behind others. -/
theorem Making.append {paths : List Path} {result answer : Except FileFault Unit}
    {events later : List Event} (h : Making paths answer events) (h' : Making paths result later) :
    Making paths result (events ++ later) where
  only := List.forall_mem_append.mpr ⟨h.only, h'.only⟩
  refused cause hcause := by
    obtain ⟨front, path, rfl⟩ := h'.refused cause hcause
    exact ⟨events ++ front, path, (List.append_assoc _ _ _).symm⟩

theorem Making.cons {paths : List Path} {result : Except FileFault Unit} {events : List Event}
    (h : Making paths result events) (path : Path) : Making (path :: paths) result events where
  only event hevent := by
    obtain ⟨found, hfound, hmade⟩ := h.only event hevent
    exact ⟨found, .tail path hfound, hmade⟩
  refused := h.refused

theorem Making.single {paths : List Path} {path : Path} (h : path ∈ paths)
    (answer : Except FileFault Unit) : Making paths answer [.makeDirectory path answer] where
  only event hevent := by
    obtain rfl := List.mem_singleton.mp hevent
    exact ⟨path, h, answer, rfl⟩
  refused cause hcause := by
    subst hcause
    exact ⟨[], path, rfl⟩

include keeps

/-- A refusal is put up with where a directory stands, which is asked without a trace. -/
theorem notes_excused {paths : List Path} {path : Path} {fault : FileFault} {events : List Event}
    (h : Making paths (.error fault) events) :
    Notes part (do return if ← world.traced.isDirectory path then .ok () else .error fault)
      (do return if ← world.isDirectory path then .ok () else .error fault)
      fun result rest => Making paths result (events ++ rest) := by
  refine (World.notes_question (fun _ => []) (keeps.isDirectory path)).bind ?_
  rintro stands _ rfl
  refine .pure ?_
  rw [List.append_nil, List.append_nil]
  cases stands with
  | true => exact .ok h.only
  | false => exact h

/-- Only directories are made, each of them one of those that are asked for, and what fails is the
last of these calls. -/
theorem notes_makeAll (paths : List Path) :
    Notes part (makeAll world.traced paths) (makeAll world paths) (Making paths) := by
  induction paths with
  | nil => exact .pure (.ok fun _ h => nomatch h)
  | cons path parents ih =>
    have made : Notes part (world.traced.makeDirectory path) (world.makeDirectory path)
        (Making (path :: parents)) := by
      refine (World.notes_change fun _ => rfl).mono ?_
      rintro answer _ rfl
      exact .single List.mem_cons_self answer
    unfold makeAll
    split
    · exact .pure (.ok fun _ h => nomatch h)
    refine made.bind fun answer events hmade => ?_
    split
    · refine .pure ?_
      rw [List.append_nil]
      exact hmade
    · refine ih.bind fun answer above habove => ?_
      cases answer with
      | error fault =>
        refine .pure ?_
        rw [List.append_nil]
        exact hmade.append (habove.cons path)
      | ok _ =>
        refine made.bind fun answer last hlast => ?_
        have hall := (hmade.append (habove.cons path)).append hlast
        simp only [← List.append_assoc]
        cases answer with
        | ok _ =>
          refine .pure ?_
          rw [List.append_nil]
          exact hall
        | error fault => exact notes_excused keeps hall
    · exact notes_excused keeps hmade

/-- To write a file is no question. -/
theorem notes_writeFile (path : Path) (text : String) :
    Notes part (writeFile world.traced path text) (writeFile world path text)
      fun _ events => ∀ event ∈ events, event.fault? = none := by
  have made : Notes part (makeAll world.traced path.parents) (makeAll world path.parents)
      fun _ events => ∀ event ∈ events, event.fault? = none := by
    refine (notes_makeAll keeps path.parents).mono fun _ events h event hevent => ?_
    obtain ⟨found, -, answer, rfl⟩ := h.only event hevent
    rfl
  refine made.bindAll fun answer => ?_
  cases answer with
  | error fault => exact .pure fun _ h => nomatch h
  | ok _ =>
    refine (World.notes_change fun _ => rfl).mono ?_
    rintro answer _ rfl
    simp [Event.fault?]

end Output

/-! ## Reports -/

section Reports

variable {directory : Path} {records : List Record} {summary : Summary}

/-- What comes of writing the files of a report, after the events of making its directory: both files
are written, one after the other, or the last call that is made is refused. -/
inductive Writing (directory : Path) (records : List Record) (summary : Summary) :
    Except FileFault Unit → (made written : List Event) → Prop
  | both {made : List Event} : Writing directory records summary (.ok ()) made
      [.write (readable directory) (Report.Markdown.render records summary) (.ok ()),
        .write (numbers directory) (document records summary).render (.ok ())]
  | second {made : List Event} {cause : FileFault} :
      Writing directory records summary (.error cause) made
        [.write (readable directory) (Report.Markdown.render records summary) (.ok ()),
          .write (numbers directory) (document records summary).render (.error cause)]
  | first {made : List Event} {cause : FileFault} :
      Writing directory records summary (.error cause) made
        [.write (readable directory) (Report.Markdown.render records summary) (.error cause)]
  | none {front : List Event} {path : Path} {cause : FileFault} :
      Writing directory records summary (.error cause)
        (front ++ [.makeDirectory path (.error cause)]) []

theorem Writing.exists_write {result : Except FileFault Unit} {made written : List Event}
    (h : Writing directory records summary result made written) {event : Event}
    (hevent : event ∈ written) : ∃ path text answer, event = .write path text answer := by
  cases h with
  | none => cases hevent
  | first =>
    obtain rfl := List.mem_singleton.mp hevent
    exact ⟨_, _, _, rfl⟩
  | both => obtain rfl | rfl := List.mem_pair.mp hevent <;> exact ⟨_, _, _, rfl⟩
  | second => obtain rfl | rfl := List.mem_pair.mp hevent <;> exact ⟨_, _, _, rfl⟩

/-- The events of a report: directories are made on the way to it, and then its files are written. -/
structure Reporting (directory : Path) (records : List Record) (summary : Summary)
    (result : Except FileFault Unit) (made written : List Event) : Prop where
  only : ∀ event ∈ made, ∃ path ∈ directory :: directory.parents, ∃ answer,
    event = .makeDirectory path answer
  writing : Writing directory records summary result made written

theorem notes_writeReport (keeps : world.Keeps part) (directory : Path) (records : List Record)
    (summary : Summary) :
    Notes part (writeReport world.traced directory records summary)
      (writeReport world directory records summary)
      fun result events => ∃ made written, events = made ++ written ∧
        Reporting directory records summary result made written := by
  refine (notes_makeAll keeps _).bind fun answer made hmade => ?_
  cases answer with
  | error cause =>
    obtain ⟨front, path, rfl⟩ := hmade.refused cause rfl
    exact .pure ⟨_, [], rfl, hmade.only, .none⟩
  | ok _ =>
    refine (World.notes_change fun _ => rfl).bind ?_
    rintro answer _ rfl
    cases answer with
    | error cause => exact .pure ⟨made, _, rfl, hmade.only, .first⟩
    | ok _ =>
      refine (World.notes_change fun _ => rfl).mono ?_
      rintro answer _ rfl
      cases answer with
      | error cause => exact ⟨made, _, rfl, hmade.only, .second⟩
      | ok _ => exact ⟨made, _, rfl, hmade.only, .both⟩

end Reports

/-! ## Commands -/

/-- What a command is to scan, if it scans. -/
def scanRequest? : Command → Option ScanRequest
  | .analyze request _ _ => some request
  | .report request _ => some request
  | .schema => none

/-- What a command puts on the screen before it scans. -/
def announce (world : World (StateM s)) : Command → StateM s Unit
  | .analyze request .table _ => world.print s!"Analyzing code in: {request.root.toText}\n"
  | .report request _ => world.print s!"Generating report for: {request.root.toText}\n"
  | _ => pure ()

/-- What a command does with the results of its scan. -/
def deliver (world : World (StateM s)) (command : Command) (records : List Record)
    (summary : Summary) : StateM s (Except Failure Unit) :=
  match command with
  | .analyze _ format (some path) => do
    return ofOutput (← writeFile world path (closed (render format records summary)))
  | .analyze _ format none => do
    world.print (closed (render format records summary))
    return .ok ()
  | .report _ directory => do
    match ← writeReport world directory records summary with
    | .error fault => return .error (.output fault)
    | .ok () => do
      world.print s!"Output directory: {directory.toText}\n"
      world.print s!"Report generation completed ({records.length} files).\n"
      return .ok ()
  | .schema => return .ok ()

section Commands

variable {schedule : Collection.Schedule} {fuel : Nat} {command : Command} {request : ScanRequest}

/-- A command that scans announces it, scans, and delivers what is found. -/
theorem run_eq (hrequest : command.scanRequest? = some request) :
    run world schedule fuel command = (do
      announce world command
      match ← scan world schedule fuel request with
      | .error failure => return .error failure
      | .ok (records, summary) => deliver world command records summary) := by
  cases command with
  | analyze _ format output =>
    cases hrequest
    cases format <;> cases output <;> rfl
  | report _ directory =>
    cases hrequest
    rfl
  | schema => cases hrequest

variable (keeps : world.Keeps part)

include keeps

theorem notes_announce (command : Command) :
    Notes part (announce world.traced command) (announce world command)
      fun _ events => events = [] := by
  cases command with
  | analyze request format output =>
    cases format with
    | table => exact World.notes_question (fun _ => []) (keeps.print _)
    | json => exact .pure rfl
    | markdown => exact .pure rfl
  | report request directory => exact World.notes_question (fun _ => []) (keeps.print _)
  | schema => exact .pure rfl

/-- A report ends as its output does. -/
theorem notes_report (request : ScanRequest) (directory : Path) (records : List Record)
    (summary : Summary) :
    Notes part (deliver world.traced (.report request directory) records summary)
      (deliver world (.report request directory) records summary)
      fun result events => ∃ output made written, events = made ++ written ∧
        result = ofOutput output ∧ Reporting directory records summary output made written := by
  refine (notes_writeReport keeps directory records summary).bind ?_
  rintro answer events ⟨made, written, rfl, hreporting⟩
  cases answer with
  | error cause =>
    refine .pure ⟨_, made, written, ?_, rfl, hreporting⟩
    rw [List.append_nil]
  | ok _ =>
    refine (World.notes_question (fun _ => []) (keeps.print _)).bind ?_
    rintro _ _ rfl
    refine (World.notes_question (fun _ => []) (keeps.print _)).bind ?_
    rintro _ _ rfl
    refine .pure ⟨_, made, written, ?_, rfl, hreporting⟩
    rw [List.append_nil, List.append_nil, List.append_nil]

/-- No question that can fail is left when the scan is over. -/
theorem notes_deliver (command : Command) (records : List Record) (summary : Summary) :
    Notes part (deliver world.traced command records summary)
      (deliver world command records summary)
      fun _ events => ∀ event ∈ events, event.fault? = none := by
  have done : ∀ result : Except Failure Unit, Notes part (pure result) (pure result)
      fun _ events => ∀ event ∈ events, event.fault? = none :=
    fun result => .pure fun _ h => nomatch h
  match command with
  | .analyze _ format (some path) =>
    exact (notes_writeFile keeps path _).bindAll fun answer => done _
  | .analyze _ format none =>
    refine (World.notes_question (fun _ => []) (keeps.print _)).bind ?_
    rintro _ _ rfl
    exact done _
  | .report request directory =>
    refine (notes_report keeps request directory records summary).mono ?_
    rintro _ _ ⟨output, made, written, rfl, -, hreporting⟩
    refine List.forall_mem_append.mpr ⟨fun event hevent => ?_, fun event hevent => ?_⟩
    · obtain ⟨path, -, answer, rfl⟩ := hreporting.only event hevent
      rfl
    · obtain ⟨path, text, answer, rfl⟩ := hreporting.writing.exists_write hevent
      rfl
  | .schema => exact done _

/-- If a question fails, the command ends with that fault and nothing is changed. -/
theorem notes_run (hrequest : command.scanRequest? = some request) :
    Notes part (run world.traced schedule fuel command) (run world schedule fuel command)
      fun result events => ∀ fault ∈ events.filterMap Event.fault?,
        result = .error (.scan fault) ∧ ∀ event ∈ events, event.isChange = false := by
  rw [run_eq hrequest, run_eq hrequest]
  refine (notes_announce keeps command).bind ?_
  rintro _ _ rfl
  refine (notes_scan keeps schedule fuel request).bind ?_
  rintro result events ⟨hunchanged, hfaults⟩
  dsimp only [List.nil_append]
  cases result with
  | error failure =>
    refine .pure fun fault hfault => ?_
    rw [List.append_nil] at hfault ⊢
    cases hfaults fault hfault
    exact ⟨rfl, hunchanged⟩
  | ok found =>
    -- the scan has succeeded, so none of its questions has failed
    refine (notes_deliver keeps command _ _).mono fun result rest hrest fault hfault => ?_
    rw [List.filterMap_append, List.filterMap_eq_nil_iff.mpr hrest, List.append_nil] at hfault
    cases hfaults fault hfault

end Commands

end Command

end SourceMetrics
