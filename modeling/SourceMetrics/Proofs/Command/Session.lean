import SourceMetrics.Command.Run
import SourceMetrics.Proofs.Collection.Order
import SourceMetrics.Proofs.FileTree.Listing

/-! # Commands in a session

What a command asks of a session and what it changes in it.

* `records?_files`: a scan asks only. It finds what it would find in the tree of the session, and
  leaves the session as it is.
* `makes_of_makeAll`: the directories that are made; `makeAll_of_stands`: none is made twice.
* `reports_of_reportInto`: what a report that succeeds has found and written.
* `reportInto_again`: where a report has been written another one can be, and the same one changes
  nothing.
* `treeWith`: a tree with a script in it. -/

namespace SourceMetrics.Command

set_option autoImplicit false

open Delivery (bind_state)

/-! ## Scans -/

section Scans

theorem answers_files (session : Session) :
    Delivery.Answers Session.files session.tree.view (· = session) where
  isFile _ _ h := by
    subst h
    exact ⟨rfl, rfl⟩
  list _ _ h := by
    subst h
    exact ⟨rfl, rfl⟩
  read _ _ h := by
    subst h
    exact ⟨rfl, rfl⟩

theorem step_files (filter : Filter) (walk : Walk) (session : Session) :
    Walk.step Session.files filter walk session =
      (Walk.step session.tree.view filter walk, session) :=
  Prod.ext_iff.mpr (Delivery.step_answers (answers_files session) walk rfl)

theorem gather_files (filter : Filter) (fuel : Nat) (gathered : List SourceFile) (walk : Walk)
    (session : Session) :
    Collection.gather (Walk.step Session.files filter) fuel gathered walk session =
      (Collection.gather (m := Id) (Walk.step session.tree.view filter) fuel gathered walk,
        session) := by
  induction fuel generalizing gathered walk with
  | zero => rfl
  | succ fuel ih =>
    have hstep := step_files filter walk session
    obtain ⟨⟨outcome, later⟩, hs⟩ : ∃ found, Walk.step session.tree.view filter walk = found :=
      ⟨_, rfl⟩
    rw [hs] at hstep
    simp only [Collection.gather, bind, StateT.bind, hstep, hs]
    cases outcome with
    | quiet => exact ih gathered later
    | finished => rfl
    | item found =>
      cases found with
      | error fault => rfl
      | ok file => exact ih (gathered ++ [file]) later

/-- A scan of a session finds what it would find in its tree. -/
theorem records?_files (filter : Filter) (schedule : Collection.Schedule) (width fuel : Nat)
    (root : Path) (session : Session) :
    Collection.records? Session.files filter schedule width fuel root session =
      (Collection.records? session.tree.view filter schedule width fuel root, session) := by
  simp only [Collection.records?, bind, StateT.bind, gather_files]
  rfl

theorem scan_eq_ok_iff {schedule : Collection.Schedule} {fuel : Nat} {request : ScanRequest}
    {records : List Record} {summary : Summary} {session later : Session} :
    scan Session.world schedule fuel request session = (.ok (records, summary), later) ↔
      later = session ∧ ∃ settings,
        Settings.ofPatterns request.included request.excluded (some request.limit) = .ok settings ∧
        Collection.records? session.tree.view settings.filter schedule request.width fuel
          request.root = some (.ok records) ∧
        summary = .ofRecords records settings.limit := by
  unfold scan
  constructor
  · intro h
    cases hsettings :
      Settings.ofPatterns request.included request.excluded (some request.limit) with
    | error fault =>
      rw [hsettings] at h
      cases h
    | ok settings =>
      rw [hsettings] at h
      simp only [bind, StateT.bind, Session.world, records?_files] at h
      cases hfound : Collection.records? session.tree.view settings.filter schedule request.width
        fuel request.root with
      | none =>
        rw [hfound] at h
        cases h
      | some found =>
        rw [hfound] at h
        cases found with
        | error fault => cases h
        | ok records =>
          cases h
          exact ⟨rfl, settings, rfl, hfound, rfl⟩
  · rintro ⟨rfl, settings, hsettings, hfound, rfl⟩
    rw [hsettings]
    simp only [bind, StateT.bind, Session.world, records?_files, hfound]
    rfl

end Scans

/-! ## Directories -/

section Directories

variable {session later : Session} {path : Path}

theorem makeDirectory_session (path : Path) (session : Session) :
    Session.world.makeDirectory path session =
      match session.tree.makeDirectory path with
      | .ok tree => (.ok (), { session with tree })
      | .error fault => (.error fault, session) :=
  rfl

theorem write_session (path : Path) (text : String) (session : Session) :
    Session.world.write path text session =
      match session.tree.write path (Utf8.encode text.toList) with
      | .ok tree => (.ok (), { session with tree })
      | .error fault => (.error fault, session) :=
  rfl

/-- A fault is put up with where a directory stands. -/
theorem excused {fault : FileFault} (h : (do
      return if ← Session.world.isDirectory path then .ok () else .error fault :
        StateM Session (Except FileFault Unit)) session = (.ok (), later)) :
    later = session ∧ session.tree.isDirectory path = true := by
  change (if session.tree.isDirectory path = true then _ else _, session) = _ at h
  split at h
  · rename_i hdirectory
    cases h
    exact ⟨rfl, hdirectory⟩
  · cases h

/-- A directory stands at the end of a path, or the path is empty and there is none to make. -/
def Stands (tree : FileTree) (path : Path) : Prop :=
  path.bytes.isEmpty = true ∨ tree.isDirectory path = true

theorem Stands.grows {before after : FileTree} (formed : before.WellFormed)
    (hgrows : FileTree.Grows before after) (h : Stands before path) : Stands after path := by
  obtain hempty | hdirectory := h
  · exact .inl hempty
  · obtain ⟨number, hlocate⟩ := FileTree.isDirectory_iff.mp hdirectory
    exact .inr (FileTree.isDirectory_iff.mpr
      ⟨number, FileTree.locate_grows formed hgrows hlocate .directory⟩)

/-- Making directories turns one tree into another. -/
inductive Makes : FileTree → List Path → FileTree → Prop
  | nil {tree : FileTree} : Makes tree [] tree
  | stands {tree : FileTree} {path : Path} {parents : List Path} :
      Stands tree path → Makes tree (path :: parents) tree
  | made {tree after : FileTree} {path : Path} {parents : List Path} :
      tree.makeDirectory path = .ok after → Makes tree (path :: parents) after
  | behind {tree between after : FileTree} {path : Path} {parents : List Path} :
      Makes tree parents between → Makes between [path] after → Makes tree (path :: parents) after

theorem makes_of_makeAll {paths : List Path}
    (h : makeAll Session.world paths session = (.ok (), later)) :
    Makes session.tree paths later.tree := by
  induction paths generalizing later with
  | nil =>
    cases h
    exact .nil
  | cons path parents ih =>
    by_cases hempty : path.bytes.isEmpty = true
    · simp only [makeAll, if_pos hempty] at h
      cases h
      exact .stands (.inl hempty)
    rw [makeAll, if_neg hempty, bind_state] at h
    cases hmake : session.tree.makeDirectory path with
    | ok after =>
      rw [makeDirectory_session, hmake] at h
      cases h
      exact .made hmake
    | error fault =>
      rw [makeDirectory_session, hmake] at h
      cases fault with
      | notFound =>
        dsimp only at h
        obtain ⟨⟨answer, between⟩, hbehind⟩ :
          ∃ found, makeAll Session.world parents session = found := ⟨_, rfl⟩
        rw [bind_state, hbehind] at h
        cases answer with
        | error _ => cases h
        | ok _ =>
          refine .behind (ih hbehind) ?_
          dsimp only at h
          rw [bind_state] at h
          cases hlast : between.tree.makeDirectory path with
          | ok after =>
            rw [makeDirectory_session, hlast] at h
            cases h
            exact .made hlast
          | error _ =>
            rw [makeDirectory_session, hlast] at h
            obtain ⟨rfl, hdirectory⟩ := excused h
            exact .stands (.inr hdirectory)
      | _ =>
        obtain ⟨rfl, hdirectory⟩ := excused h
        exact .stands (.inr hdirectory)

/-- What directories are made in stays well-formed and grows, nothing else in it is new, and the first
of them stands in it. -/
theorem Makes.spec {paths : List Path} {tree after : FileTree} (h : Makes tree paths after)
    (formed : tree.WellFormed) : after.WellFormed ∧ FileTree.Grows tree after ∧
      FileTree.Adds [] tree after ∧ ∀ path ∈ paths.head?, Stands after path := by
  induction h with
  | nil => exact ⟨formed, .refl _, .refl _, fun _ hpath => nomatch hpath⟩
  | stands hstands =>
    refine ⟨formed, .refl _, .refl _, fun path hpath => ?_⟩
    cases hpath
    exact hstands
  | made hmade =>
    obtain ⟨hafter, hgrows, hdirectory⟩ := FileTree.makeDirectory_grows formed hmade
    refine ⟨hafter, hgrows, FileTree.adds_makeDirectory formed hmade, fun path hpath => ?_⟩
    cases hpath
    exact .inr hdirectory
  | behind _ _ ih ihLast =>
    obtain ⟨hbetween, hgrows, hadds, -⟩ := ih formed
    obtain ⟨hafter, hgrows', hadds', hstands⟩ := ihLast hbetween
    exact ⟨hafter, hgrows.trans hgrows', hadds.trans hbetween hgrows hgrows' hadds', hstands⟩

/-- Where the first of the directories stands none is made. -/
theorem makeAll_of_stands {parents : List Path} (h : Stands session.tree path) :
    makeAll Session.world (path :: parents) session = (.ok (), session) := by
  by_cases hempty : path.bytes.isEmpty = true
  · simp only [makeAll, if_pos hempty]
    rfl
  · obtain ⟨number, hlocate⟩ := FileTree.isDirectory_iff.mp (h.resolve_left hempty)
    have hasked : Session.world.isDirectory path session = (true, session) :=
      congrArg (fun answer => (answer, session)) (h.resolve_left hempty)
    rw [makeAll, if_neg hempty, bind_state, makeDirectory_session,
      FileTree.makeDirectory_of_directory hlocate]
    dsimp only
    rw [bind_state, hasked]
    rfl

end Directories

/-! ## Reports -/

section Reports

variable {directory : Path} {records : List Record} {summary : Summary}

/-- The file of a report that is to be read. -/
abbrev readable (directory : Path) : Path := directory.join (Path.ofText "report.md").bytes

/-- The file of a report with its numbers. -/
abbrev numbers (directory : Path) : Path := directory.join (Path.ofText "metrics.json").bytes

/-- A report turns one tree into another: its directory is made and its two files are written. -/
def Reports (before : FileTree) (directory : Path) (records : List Record) (summary : Summary)
    (after : FileTree) : Prop :=
  ∃ made between, Makes before (directory :: directory.parents) made ∧
    made.write (readable directory)
      (Utf8.encode (Report.Markdown.render records summary).toList) = .ok between ∧
    between.write (numbers directory) (Utf8.encode (document records summary).render.toList) =
      .ok after

theorem reports_of_writeReport {session later : Session}
    (h : writeReport Session.world directory records summary session = (.ok (), later)) :
    Reports session.tree directory records summary later.tree := by
  rw [writeReport, bind_state] at h
  obtain ⟨⟨answer, made⟩, hmake⟩ :
    ∃ found, makeAll Session.world (directory :: directory.parents) session = found := ⟨_, rfl⟩
  rw [hmake] at h
  cases answer with
  | error _ => cases h
  | ok _ =>
    dsimp only at h
    rw [bind_state, write_session] at h
    cases hfirst : made.tree.write (readable directory)
      (Utf8.encode (Report.Markdown.render records summary).toList) with
    | error _ =>
      rw [hfirst] at h
      cases h
    | ok between =>
      rw [hfirst] at h
      dsimp only at h
      rw [write_session] at h
      cases hlast : between.write (numbers directory)
        (Utf8.encode (document records summary).render.toList) with
      | error _ =>
        rw [hlast] at h
        cases h
      | ok after =>
        rw [hlast] at h
        cases h
        exact ⟨made.tree, between, makes_of_makeAll hmake, hfirst, hlast⟩

theorem Reports.grows {before after : FileTree} (formed : before.WellFormed)
    (h : Reports before directory records summary after) :
    after.WellFormed ∧ FileTree.Grows before after := by
  obtain ⟨made, between, hmakes, hfirst, hlast⟩ := h
  obtain ⟨formedMade, hmade, -⟩ := hmakes.spec formed
  obtain ⟨formedBetween, hbetween⟩ := FileTree.write_grows formedMade hfirst
  obtain ⟨formedAfter, hafter⟩ := FileTree.write_grows formedBetween hlast
  exact ⟨formedAfter, (hmade.trans hbetween).trans hafter⟩

/-- A report adds directories and its two files. -/
theorem Reports.adds {before after : FileTree} (formed : before.WellFormed)
    (h : Reports before directory records summary after) :
    FileTree.Adds [readable directory, numbers directory] before after := by
  obtain ⟨made, between, hmakes, hfirst, hlast⟩ := h
  obtain ⟨formedMade, hmade, haddsMade, -⟩ := hmakes.spec formed
  obtain ⟨formedBetween, hbetween⟩ := FileTree.write_grows formedMade hfirst
  obtain ⟨-, hafter⟩ := FileTree.write_grows formedBetween hlast
  have haddsBetween := haddsMade.trans formedMade hmade hbetween
    (FileTree.adds_write formedMade hfirst)
  exact haddsBetween.trans formedBetween (hmade.trans hbetween) hafter
    (FileTree.adds_write formedBetween hlast)

/-- The numbers of a report are read back. -/
theorem Reports.read_numbers {before after : FileTree} (formed : before.WellFormed)
    (h : Reports before directory records summary after) :
    after.read (numbers directory) = .ok (document records summary).render := by
  obtain ⟨made, between, hmakes, hfirst, hlast⟩ := h
  obtain ⟨formedMade, -⟩ := hmakes.spec formed
  obtain ⟨formedBetween, -⟩ := FileTree.write_grows formedMade hfirst
  exact FileTree.read_write formedBetween hlast

/-- Where a report has been written another one can be written, and the same one once more changes
nothing. -/
theorem Reports.again {before : FileTree} {session : Session} (formed : before.WellFormed)
    (h : Reports before directory records summary session.tree) (found : List Record)
    (total : Summary) :
    ∃ later, writeReport Session.world directory found total session = (.ok (), later) ∧
      Reports session.tree directory found total later.tree ∧
      (found = records → total = summary → later.tree = session.tree) := by
  obtain ⟨made, between, hmakes, hfirst, hlast⟩ := h
  obtain ⟨formedMade, -, -, hstands⟩ := hmakes.spec formed
  obtain ⟨formedBetween, hbetween⟩ := FileTree.write_grows formedMade hfirst
  obtain ⟨-, hafter⟩ := FileTree.write_grows formedBetween hlast
  have hdirectory := (hstands directory rfl).grows formedMade (hbetween.trans hafter)
  obtain ⟨middle, later, hfirst', hlast', hsame⟩ := FileTree.writes_again formedMade hfirst hlast
    (Utf8.encode (Report.Markdown.render found total).toList)
    (Utf8.encode (document found total).render.toList)
  refine ⟨{ session with tree := later }, ?_, ⟨session.tree, middle, .stands hdirectory, hfirst',
    hlast'⟩, ?_⟩
  · rw [writeReport, bind_state, makeAll_of_stands hdirectory]
    dsimp only
    rw [bind_state, write_session, hfirst']
    dsimp only
    rw [write_session, hlast']
  · rintro rfl rfl
    exact hsame rfl rfl

/-- What a report that succeeds has found and written. -/
theorem reports_of_reportInto {schedule : Collection.Schedule} {fuel : Nat} {request : ScanRequest}
    {session later : Session}
    (h : reportInto Session.world schedule fuel request directory session = (.ok (), later)) :
    ∃ settings records,
      Settings.ofPatterns request.included request.excluded (some request.limit) = .ok settings ∧
      Collection.records? session.tree.view settings.filter schedule request.width fuel
        request.root = some (.ok records) ∧
      Reports session.tree directory records (.ofRecords records settings.limit) later.tree := by
  rw [reportInto, bind_state, bind_state] at h
  generalize hshown : (Session.world.print _ session).2 = shown at h
  have htree : shown.tree = session.tree := by
    rw [← hshown]
    rfl
  obtain ⟨⟨answer, between⟩, hscan⟩ :
    ∃ found, scan Session.world schedule fuel request shown = found := ⟨_, rfl⟩
  rw [hscan] at h
  cases answer with
  | error _ => cases h
  | ok found =>
    obtain ⟨records, summary⟩ := found
    obtain ⟨rfl, settings, hsettings, hfound, rfl⟩ := scan_eq_ok_iff.mp hscan
    dsimp only at h
    rw [bind_state] at h
    obtain ⟨⟨answer, written⟩, hwrite⟩ : ∃ result, writeReport Session.world directory records
      (.ofRecords records settings.limit) between = result := ⟨_, rfl⟩
    rw [hwrite] at h
    cases answer with
    | error _ => cases h
    | ok _ =>
      cases h
      rw [htree] at hfound
      have hreports := reports_of_writeReport hwrite
      rw [htree] at hreports
      exact ⟨settings, records, hsettings, hfound, hreports⟩

/-- Where a report has been written another one succeeds if its scan does, and one that finds the
same leaves the tree as it is. -/
theorem reportInto_again {schedule : Collection.Schedule} {fuel : Nat} {request : ScanRequest}
    {before : FileTree} {found : List Record} {settings : Settings} {session : Session}
    (formed : before.WellFormed)
    (h : Reports before directory records (.ofRecords records settings.limit) session.tree)
    (hsettings :
      Settings.ofPatterns request.included request.excluded (some request.limit) = .ok settings)
    (hfound : Collection.records? session.tree.view settings.filter schedule request.width fuel
      request.root = some (.ok found)) :
    ∃ later, reportInto Session.world schedule fuel request directory session = (.ok (), later) ∧
      Reports session.tree directory found (.ofRecords found settings.limit) later.tree ∧
      (found = records → later.tree = session.tree) := by
  rw [reportInto, bind_state, bind_state]
  generalize hshown : (Session.world.print _ session).2 = shown
  have htree : shown.tree = session.tree := by
    rw [← hshown]
    rfl
  rw [← htree] at hfound h ⊢
  obtain ⟨later, hwrite, hreports, hsame⟩ :=
    h.again formed found (.ofRecords found settings.limit)
  rw [scan_eq_ok_iff.mpr ⟨rfl, settings, hsettings, hfound, rfl⟩]
  dsimp only
  rw [bind_state, hwrite]
  refine ⟨_, rfl, hreports, ?_⟩
  rintro rfl
  exact hsame rfl rfl

end Reports

/-! ## A tree with a script -/

/-- A tree with a script in a directory with the given name. -/
def treeWith (name : String) : FileTree :=
  ⟨#[⟨0, [((Path.ofText name).bytes, .directory 1)]⟩,
    ⟨0, [((Path.ofText "a.js").bytes, .file (Utf8.encode "let a = 1;\n".toList))]⟩], 0⟩

/-- A tree with a script in a directory of its own. -/
def scriptTree : FileTree := treeWith "src"

theorem wellFormed_treeWith {name : String} {between : FileTree}
    (hmake : FileTree.empty.makeDirectory (.ofText name) = .ok between)
    (hwrite : between.write ((Path.ofText name).join (Path.ofText "a.js").bytes)
      (Utf8.encode "let a = 1;\n".toList) = .ok (treeWith name)) : (treeWith name).WellFormed := by
  obtain ⟨hbetween, -⟩ := FileTree.makeDirectory_grows FileTree.wellFormed_empty hmake
  exact (FileTree.write_grows hbetween hwrite).1

end SourceMetrics.Command
