import SourceMetrics.Proofs.Command.Session
import SourceMetrics.Proofs.Walk.Sight

/-! # Reports that are made twice

A report changes the tree that it is about, so a second one may find what the first one has
written. With the standard patterns it does so where the walk has a file of the report in its sight.

* `report_again_of_unselected`: where it does not, the second report changes nothing.
* `standardRequest`, `report_again`: when it does and when it does not, with the standard patterns.
* `files_of_render`: reports about different numbers of files are different.
* `report_inside_changed`: the standard patterns take up `metrics.json`, so a report that is written
  below its root finds one file more the second time. -/

namespace SourceMetrics.Command

set_option autoImplicit false

/-! ## Reports that do not find each other -/

section Again

variable {schedule later : Collection.Schedule} {directory : Path} {fuel : Nat}
  {session first : Session} {settings : Settings}

/-- A report that is made twice is the same where no file that it writes is taken up itself. -/
theorem report_again_of_unselected
    (permutes : ∀ width arrivals, (schedule width arrivals).Perm arrivals)
    (permutesLater : ∀ width arrivals, (later width arrivals).Perm arrivals)
    {request : ScanRequest} (formed : session.tree.WellFormed)
    (hsettings :
      Settings.ofPatterns request.included request.excluded (some request.limit) = .ok settings)
    (hfirst : reportInto Session.world schedule fuel request directory session = (.ok (), first))
    (unselected : Walk.Unselected [readable directory, numbers directory] first.tree settings.filter
      request.root) :
    ∃ bound, ∀ enough, bound ≤ enough → ∃ second,
      reportInto Session.world later enough request directory first = (.ok (), second) ∧
        second.tree = first.tree := by
  obtain ⟨_, records, hsettings', hfound, hreports⟩ := reports_of_reportInto hfirst
  cases hsettings.symm.trans hsettings'
  obtain ⟨formedFirst, hgrows⟩ := hreports.grows formed
  have hacc := FileTree.acc_view formed settings.filter.prunes request.root
  obtain ⟨read, hroot, rfl⟩ := Collection.records?_eq_ok permutes (fun _ => hacc) hfound
  have untouched := Walk.untouched_of_unselected formed formedFirst hgrows (hreports.adds formed)
    hroot (by simp) unselected
  have hagain := Walk.ofRoot_grows formed formedFirst hgrows untouched hroot (by simp)
  obtain ⟨bound, hall⟩ := Collection.records?_of_read permutesLater request.width hagain
  refine ⟨bound, fun enough henough => ?_⟩
  obtain ⟨second, hsecond, -, hsame⟩ :=
    reportInto_again formed hreports hsettings (hall enough henough)
  exact ⟨second, hsecond, hsame rfl⟩

/-- What is to be scanned with the standard patterns. -/
def standardRequest (root : Path) (limit width : Nat) : ScanRequest :=
  ⟨root, none, none, limit, width⟩

/-- **A report with the standard patterns is made again as it is, unless the walk has it in its
sight.** If neither of its two files is in sight, a second report leaves the tree as the first one has
left it. What is in sight is what the walk takes up. A file that stands below the root is in sight
only if its directory is open to the walk, and in an open directory the numbers always are. -/
theorem report_again
    (permutes : ∀ width arrivals, (schedule width arrivals).Perm arrivals)
    (permutesLater : ∀ width arrivals, (later width arrivals).Perm arrivals)
    {root : Path} {limit width : Nat} (formed : session.tree.WellFormed)
    (hsettings : Settings.ofPatterns none none (some limit) = .ok settings)
    (hfirst : reportInto Session.world schedule fuel (standardRequest root limit width) directory
      session = (.ok (), first))
    (fits : Walk.Fits first.tree settings.filter root) :
    ((∀ path ∈ [readable directory, numbers directory], ¬ Walk.InSight first.tree root path) →
      ∃ bound, ∀ enough, bound ≤ enough → ∃ second,
        reportInto Session.world later enough (standardRequest root limit width) directory first =
          (.ok (), second) ∧ second.tree = first.tree) ∧
    (∀ path ∈ [readable directory, numbers directory], Walk.InSight first.tree root path ↔
      ∃ taken, Walk.Takes first.tree.view settings.filter root taken ∧
        first.tree.locate .find taken = first.tree.locate .find path) ∧
    ∀ path ∈ [readable directory, numbers directory], ∀ number name content,
      first.tree.locate .find path = .ok (.file number name content) →
      first.tree.isFile root = false →
      (Walk.InSight first.tree root path → Walk.IsOpen first.tree root number) ∧
      (name = (Path.ofText "metrics.json").bytes → Walk.IsOpen first.tree root number →
        Walk.InSight first.tree root path) := by
  obtain ⟨_, records, hsettings', hfound, hreports⟩ := reports_of_reportInto hfirst
  cases hsettings.symm.trans hsettings'
  obtain ⟨formedFirst, hgrows⟩ := hreports.grows formed
  have hsight : ∀ path, Walk.InSight first.tree root path ↔
      ∃ taken, Walk.Takes first.tree.view settings.filter root taken ∧
        first.tree.locate .find taken = first.tree.locate .find path := by
    intro path
    constructor
    · exact Walk.takes_of_inSight formedFirst hsettings fits
    · rintro ⟨taken, htakes, hsame⟩
      exact Walk.inSight_of_takes formedFirst hsettings fits htakes hsame
  refine ⟨fun hunseen => ?_, fun path _ => hsight path, ?_⟩
  · refine report_again_of_unselected permutes permutesLater formed hsettings hfirst
      ⟨fun taken htakes path hpath hsame => ?_, fits⟩
    exact hunseen path hpath ((hsight path).mpr ⟨taken, htakes, hsame⟩)
  · intro path _ number name content hlocate hroot
    refine ⟨Walk.isOpen_of_inSight hlocate hroot, ?_⟩
    rintro rfl hopen
    exact Walk.inSight_of_isOpen hlocate hopen (by decide) (by decide) (.inr (by decide))

end Again

section Outside

/-- What is to be scanned where nothing but the root is given. -/
def requestFor (root : String) : ScanRequest :=
  standardRequest (.ofText root) Settings.standardLimit standardWidth

theorem wellFormed_scriptTree : scriptTree.WellFormed :=
  wellFormed_treeWith (show FileTree.empty.makeDirectory (.ofText "src") =
    .ok ⟨#[⟨0, [((Path.ofText "src").bytes, .directory 1)]⟩, ⟨0, []⟩], 0⟩ by decide +kernel)
    (by decide +kernel)

theorem wellFormed_distTree : (treeWith "dist").WellFormed :=
  wellFormed_treeWith (show FileTree.empty.makeDirectory (.ofText "dist") =
    .ok ⟨#[⟨0, [((Path.ofText "dist").bytes, .directory 1)]⟩, ⟨0, []⟩], 0⟩ by decide +kernel)
    (by decide +kernel)

/-- The paths on a walk fit where there are only files in its root. -/
theorem fits_of_files {tree : FileTree} {filter : Filter} {root : Path} {top : Nat}
    (htop : tree.locate .find root = .ok (.directory top))
    (hfiles : ∀ entry ∈ tree.found top, entry.2 = .file)
    (hlengths : ∀ entry ∈ tree.found top,
      (root.join entry.1).bytes.length ≤ FileTree.pathLimit) :
    Walk.Fits tree filter root := by
  have hview := FileTree.view_list htop
  have hlength := FileTree.length_of_locate htop
  have hreaches : ∀ path, Walk.Reaches tree.view filter.prunes root path → path = root := by
    intro path h
    obtain rfl | ⟨child, ⟨found, hfound, hmem, -⟩, -⟩ := h.cases_head
    · rfl
    · cases hview.symm.trans hfound
      obtain ⟨entry, hentry, heq⟩ := List.mem_map.mp hmem
      cases (hfiles _ (FileTree.mem_sorted hentry)).symm.trans (congrArg Entry.kind heq)
  rintro path (h | h)
  · rw [hreaches path h]
    exact hlength
  · cases h with
    | root _ => exact hlength
    | listed hdirectory hfound hmem _ =>
      rw [hreaches _ hdirectory] at hfound
      cases hview.symm.trans hfound
      obtain ⟨entry, hentry, heq⟩ := List.mem_map.mp hmem
      obtain rfl : root.join entry.1 = path := congrArg Entry.path heq
      exact hlengths _ (FileTree.mem_sorted hentry)

/-- What stands in a directory that is not open is out of sight. -/
theorem not_inSight_of_not_isOpen {tree : FileTree} {root directory : Path} {number : Nat}
    (formed : tree.WellFormed) (hroot : tree.isFile root = false)
    (hlocate : tree.locate .find directory = .ok (.directory number))
    (hfound : ∀ name ∈ [(Path.ofText "report.md").bytes, (Path.ofText "metrics.json").bytes],
      (name, .file) ∈ tree.found number ∧
        (directory.join name).bytes.length ≤ FileTree.pathLimit)
    (hclosed : ¬ Walk.IsOpen tree root number) :
    ∀ path ∈ [readable directory, numbers directory], ¬ Walk.InSight tree root path := by
  have hname : ∀ name ∈ [(Path.ofText "report.md").bytes, (Path.ofText "metrics.json").bytes],
      ¬ Walk.InSight tree root (directory.join name) := by
    intro name hname hsight
    obtain ⟨hmem, hlength⟩ := hfound name hname
    obtain ⟨content, hpath⟩ := FileTree.exists_locate_of_found formed hlocate hmem hlength
    exact hclosed (Walk.isOpen_of_inSight hpath hroot hsight)
  intro path hpath
  obtain rfl | rfl := List.mem_pair.mp hpath
  · exact hname _ List.mem_cons_self
  · exact hname _ (.tail _ List.mem_cons_self)

/-- In the first directory of a tree there are only files, and in some directory there is a report. -/
def HoldsReportIn (tree : FileTree) (root directory : Path) (number : Nat) : Prop :=
  (tree.locate .find root = .ok (.directory 1) ∧ (∀ entry ∈ tree.found 1, entry.2 = .file) ∧
    ∀ entry ∈ tree.found 1, (root.join entry.1).bytes.length ≤ FileTree.pathLimit) ∧
  tree.locate .find directory = .ok (.directory number) ∧
    ∀ name ∈ [(Path.ofText "report.md").bytes, (Path.ofText "metrics.json").bytes],
      (name, .file) ∈ tree.found number ∧ (directory.join name).bytes.length ≤ FileTree.pathLimit

instance (tree : FileTree) (root directory : Path) (number : Nat) :
    Decidable (HoldsReportIn tree root directory number) :=
  inferInstanceAs (Decidable (_ ∧ _))

/-- The first report about a root with a script in it. -/
def firstReport (root directory : String) : Except Failure Unit × Session :=
  reportInto Session.world Collection.inOrder 9 (requestFor root) (.ofText directory)
    ⟨treeWith root, ""⟩

/-- A report about a root with a script in it is made, and each later one leaves the tree as it is. -/
def IsMadeAgain (root directory : String) : Prop :=
  ∃ first, firstReport root directory = (.ok (), first) ∧
    ∃ bound, ∀ enough, bound ≤ enough → ∃ second,
      reportInto Session.world Collection.inOrder enough (requestFor root) (.ofText directory)
        first = (.ok (), second) ∧ second.tree = first.tree

/-- A report into a directory that is not open is made and stays out of sight. -/
theorem exists_unseen {root directory : String} {number : Nat} (formed : (treeWith root).WellFormed)
    (hmade : (firstReport root directory).1 = .ok ())
    (hholds : HoldsReportIn (firstReport root directory).2.tree (.ofText root) (.ofText directory)
      number)
    (hclosed : ¬ Walk.IsOpen (firstReport root directory).2.tree (.ofText root) number)
    (filter : Filter) : ∃ first, firstReport root directory = (.ok (), first) ∧
      Walk.Fits first.tree filter (.ofText root) ∧
      ∀ path ∈ [readable (.ofText directory), numbers (.ofText directory)],
        ¬ Walk.InSight first.tree (.ofText root) path := by
  generalize hresult : firstReport root directory = result at hmade hholds hclosed ⊢
  obtain ⟨answer, first⟩ := result
  obtain rfl : answer = .ok () := hmade
  obtain ⟨⟨htop, hfiles, hlengths⟩, hout, hreport⟩ := hholds
  obtain ⟨_, _, -, -, hreports⟩ := reports_of_reportInto hresult
  exact ⟨first, rfl, fits_of_files htop hfiles hlengths,
    not_inSight_of_not_isOpen (hreports.grows formed).1 (FileTree.isFile_of_directory htop) hout
      hreport hclosed⟩

/-- A report about scripts that is written beside them, and one that is written into a directory that
is excluded, though it is the root. -/
theorem report_again_outside_or_excluded :
    IsMadeAgain "src" "out" ∧ IsMadeAgain "dist" "dist" := by
  have permutes : ∀ width arrivals, (Collection.inOrder width arrivals).Perm arrivals :=
    fun _ _ => .refl _
  obtain ⟨included, excluded, -, -, hsettings⟩ := Settings.exists_standard
  have hstandard := hsettings (some Settings.standardLimit)
  constructor
  · have hrun : (firstReport "src" "out").1 = .ok () ∧
        HoldsReportIn (firstReport "src" "out").2.tree (.ofText "src") (.ofText "out") 2 := by
      decide +kernel
    -- no way leads out of the directory of the scripts
    have hclosed : ¬ Walk.IsOpen (firstReport "src" "out").2.tree (.ofText "src") 2 := by
      rintro ⟨top, names, hroot, hway, -⟩
      cases hrun.2.1.1.symm.trans hroot
      cases hway.eq_top hrun.2.1.2.1
    obtain ⟨first, hfirst, hfits, hunseen⟩ :=
      exists_unseen wellFormed_scriptTree hrun.1 hrun.2 hclosed ⟨included, excluded⟩
    exact ⟨first, hfirst,
      (report_again permutes permutes wellFormed_scriptTree hstandard hfirst hfits).1 hunseen⟩
  · have hrun : (firstReport "dist" "dist").1 = .ok () ∧
        HoldsReportIn (firstReport "dist" "dist").2.tree (.ofText "dist") (.ofText "dist") 1 := by
      decide +kernel
    have hexcluded : Settings.IsExcluded (Path.ofText "dist").enclosing := .inr (by decide +kernel)
    have hclosed : ¬ Walk.IsOpen (firstReport "dist" "dist").2.tree (.ofText "dist") 1 := by
      rintro ⟨top, names, hroot, -, -, hopen⟩
      exact hopen (hexcluded.along (FileTree.ne_nil_of_locate hroot) names)
    obtain ⟨first, hfirst, hfits, hunseen⟩ :=
      exists_unseen wellFormed_distTree hrun.1 hrun.2 hclosed ⟨included, excluded⟩
    exact ⟨first, hfirst,
      (report_again permutes permutes wellFormed_distTree hstandard hfirst hfits).1 hunseen⟩

end Outside

/-! ## Numbers of files -/

section Numbers

/-- What an object is printed with in front of the value of its first member. -/
def front (depth : Nat) (name : String) : List Char :=
  '{' :: Json.newLine depth ++ (Json.quote? (some name) ++ [':', ' '])

theorem text_ofNat (n : Nat) : (Json.Numeral.ofNat n).text = Nat.toDigits 10 n := by
  simp [Json.Numeral.text, Json.Numeral.ofNat]

theorem exists_print_summary (summary : Summary) : ∃ rest,
    Json.print 1 summary.toJson =
      front 2 "files" ++ (Nat.toDigits 10 summary.files ++ ',' :: rest) := by
  obtain ⟨second, members, hmembers⟩ : ∃ second members, summary.toJson =
      .object ((some "files", .ofNat summary.files) :: second :: members) := ⟨_, _, rfl⟩
  refine ⟨Json.newLine 2 ++ Json.printMember 2 second ++ Json.printMembers 2 members ++
    Json.newLine 1 ++ ['}'], ?_⟩
  rw [hmembers, front, Json.print, Json.printMember, Json.printMembers, Json.ofNat, Json.print,
    text_ofNat]
  simp only [List.append_assoc, List.cons_append]

/-- The document of a report starts with the number of its files. -/
theorem exists_render_document (records : List Record) (summary : Summary) : ∃ rest,
    (document records summary).render.toList =
      front 1 "summary" ++ front 2 "files" ++ (Nat.toDigits 10 summary.files ++ ',' :: rest) := by
  obtain ⟨rest, hsummary⟩ := exists_print_summary summary
  refine ⟨rest ++ Json.printMembers 1 [(some "files", Record.listToJson records)] ++
    Json.newLine 0 ++ ['}'], ?_⟩
  rw [Json.render, String.toList_ofList, front]
  show Json.print 0 (.object [(some "summary", summary.toJson),
    (some "files", Record.listToJson records)]) = _
  rw [Json.print, Json.printMember, hsummary]
  simp only [List.append_assoc, List.cons_append]

/-- The numbers of a report tell how many files it is about. -/
theorem files_of_render {records found : List Record} {summary total : Summary}
    (h : (document records summary).render = (document found total).render) :
    summary.files = total.files := by
  have hdigits : ∀ (n : Nat) (rest : List Char),
      Nat.ofDigitChars 10 ((Nat.toDigits 10 n ++ ',' :: rest).takeWhile Char.isDigit) 0 = n := by
    intro n rest
    have hall : ∀ c ∈ Nat.toDigits 10 n, c.isDigit = true :=
      fun c hc => Nat.isDigit_of_mem_toDigits (by decide) (Nat.le_refl _) hc
    rw [List.takeWhile_append_of_pos hall, List.takeWhile_cons_of_neg (by decide), List.append_nil,
      Nat.ofDigitChars_toDigits (by decide) (Nat.le_refl _)]
  obtain ⟨rest, hrecords⟩ := exists_render_document records summary
  obtain ⟨later, hfound⟩ := exists_render_document found total
  rw [h] at hrecords
  have hbehind := List.append_cancel_left (hrecords.symm.trans hfound)
  rw [← hdigits summary.files rest, hbehind, hdigits]

end Numbers

/-! ## Reports that find each other -/

section Inside

/-- What the standard patterns say of the files and directories in question. -/
theorem standard_filter {settings : Settings}
    (h : Settings.ofPatterns none none (some Settings.standardLimit) = .ok settings) :
    settings.filter.prunes standardOutput = false ∧
      settings.filter.prunes (.ofText "./src") = false ∧
      settings.filter.wants (numbers standardOutput) = true ∧
      settings.filter.wants (readable standardOutput) = false ∧
      settings.filter.wants (.ofText "./src/a.js") = true := by
  have hall : (Settings.ofPatterns none none (some Settings.standardLimit)).toOption.all
      (fun settings => !settings.filter.prunes standardOutput &&
        !settings.filter.prunes (.ofText "./src") &&
        settings.filter.wants (numbers standardOutput) &&
        !settings.filter.wants (readable standardOutput) &&
        settings.filter.wants (.ofText "./src/a.js")) = true := by decide +kernel
  rw [h] at hall
  simpa [Except.toOption, Option.all, and_assoc] using hall

/-- The tree of the script with a report in it: what stands in its three directories. -/
def HoldsReport (tree : FileTree) : Prop :=
  (tree.locate .find (.ofText ".") = .ok (.directory 0) ∧ tree.found 0 =
    [((Path.ofText "codemetrics-report").bytes, .directory),
      ((Path.ofText "src").bytes, .directory)]) ∧
  (tree.locate .find standardOutput = .ok (.directory 2) ∧ tree.found 2 =
    [((Path.ofText "metrics.json").bytes, .file), ((Path.ofText "report.md").bytes, .file)]) ∧
  (tree.locate .find (.ofText "./src") = .ok (.directory 1) ∧
    tree.found 1 = [((Path.ofText "a.js").bytes, .file)])

instance (tree : FileTree) : Decidable (HoldsReport tree) :=
  inferInstanceAs (Decidable (_ ∧ _))

variable {tree : FileTree} {settings : Settings}

theorem HoldsReport.lists (h : HoldsReport tree) :
    tree.view.list (.ofText ".") =
        .ok [⟨standardOutput, .directory⟩, ⟨.ofText "./src", .directory⟩] ∧
      tree.view.list standardOutput =
        .ok [⟨numbers standardOutput, .file⟩, ⟨readable standardOutput, .file⟩] ∧
      tree.view.list (.ofText "./src") = .ok [⟨.ofText "./src/a.js", .file⟩] := by
  obtain ⟨⟨hroot, hentries⟩, ⟨hreport, hfiles⟩, ⟨hscripts, hscript⟩⟩ := h
  exact ⟨FileTree.view_list_of_found hroot hentries (by decide) (by decide +kernel),
    FileTree.view_list_of_found hreport hfiles (by decide) (by decide +kernel),
    FileTree.view_list_of_found hscripts hscript (by decide) (by decide +kernel)⟩

/-- The walk takes up the numbers of the report in front of the script. -/
theorem HoldsReport.ofRoot (h : HoldsReport tree)
    (hsettings : Settings.ofPatterns none none (some Settings.standardLimit) = .ok settings)
    {found script : String} (hfound : tree.read (numbers standardOutput) = .ok found)
    (hscript : tree.read (.ofText "./src/a.js") = .ok script) :
    Walk.OfRoot tree.view settings.filter.wants settings.filter.prunes (.ofText ".")
      (List.map .ok [⟨(numbers standardOutput).toText, found⟩,
        ⟨(Path.ofText "./src/a.js").toText, script⟩]) := by
  obtain ⟨hroot, hreport, hscripts⟩ := h.lists
  obtain ⟨hprunes, hprunesScripts, hnumbers, hreadable, hwants⟩ := standard_filter hsettings
  rw [List.map_cons, List.map_singleton, ← Walk.readFile_of_read hfound,
    ← Walk.readFile_of_read hscript]
  exact .listed (FileTree.isFile_of_directory h.1.1) hroot
    (.listed hprunes hreport (.wanted hnumbers (.unwanted hreadable .nil))
      (.listed hprunesScripts hscripts (.wanted hwants .nil) .nil))

theorem HoldsReport.takes_numbers (h : HoldsReport tree)
    (hsettings : Settings.ofPatterns none none (some Settings.standardLimit) = .ok settings) :
    Walk.Takes tree.view settings.filter (.ofText ".") (numbers standardOutput) := by
  obtain ⟨hroot, hreport, -⟩ := h.lists
  obtain ⟨hprunes, -, hnumbers, -, -⟩ := standard_filter hsettings
  exact .listed (.single ⟨_, hroot, List.mem_cons_self, hprunes⟩) hreport List.mem_cons_self
    hnumbers

/-- **A report that is written below its root is changed by the next one.** The standard patterns
take up `metrics.json`, so the second report is about one file more than the first one. -/
theorem report_inside_changed : ∃ fuel settings first second,
    reportInto Session.world Collection.inOrder 9 (requestFor ".") standardOutput ⟨scriptTree, ""⟩ =
      (.ok (), first) ∧
    Settings.ofPatterns none none (some Settings.standardLimit) = .ok settings ∧
    Walk.Takes first.tree.view settings.filter (.ofText ".") (numbers standardOutput) ∧
    reportInto Session.world Collection.inOrder fuel (requestFor ".") standardOutput first =
      (.ok (), second) ∧
    second.tree.read (numbers standardOutput) ≠ first.tree.read (numbers standardOutput) := by
  obtain ⟨result, hresult⟩ : ∃ result, reportInto Session.world Collection.inOrder 9
    (requestFor ".") standardOutput ⟨scriptTree, ""⟩ = result := ⟨_, rfl⟩
  have hrun : result.1 = .ok () ∧ HoldsReport result.2.tree ∧
      result.2.tree.read (.ofText "./src/a.js") = .ok "let a = 1;\n" := by
    subst hresult
    decide +kernel
  have hbefore : scriptTree.isFile (.ofText ".") = false ∧
      scriptTree.list (.ofText ".") = .ok [⟨.ofText "./src", .directory⟩] ∧
      scriptTree.list (.ofText "./src") = .ok [⟨.ofText "./src/a.js", .file⟩] := by
    decide +kernel
  obtain ⟨answer, first⟩ := result
  obtain ⟨rfl, hholds, hscript⟩ := hrun
  obtain ⟨hfile, hroot, hscripts⟩ := hbefore
  have permutes : ∀ width arrivals, (Collection.inOrder width arrivals).Perm arrivals :=
    fun _ _ => .refl _
  obtain ⟨settings, records, hsettings, hfound, hreports⟩ := reports_of_reportInto hresult
  obtain ⟨-, hprunes, -, -, hwants⟩ := standard_filter hsettings
  -- the first report is about the script alone
  obtain ⟨read, hread, hrecords⟩ := Collection.records?_eq_ok permutes
    (fun _ => FileTree.acc_view wellFormed_scriptTree _ _) hfound
  have hone := hread.unique (.listed hfile (FileTree.view_list_of_list hroot)
    (.listed hprunes (FileTree.view_list_of_list hscripts) (.wanted hwants .nil) .nil))
  -- the second one is also about the numbers of the first one
  have hnumbers := hreports.read_numbers wellFormed_scriptTree
  have hitems := hholds.ofRoot hsettings hnumbers hscript
  obtain ⟨fuel, hall⟩ := Collection.records?_of_read permutes (requestFor ".").width hitems
  obtain ⟨second, hsecond, hreports', -⟩ :=
    reportInto_again wellFormed_scriptTree hreports hsettings (hall fuel (Nat.le_refl _))
  refine ⟨fuel, settings, first, second, hresult, hsettings, hholds.takes_numbers hsettings,
    hsecond, fun hsame => ?_⟩
  have hnumbers' := hreports'.read_numbers (hreports.grows wellFormed_scriptTree).1
  have hsame' := Except.ok.inj (hnumbers'.symm.trans (hsame.trans hnumbers))
  have hfiles : 2 = records.length := files_of_render hsame'
  have hlength : 1 = (read.map Except.ok).length := congrArg List.length hone
  rw [hrecords, List.length_map] at hfiles
  rw [List.length_map, ← hfiles] at hlength
  cases hlength

end Inside

end SourceMetrics.Command
