import Mathlib.Logic.Relation
import SourceMetrics.Proofs.FileTree.Listing

/-! # The walk of a grown tree

When a tree has grown, the walk finds what it found before, provided that it takes up no file which
has been written in the meantime.

* `Reaches`, `Takes`: the directories that a walk looks into, and the files that it takes up.
* `Untouched`: the growth of a tree does not concern a walk.
* `preorder_new`: a new directory holds nothing that the walk takes up. The induction is on the
  reading of the grown tree.
* `preorder_grows`: what was read before is read again. The induction is on the first reading; what
  is new stands between the entries that it knows.
* `ofRoot_grows`: the items of a root.
* `Fits`, `Unselected`, `untouched_of_unselected`: a walk that takes up no file which has been written,
  and no path of which is too long, takes up what was there. -/

namespace SourceMetrics.Walk

set_option autoImplicit false

open SourceMetrics.Path (Name)
open FileTree (entryIn sorted)

section Walks

variable (files : FileSystem Id)

/-- The walk looks into a directory. -/
def Reaches (prunes : Path → Bool) (root path : Path) : Prop :=
  Relation.ReflTransGen (fun directory child => Descends files prunes child directory) root path

/-- The walk takes up a file: the root, or a wanted file in a directory that it looks into. -/
inductive Takes (filter : Filter) (root : Path) : Path → Prop
  | root : files.isFile root = true → Takes filter root root
  | listed {directory path : Path} {entries : List Entry} :
      Reaches files filter.prunes root directory → files.list directory = .ok entries →
      ⟨path, .file⟩ ∈ entries → filter.wants path = true → Takes filter root path

end Walks

/-- What the walk of a grown tree takes up has stood there before, with the same content, and the
path of no directory on it is too long to be followed. -/
structure Untouched (before after : FileTree) (filter : Filter) (root : Path) : Prop where
  takes : ∀ path, Takes after.view filter root path →
    before.isFile path = true ∧ before.read path = after.read path
  fits : ∀ path, Reaches after.view filter.prunes root path →
    path.bytes.length ≤ FileTree.pathLimit

section Growth

variable {before after : FileTree} {filter : Filter} {root : Path}

theorem reaches_of_mem {path child : Path} {number : Nat}
    (hreaches : Reaches after.view filter.prunes root path)
    (hlocate : after.locate .find path = .ok (.directory number))
    (hmem : ⟨child, .directory⟩ ∈ (sorted (after.found number)).map (entryIn path))
    (hprunes : filter.prunes child = false) : Reaches after.view filter.prunes root child :=
  hreaches.tail ⟨_, FileTree.view_list hlocate, hmem, hprunes⟩

theorem not_isFile {path : Path}
    (h : ∀ destination, before.locate .find path ≠ .ok destination) :
    before.isFile path ≠ true := by
  intro hfile
  obtain ⟨number, name, content, hlocate⟩ := FileTree.isFile_iff.mp hfile
  exact h _ hlocate

/-- A directory that is listed, and that the walk looks into, is found. -/
theorem exists_locate_of_mem (formed : after.WellFormed) (h : Untouched before after filter root)
    {path child : Path} {number : Nat} (hreaches : Reaches after.view filter.prunes root path)
    (hlocate : after.locate .find path = .ok (.directory number))
    (hmem : ⟨child, .directory⟩ ∈ (sorted (after.found number)).map (entryIn path))
    (hprunes : filter.prunes child = false) :
    ∃ inner, after.locate .find child = .ok (.directory inner) := by
  have hchild := h.fits child (reaches_of_mem hreaches hlocate hmem hprunes)
  obtain ⟨⟨name, kind⟩, hentry, heq⟩ := List.mem_map.mp hmem
  obtain ⟨object, hobject, hkind⟩ := FileTree.exists_of_mem_sorted hentry
  cases heq
  obtain ⟨inner, rfl⟩ := FileTree.Object.eq_directory hkind
  exact ⟨inner, FileTree.locate_entry formed hlocate hobject hchild⟩

/-- An entry of a directory that has not stood there before has not stood there either. -/
theorem not_locate_of_mem (formed : after.WellFormed) {path child : Path} {number : Nat}
    {kind : Entry.Kind} (hlocate : after.locate .find path = .ok (.directory number))
    (hnew : ∀ place, before.locate .find path ≠ .ok (.directory place))
    (hmem : ⟨child, kind⟩ ∈ (sorted (after.found number)).map (entryIn path))
    (destination : FileTree.Destination) : before.locate .find child ≠ .ok destination := by
  intro hchild
  obtain ⟨⟨name, kind⟩, hentry, heq⟩ := List.mem_map.mp hmem
  obtain ⟨object, hobject, -⟩ := FileTree.exists_of_mem_sorted hentry
  cases heq
  obtain ⟨place, -, hplace, -⟩ := FileTree.exists_of_locate_join
    (FileTree.ne_nil_of_locate hlocate) (formed.names _ _ _ hobject).slash hchild
  exact hnew place hplace

/-- In a directory that has not stood there before there is nothing to take up. -/
theorem preorder_new (formed : after.WellFormed) (h : Untouched before after filter root)
    {entries : List Entry} {items : List Item}
    (hpre : Preorder after.view filter.wants filter.prunes entries items) :
    ∀ {path : Path} {number : Nat}, Reaches after.view filter.prunes root path →
      after.locate .find path = .ok (.directory number) →
      (∀ place, before.locate .find path ≠ .ok (.directory place)) →
      (∀ entry ∈ entries, entry ∈ (sorted (after.found number)).map (entryIn path)) →
      items = [] := by
  induction hpre with
  | nil => exact fun _ _ _ _ => rfl
  | wanted hwants _ _ =>
    intro path number hreaches hlocate hnew hlisted
    have hmem := hlisted _ List.mem_cons_self
    have htakes := h.takes _ (.listed hreaches (FileTree.view_list hlocate) hmem hwants)
    exact absurd htakes.1 (not_isFile (not_locate_of_mem formed hlocate hnew hmem))
  | unwanted _ _ ih =>
    exact fun hr hl hn hlisted => ih hr hl hn fun entry he => hlisted entry (.tail _ he)
  | pruned _ _ ih =>
    exact fun hr hl hn hlisted => ih hr hl hn fun entry he => hlisted entry (.tail _ he)
  | unlisted hprunes hlist _ _ =>
    intro path number hreaches hlocate hnew hlisted
    have hmem := hlisted _ List.mem_cons_self
    obtain ⟨inner, hinner⟩ := exists_locate_of_mem formed h hreaches hlocate hmem hprunes
    cases hlist.symm.trans (FileTree.view_list hinner)
  | listed hprunes hlist _ _ ihInner ih =>
    intro path number hreaches hlocate hnew hlisted
    have hmem := hlisted _ List.mem_cons_self
    obtain ⟨inner, hinner, rfl⟩ := FileTree.view_list_eq_ok_iff.mp hlist
    have hchild := ihInner (reaches_of_mem hreaches hlocate hmem hprunes) hinner
      (fun place => not_locate_of_mem formed hlocate hnew hmem _) fun _ he => he
    have hrest := ih hreaches hlocate hnew fun entry he => hlisted entry (.tail _ he)
    rw [hchild, hrest]
    rfl
  | other _ ih =>
    exact fun hr hl hn hlisted => ih hr hl hn fun entry he => hlisted entry (.tail _ he)

/-- Under a name that is new in a directory nothing has stood. -/
theorem not_locate_of_new {path : Path} {number : Nat} {name : Name}
    (hlocate : before.locate .find path = .ok (.directory number)) (hname : FileTree.IsName name)
    (hnew : before.isOld number name = false) (destination : FileTree.Destination) :
    before.locate .find (path.join name) ≠ .ok destination := by
  intro hchild
  obtain ⟨place, left, hplace, hfollows⟩ := FileTree.exists_of_locate_join
    (FileTree.ne_nil_of_locate hlocate) hname.slash hchild
  cases hlocate.symm.trans hplace
  obtain ⟨-, hold⟩ := hfollows.object?_isSome (hname.isLookedUp []).blank hname.ne_above
  rw [FileTree.isOld, hold] at hnew
  cases hnew

/-- An entry that is new in an old directory does not show. -/
theorem preorder_skip (formed : after.WellFormed) (h : Untouched before after filter root)
    {path : Path} {number : Nat} (hreaches : Reaches after.view filter.prunes root path)
    (hbefore : before.locate .find path = .ok (.directory number))
    (hafter : after.locate .find path = .ok (.directory number)) {entry : Name × Entry.Kind}
    (hentry : entry ∈ sorted (after.found number)) (hnew : before.isOld number entry.1 = false)
    {rest : List Entry} {items : List Item}
    (hrest : Preorder after.view filter.wants filter.prunes rest items) :
    Preorder after.view filter.wants filter.prunes (entryIn path entry :: rest) items := by
  obtain ⟨object, hobject, -⟩ := FileTree.exists_of_mem_sorted hentry
  have hname := formed.names _ _ _ hobject
  have hmem := List.mem_map_of_mem (f := entryIn path) hentry
  have hnot := not_locate_of_new hbefore hname hnew
  obtain ⟨name, kind⟩ := entry
  cases kind with
  | other => exact .other hrest
  | file =>
    cases hwants : filter.wants (path.join name) with
    | false => exact .unwanted hwants hrest
    | true =>
      have htakes := h.takes _ (.listed hreaches (FileTree.view_list hafter) hmem hwants)
      exact absurd htakes.1 (not_isFile hnot)
  | directory =>
    cases hprunes : filter.prunes (path.join name) with
    | true => exact .pruned hprunes hrest
    | false =>
      obtain ⟨inner, hinner⟩ := exists_locate_of_mem formed h hreaches hafter hmem hprunes
      obtain ⟨found, hfound⟩ : ∃ found, Preorder after.view filter.wants filter.prunes
          ((sorted (after.found inner)).map (entryIn (path.join name))) found :=
        exists_preorder_of_acc (FileTree.acc_view formed filter.prunes (path.join name)) _
          (FileTree.view_list hinner)
      -- the walk goes into the new directory and comes out of it with nothing
      obtain rfl := preorder_new formed h hfound (reaches_of_mem hreaches hafter hmem hprunes)
        hinner (fun place => hnot _) fun _ he => he
      exact .listed hprunes (FileTree.view_list hinner) hfound hrest

theorem preorder_skips (formed : after.WellFormed) (h : Untouched before after filter root)
    {path : Path} {number : Nat} (hreaches : Reaches after.view filter.prunes root path)
    (hbefore : before.locate .find path = .ok (.directory number))
    (hafter : after.locate .find path = .ok (.directory number))
    {skipped : List (Name × Entry.Kind)}
    (hskipped : ∀ entry ∈ skipped, entry ∈ sorted (after.found number) ∧
      before.isOld number entry.1 = false) {rest : List Entry} {items : List Item}
    (hrest : Preorder after.view filter.wants filter.prunes rest items) :
    Preorder after.view filter.wants filter.prunes (skipped.map (entryIn path) ++ rest) items := by
  induction skipped with
  | nil => exact hrest
  | cons entry skipped ih =>
    obtain ⟨hentry, hnew⟩ := hskipped entry List.mem_cons_self
    exact preorder_skip formed h hreaches hbefore hafter hentry hnew
      (ih fun other hother => hskipped other (.tail entry hother))

/-- The first of the old entries, with the new ones in front of it. -/
theorem exists_old {path : Path} {number : Nat} {found : List (Name × Entry.Kind)} {entry : Entry}
    {rest : List Entry} (h : entry :: rest =
      (found.filter fun entry => before.isOld number entry.1).map (entryIn path)) :
    ∃ skipped old later, found = skipped ++ old :: later ∧
      (∀ other ∈ skipped, before.isOld number other.1 = false) ∧ entry = entryIn path old ∧
      rest = (later.filter fun entry => before.isOld number entry.1).map (entryIn path) := by
  obtain ⟨old, others, hfilter, rfl, rfl⟩ := List.map_eq_cons_iff.mp h.symm
  obtain ⟨skipped, later, rfl, hskipped, -, rfl⟩ := List.filter_eq_cons_iff.mp hfilter
  have hnew : ∀ other ∈ skipped, before.isOld number other.1 = false :=
    fun other hother => by simpa using hskipped other hother
  exact ⟨skipped, old, later, rfl, hnew, rfl, rfl⟩

theorem readFile_view {path : Path} (h : before.read path = after.read path) :
    readFile before.view path = readFile after.view path := by
  have hread : before.view.read path = after.view.read path :=
    congrArg (fun found => found.mapError Fault.file) h
  simp only [readFile, hread]

/-- One step of the reading: the first of the old entries, with the new ones in front of it. -/
theorem step_grows (formed : before.WellFormed) (formed' : after.WellFormed)
    (hgrows : FileTree.Grows before after) (h : Untouched before after filter root)
    {entry : Entry} {rest : List Entry} {items : List Item}
    (hstep : ∀ {path : Path} {number : Nat} {old : Name × Entry.Kind}
      {later : List (Name × Entry.Kind)}, Reaches after.view filter.prunes root path →
      before.locate .find path = .ok (.directory number) →
      after.locate .find path = .ok (.directory number) →
      old ∈ sorted (after.found number) → entryIn path old = entry →
      (∀ other ∈ later, other ∈ sorted (after.found number)) →
      rest = (later.filter fun entry => before.isOld number entry.1).map (entryIn path) →
      Preorder after.view filter.wants filter.prunes (entry :: later.map (entryIn path)) items) :
    ∀ {path : Path} {number : Nat} {found : List (Name × Entry.Kind)},
      Reaches after.view filter.prunes root path →
      before.locate .find path = .ok (.directory number) →
      (∀ entry ∈ found, entry ∈ sorted (after.found number)) →
      entry :: rest = (found.filter fun entry => before.isOld number entry.1).map (entryIn path) →
      Preorder after.view filter.wants filter.prunes (found.map (entryIn path)) items := by
  intro path number found hreaches hbefore hfound hentries
  have hafter := FileTree.locate_grows formed hgrows hbefore .directory
  obtain ⟨skipped, old, later, rfl, hskipped, rfl, rfl⟩ := exists_old hentries
  rw [List.map_append, List.map_cons]
  refine preorder_skips formed' h hreaches hbefore hafter (fun other hother =>
    ⟨hfound other (List.mem_append_left _ hother), hskipped other hother⟩) ?_
  exact hstep hreaches hbefore hafter (hfound old (List.mem_append_right _ List.mem_cons_self)) rfl
    (fun other hother => hfound other (List.mem_append_right _ (.tail _ hother))) rfl

theorem readFile_of_read {tree : FileTree} {path : Path} {text : String}
    (h : tree.read path = .ok text) : readFile tree.view path = .ok ⟨path.toText, text⟩ := by
  have hread : tree.view.read path = .ok text :=
    congrArg (fun found => found.mapError Fault.file) h
  simp only [readFile, hread]
  rfl

/-- What was read without a fault is read again. -/
theorem preorder_grows (formed : before.WellFormed) (formed' : after.WellFormed)
    (hgrows : FileTree.Grows before after) (h : Untouched before after filter root)
    {entries : List Entry} {items : List Item}
    (hpre : Preorder before.view filter.wants filter.prunes entries items)
    (hread : ∀ fault, Except.error fault ∉ items) :
    ∀ {path : Path} {number : Nat} {found : List (Name × Entry.Kind)},
      Reaches after.view filter.prunes root path →
      before.locate .find path = .ok (.directory number) →
      (∀ entry ∈ found, entry ∈ sorted (after.found number)) →
      entries = (found.filter fun entry => before.isOld number entry.1).map (entryIn path) →
      Preorder after.view filter.wants filter.prunes (found.map (entryIn path)) items := by
  induction hpre with
  | nil =>
    intro path number found hreaches hbefore hfound hentries
    have hafter := FileTree.locate_grows formed hgrows hbefore .directory
    have hnone := List.filter_eq_nil_iff.mp (List.map_eq_nil_iff.mp hentries.symm)
    rw [← List.append_nil (found.map (entryIn path))]
    refine preorder_skips formed' h hreaches hbefore hafter (fun entry he => ⟨hfound entry he, ?_⟩)
      .nil
    simpa using hnone entry he
  | wanted hwants _ ih =>
    refine step_grows formed formed' hgrows h fun hreaches hbefore hafter hentry hold hlater
      hrest => ?_
    have htakes := h.takes _
      (.listed hreaches (FileTree.view_list hafter) (List.mem_map.mpr ⟨_, hentry, hold⟩) hwants)
    rw [readFile_view htakes.2]
    exact .wanted hwants (ih (fun fault hfault => hread fault (.tail _ hfault)) hreaches hbefore
      hlater hrest)
  | unwanted hwants _ ih =>
    refine step_grows formed formed' hgrows h fun hreaches hbefore _ _ _ hlater hrest => ?_
    exact .unwanted hwants (ih hread hreaches hbefore hlater hrest)
  | pruned hprunes _ ih =>
    refine step_grows formed formed' hgrows h fun hreaches hbefore _ _ _ hlater hrest => ?_
    exact .pruned hprunes (ih hread hreaches hbefore hlater hrest)
  | unlisted _ _ _ _ => exact absurd List.mem_cons_self (hread _)
  | listed hprunes hlist _ _ ihInner ih =>
    refine step_grows formed formed' hgrows h fun hreaches hbefore hafter hentry hold hlater
      hrest => ?_
    obtain ⟨inner, hinner, rfl⟩ := FileTree.view_list_eq_ok_iff.mp hlist
    have hinner' := FileTree.locate_grows formed hgrows hinner .directory
    have hchild := reaches_of_mem hreaches hafter (List.mem_map.mpr ⟨_, hentry, hold⟩) hprunes
    have hbelow := ihInner (fun fault hfault => hread fault (List.mem_append_left _ hfault)) hchild
      hinner (fun entry he => he) (by rw [FileTree.sorted_grows formed formed' hgrows])
    exact .listed hprunes (FileTree.view_list hinner') hbelow
      (ih (fun fault hfault => hread fault (List.mem_append_right _ hfault)) hreaches hbefore hlater
        hrest)
  | other _ ih =>
    refine step_grows formed formed' hgrows h fun hreaches hbefore _ _ _ hlater hrest => ?_
    exact .other (ih hread hreaches hbefore hlater hrest)

/-- A root that was read without a fault is read again. -/
theorem ofRoot_grows (formed : before.WellFormed) (formed' : after.WellFormed)
    (hgrows : FileTree.Grows before after) (h : Untouched before after filter root)
    {items : List Item} (hroot : OfRoot before.view filter.wants filter.prunes root items)
    (hread : ∀ fault, Except.error fault ∉ items) :
    OfRoot after.view filter.wants filter.prunes root items := by
  cases hroot with
  | file hfile =>
    obtain ⟨number, name, content, hlocate⟩ := FileTree.isFile_iff.mp hfile
    obtain ⟨later, -, hlater⟩ := FileTree.locate_file_grows formed hgrows hlocate
    have hfile' : after.isFile root = true := FileTree.isFile_iff.mpr ⟨_, _, _, hlater⟩
    rw [readFile_view (h.takes root (.root hfile')).2]
    exact .file hfile'
  | unlisted _ _ => exact absurd List.mem_cons_self (hread _)
  | listed _ hlist hpre =>
    obtain ⟨number, hlocate, rfl⟩ := FileTree.view_list_eq_ok_iff.mp hlist
    have hlocate' := FileTree.locate_grows formed hgrows hlocate .directory
    have hitems := preorder_grows formed formed' hgrows h hpre hread .refl hlocate
      (fun entry he => he) (by rw [FileTree.sorted_grows formed formed' hgrows])
    exact .listed (FileTree.isFile_of_directory hlocate') (FileTree.view_list hlocate') hitems

end Growth

/-! ## Walks that take up nothing new -/

section Unselected

variable {before after : FileTree} {filter : Filter} {root : Path} {written : List Path}

/-- No path on a walk is too long to be followed. -/
def Fits (tree : FileTree) (filter : Filter) (root : Path) : Prop :=
  ∀ path, Reaches tree.view filter.prunes root path ∨ Takes tree.view filter root path →
    path.bytes.length ≤ FileTree.pathLimit

/-- The walk takes up none of the files that have been written, and all of its paths fit. -/
structure Unselected (written : List Path) (after : FileTree) (filter : Filter) (root : Path) :
    Prop where
  apart : ∀ path, Takes after.view filter root path → ∀ other ∈ written,
    after.locate .find path ≠ after.locate .find other
  fits : Fits after filter root

theorem stands_of_ofRoot {tree : FileTree} {items : List Item}
    (h : OfRoot tree.view filter.wants filter.prunes root items)
    (hread : ∀ fault, Except.error fault ∉ items) :
    tree.isFile root = true ∨ tree.isDirectory root = true := by
  cases h with
  | file hfile => exact .inl hfile
  | unlisted _ _ => exact absurd List.mem_cons_self (hread _)
  | listed _ hlist _ =>
    obtain ⟨number, hlocate, -⟩ := FileTree.view_list_eq_ok_iff.mp hlist
    exact .inr (FileTree.isDirectory_iff.mpr ⟨number, hlocate⟩)

/-- A root that stood is where it was, though a file may have got another content. -/
theorem locate_root (formed : before.WellFormed) (hgrows : FileTree.Grows before after)
    (hroot : before.isFile root = true ∨ before.isDirectory root = true) :
    (∃ number, before.locate .find root = .ok (.directory number) ∧
      after.locate .find root = .ok (.directory number)) ∨
    ∃ number name content later, before.locate .find root = .ok (.file number name content) ∧
      after.locate .find root = .ok (.file number name later) := by
  obtain hfile | hdirectory := hroot
  · obtain ⟨number, name, content, hbefore⟩ := FileTree.isFile_iff.mp hfile
    obtain ⟨later, -, hafter⟩ := FileTree.locate_file_grows formed hgrows hbefore
    exact .inr ⟨number, name, content, later, hbefore, hafter⟩
  · obtain ⟨number, hbefore⟩ := FileTree.isDirectory_iff.mp hdirectory
    exact .inl ⟨number, hbefore, FileTree.locate_grows formed hgrows hbefore .directory⟩

/-- An old directory on the walk is the one to which its path has led before. The induction is on
the way to it. -/
theorem locate_of_reaches (formed : before.WellFormed) (formed' : after.WellFormed)
    (hgrows : FileTree.Grows before after) (hadds : FileTree.Adds written before after)
    (hroot : before.isFile root = true ∨ before.isDirectory root = true)
    (h : Unselected written after filter root) {path : Path}
    (hreaches : Reaches after.view filter.prunes root path) : ∀ {number : Nat},
      after.locate .find path = .ok (.directory number) → number < before.size →
      before.locate .find path = .ok (.directory number) := by
  induction hreaches with
  | refl =>
    intro number hlocate _
    obtain ⟨inner, hbefore, hafter⟩ | ⟨_, _, _, _, -, hafter⟩ := locate_root formed hgrows hroot
    · cases hlocate.symm.trans hafter
      exact hbefore
    · cases hlocate.symm.trans hafter
  | tail hway hstep ih =>
    intro number hlocate hnumber
    have hlength := h.fits _ (.inl (hway.tail hstep))
    obtain ⟨place, name, inner, hplace, rfl, hmem⟩ := FileTree.descends_view hstep
    cases hlocate.symm.trans (FileTree.locate_entry formed' hplace hmem hlength)
    cases hadds _ _ _ (formed'.object?_of_mem hmem) with
    -- an old directory is not an entry of a new one
    | stood hold =>
      have hbefore := ih hplace (FileTree.lt_size_of_object? hold)
      exact FileTree.locate_entry formed hbefore (FileTree.mem_of_object? hold) hlength
    | made hinner => exact absurd hnumber (Nat.not_lt.mpr hinner)

/-- A file that the walk takes up has stood where its path leads. -/
theorem object?_of_takes (formed' : after.WellFormed) (hadds : FileTree.Adds written before after)
    (h : Unselected written after filter root) {path : Path}
    (htakes : Takes after.view filter root path) {number : Nat} {name : Name} {content : List UInt8}
    (hlocate : after.locate .find path = .ok (.file number name content)) :
    before.object? number name = some (.file content) := by
  cases hadds _ _ _ (FileTree.locate_stands formed' hlocate) with
  | stood hold => exact hold
  | written hwritten hother =>
    exact absurd (hlocate.trans hother.symm) (h.apart _ htakes _ hwritten)

/-- What the walk takes up is where it was. -/
theorem locate_of_takes (formed : before.WellFormed) (formed' : after.WellFormed)
    (hgrows : FileTree.Grows before after) (hadds : FileTree.Adds written before after)
    (hroot : before.isFile root = true ∨ before.isDirectory root = true)
    (h : Unselected written after filter root) {path : Path}
    (htakes : Takes after.view filter root path) : ∃ number name content,
      before.locate .find path = .ok (.file number name content) ∧
      after.locate .find path = .ok (.file number name content) := by
  have hold : ∀ {number : Nat} {name : Name} {content : List UInt8},
      after.locate .find path = .ok (.file number name content) →
      before.object? number name = some (.file content) :=
    object?_of_takes formed' hadds h htakes
  have hlength := h.fits _ (.inr htakes)
  cases htakes with
  | root hfile =>
    obtain ⟨number, name, content, hlocate⟩ := FileTree.isFile_iff.mp hfile
    obtain ⟨_, -, hafter⟩ | ⟨_, _, _, _, hbefore, hafter⟩ := locate_root formed hgrows hroot
    · cases hlocate.symm.trans hafter
    · cases hlocate.symm.trans hafter
      cases (hold hlocate).symm.trans (FileTree.locate_stands formed hbefore)
      exact ⟨number, name, content, hbefore, hlocate⟩
  | listed hreaches hlist hmem _ =>
    obtain ⟨number, hdirectory, rfl⟩ := FileTree.view_list_eq_ok_iff.mp hlist
    obtain ⟨⟨name, kind⟩, hentry, heq⟩ := List.mem_map.mp hmem
    obtain ⟨object, hobject, hkind⟩ := FileTree.exists_of_mem_sorted hentry
    cases heq
    obtain ⟨content, rfl⟩ := FileTree.Object.eq_file hkind
    have hlocate := FileTree.locate_file_entry formed' hdirectory hobject hlength
    have hstood := hold hlocate
    have hbefore := locate_of_reaches formed formed' hgrows hadds hroot h hreaches hdirectory
      (FileTree.lt_size_of_object? hstood)
    exact ⟨number, name, content, FileTree.locate_file_entry formed hbefore
      (FileTree.mem_of_object? hstood) hlength, hlocate⟩

/-- Where the walk takes up nothing that has been written, the growth of the tree does not concern
it. -/
theorem untouched_of_unselected (formed : before.WellFormed) (formed' : after.WellFormed)
    (hgrows : FileTree.Grows before after) (hadds : FileTree.Adds written before after)
    {items : List Item} (hitems : OfRoot before.view filter.wants filter.prunes root items)
    (hread : ∀ fault, Except.error fault ∉ items) (h : Unselected written after filter root) :
    Untouched before after filter root where
  takes path htakes := by
    obtain ⟨number, name, content, hbefore, hafter⟩ := locate_of_takes formed formed' hgrows hadds
      (stands_of_ofRoot hitems hread) h htakes
    exact ⟨FileTree.isFile_iff.mpr ⟨number, name, content, hbefore⟩,
      by rw [FileTree.read, FileTree.read, hbefore, hafter]⟩
  fits path hreaches := h.fits path (.inl hreaches)

end Unselected

end SourceMetrics.Walk
