import Mathlib.Data.List.Nodup
import SourceMetrics.Proofs.FileTree.Growth
import SourceMetrics.Proofs.Walk.Preorder

/-! # What is listed of a file tree

A file tree as a file system that answers without effects, and what is listed of its directories.

* `view_list_eq_ok_iff`: what is listed of a directory.
* `sorted_grows`: of a directory in a grown tree the same is listed in the same order, apart from
  what is new in it.
* `acc_view`: in a well-formed tree no way down is endless, as the numbers of the directories grow
  on the way. -/

namespace SourceMetrics.FileTree

set_option autoImplicit false

open SourceMetrics.Path (Name)

/-- A tree as a file system. -/
def view (tree : FileTree) : FileSystem Id where
  isFile := tree.isFile
  list path := (tree.list path).mapError .file
  read path := (tree.read path).mapError .file

/-- What stands in a directory under which names, and of which kind it is. -/
def found (tree : FileTree) (number : Nat) : List (Name × Entry.Kind) :=
  (tree.entries number).map fun entry => (entry.1, entry.2.kind)

/-- What is not hidden, in the order of the names. -/
def sorted (found : List (Name × Entry.Kind)) : List (Name × Entry.Kind) :=
  (found.filter fun entry => !Listing.isHidden entry.1).mergeSort fun a b => a.1 ≤ b.1

/-- An entry of a directory. -/
def entryIn (path : Path) (entry : Name × Entry.Kind) : Entry :=
  ⟨path.join entry.1, entry.2⟩

section Lists

variable {tree : FileTree} {path : Path} {number : Nat}

theorem view_list_eq_ok_iff {entries : List Entry} : tree.view.list path = .ok entries ↔
    ∃ number, tree.locate .find path = .ok (.directory number) ∧
      entries = (sorted (tree.found number)).map (entryIn path) := by
  show (tree.list path).mapError Fault.file = .ok entries ↔ _
  unfold list
  constructor
  · intro h
    cases hlocate : tree.locate .find path with
    | error fault =>
      rw [hlocate] at h
      cases h
    | ok destination =>
      rw [hlocate] at h
      cases destination with
      | directory number =>
        cases h
        exact ⟨number, rfl, rfl⟩
      | file _ _ _ => cases h
      | vacant _ _ => cases h
  · rintro ⟨number, hlocate, rfl⟩
    rw [hlocate]
    rfl

theorem view_list (h : tree.locate .find path = .ok (.directory number)) :
    tree.view.list path = .ok ((sorted (tree.found number)).map (entryIn path)) :=
  view_list_eq_ok_iff.mpr ⟨number, h, rfl⟩

theorem view_list_of_list {entries : List Entry} (h : tree.list path = .ok entries) :
    tree.view.list path = .ok entries :=
  congrArg (fun found => found.mapError Fault.file) h

theorem isFile_iff : tree.isFile path = true ↔
    ∃ number name content, tree.locate .find path = .ok (.file number name content) := by
  unfold isFile
  constructor
  · intro h
    split at h
    · rename_i number name content hlocate
      exact ⟨number, name, content, hlocate⟩
    · cases h
  · rintro ⟨number, name, content, h⟩
    rw [h]

theorem isFile_of_directory (h : tree.locate .find path = .ok (.directory number)) :
    tree.isFile path = false := by
  unfold isFile
  rw [h]

theorem mem_sorted {entry : Name × Entry.Kind} {found : List (Name × Entry.Kind)}
    (h : entry ∈ sorted found) : entry ∈ found :=
  (List.mem_filter.mp ((List.mergeSort_perm _ _).subset h)).1

/-- What is listed stands in the directory. -/
theorem exists_of_mem_sorted {entry : Name × Entry.Kind} (h : entry ∈ sorted (tree.found number)) :
    ∃ object, (entry.1, object) ∈ tree.entries number ∧ object.kind = entry.2 := by
  obtain ⟨⟨name, object⟩, hmem, rfl⟩ := List.mem_map.mp (mem_sorted h)
  exact ⟨object, hmem, rfl⟩

theorem mem_sorted_iff {entry : Name × Entry.Kind} : entry ∈ sorted (tree.found number) ↔
    Listing.isHidden entry.1 = false ∧
      ∃ object, (entry.1, object) ∈ tree.entries number ∧ object.kind = entry.2 := by
  constructor
  · intro h
    have hvisible := (List.mem_filter.mp ((List.mergeSort_perm _ _).subset h)).2
    exact ⟨by simpa using hvisible, exists_of_mem_sorted h⟩
  · rintro ⟨hvisible, object, hmem, hkind⟩
    refine (List.mergeSort_perm _ _).symm.subset (List.mem_filter.mpr ⟨?_, by rw [hvisible]; rfl⟩)
    exact List.mem_map.mpr ⟨(entry.1, object), hmem, by rw [hkind]⟩

/-- What stands in a directory and is not hidden is listed. -/
theorem mem_listed {name : Name} {object : Object} (hvisible : Listing.isHidden name = false)
    (hmem : (name, object) ∈ tree.entries number) :
    ⟨path.join name, object.kind⟩ ∈ (sorted (tree.found number)).map (entryIn path) :=
  List.mem_map.mpr ⟨(name, object.kind), mem_sorted_iff.mpr ⟨hvisible, object, hmem, rfl⟩, rfl⟩

theorem Object.eq_file {object : Object} (h : object.kind = .file) :
    ∃ content, object = .file content := by
  cases object with
  | file content => exact ⟨content, rfl⟩
  | directory _ => cases h
  | link _ => cases h

theorem Object.eq_directory {object : Object} (h : object.kind = .directory) :
    ∃ inner, object = .directory inner := by
  cases object with
  | directory inner => exact ⟨inner, rfl⟩
  | file _ => cases h
  | link _ => cases h

theorem WellFormed.distinct_found (h : tree.WellFormed) (number : Nat) :
    ((tree.found number).map (·.1)).Nodup := by
  have hnames : (tree.found number).map (·.1) = (tree.entries number).map (·.1) := by
    rw [found, List.map_map]
    rfl
  rw [hnames]
  exact h.distinct number

end Lists

/-! ## Order -/

section Order

theorem pairwise_sorted (found : List (Name × Entry.Kind)) :
    (sorted found).Pairwise fun a b => a.1 ≤ b.1 := by
  have h := @List.pairwise_mergeSort _ (fun a b : Name × Entry.Kind => decide (a.1 ≤ b.1))
    (fun a b c hab hbc => by
      simp only [decide_eq_true_eq] at hab hbc ⊢
      exact List.le_trans hab hbc)
    (fun a b => by
      simp only [Bool.or_eq_true, decide_eq_true_eq]
      exact List.le_total a.1 b.1)
    (found.filter fun entry => !Listing.isHidden entry.1)
  exact h.imp of_decide_eq_true

/-- What is found in the order of the names, and not hidden, is listed as it is. -/
theorem view_list_of_found {tree : FileTree} {path : Path} {number : Nat}
    {found : List (Name × Entry.Kind)} (hlocate : tree.locate .find path = .ok (.directory number))
    (hfound : tree.found number = found) (hordered : found.Pairwise fun a b => a.1 ≤ b.1)
    (hvisible : ∀ entry ∈ found, Listing.isHidden entry.1 = false) :
    tree.view.list path = .ok (found.map (entryIn path)) := by
  have hall : (found.filter fun entry => !Listing.isHidden entry.1) = found :=
    List.filter_eq_self.mpr fun entry hentry => by rw [hvisible entry hentry, Bool.not_false]
  have hsorted : sorted found = found := by
    rw [sorted, hall]
    exact List.mergeSort_of_pairwise (hordered.imp decide_eq_true)
  rw [view_list hlocate, hfound, hsorted]

/-- What is left of the order when something is left out. -/
theorem sorted_filter {found whole : List (Name × Entry.Kind)} {old : Name → Bool}
    (distinct : (whole.map (·.1)).Nodup) (h : found.Perm (whole.filter fun entry => old entry.1)) :
    sorted found = (sorted whole).filter fun entry => old entry.1 := by
  refine @List.Perm.eq_of_pairwise _ (fun a b => a.1 ≤ b.1) _ _ ?_ ?_ ?_ ?_
  · intro a b ha hb hab hba
    have hwhole : a ∈ whole := (List.mem_filter.mp (h.subset (mem_sorted ha))).1
    have hwhole' : b ∈ whole := mem_sorted (List.mem_filter.mp hb).1
    exact List.inj_on_of_nodup_map distinct hwhole hwhole' (List.le_antisymm hab hba)
  · exact pairwise_sorted found
  · exact (pairwise_sorted whole).filter _
  · have hfound := (List.mergeSort_perm (found.filter fun entry => !Listing.isHidden entry.1)
      fun a b => decide (a.1 ≤ b.1))
    have hwhole := (List.mergeSort_perm (whole.filter fun entry => !Listing.isHidden entry.1)
      fun a b => decide (a.1 ≤ b.1)).filter fun entry => old entry.1
    have hmiddle := h.filter fun entry => !Listing.isHidden entry.1
    refine hfound.trans (hmiddle.trans ?_)
    refine List.Perm.trans ?_ hwhole.symm
    rw [List.filter_filter, List.filter_filter]
    refine List.Perm.of_eq (List.filter_congr fun entry _ => ?_)
    exact Bool.and_comm _ _

/-- The names under which something has stood in a directory. -/
def isOld (before : FileTree) (number : Nat) (name : Name) : Bool :=
  (before.object? number name).isSome

variable {before after : FileTree}

theorem found_grows (formed : before.WellFormed) (formed' : after.WellFormed)
    (hgrows : Grows before after) (number : Nat) : (before.found number).Perm
      ((after.found number).filter fun entry => before.isOld number entry.1) := by
  rw [List.perm_ext_iff_of_nodup (formed.distinct_found number).of_map
    ((formed'.distinct_found number).of_map.filter _)]
  intro entry
  rw [List.mem_filter]
  constructor
  · intro hentry
    obtain ⟨⟨name, object⟩, hmem, rfl⟩ := List.mem_map.mp hentry
    have hobject := formed.object?_of_mem hmem
    obtain ⟨later, hlater, hlasts⟩ := hgrows.lasts _ _ _ hobject
    refine ⟨List.mem_map.mpr ⟨(name, later), mem_of_object? hlater, ?_⟩,
      Option.isSome_of_eq_some hobject⟩
    rw [hlasts.kind_eq]
  · rintro ⟨hentry, hold⟩
    obtain ⟨⟨name, later⟩, hmem, rfl⟩ := List.mem_map.mp hentry
    obtain ⟨object, hobject⟩ := Option.isSome_iff_exists.mp hold
    obtain ⟨later', hlater, hlasts⟩ := hgrows.lasts _ _ _ hobject
    cases (formed'.object?_of_mem hmem).symm.trans hlater
    refine List.mem_map.mpr ⟨(name, object), mem_of_object? hobject, ?_⟩
    rw [hlasts.kind_eq]

theorem sorted_grows (formed : before.WellFormed) (formed' : after.WellFormed)
    (hgrows : Grows before after) (number : Nat) : sorted (before.found number) =
      (sorted (after.found number)).filter fun entry => before.isOld number entry.1 :=
  sorted_filter (formed'.distinct_found number) (found_grows formed formed' hgrows number)

end Order

/-! ## Entries -/

section Entries

variable {tree : FileTree} {path : Path} {number : Nat} {name : Name}

/-- Where the path of a directory leads that is an entry of a directory. -/
theorem locate_entry (formed : tree.WellFormed)
    (h : tree.locate .find path = .ok (.directory number)) {inner : Nat}
    (hmem : (name, .directory inner) ∈ tree.entries number)
    (hlength : (path.join name).bytes.length ≤ pathLimit) :
    tree.locate .find (path.join name) = .ok (.directory inner) := by
  have hname := formed.names _ _ _ hmem
  exact locate_join h hname hlength fun left =>
    .directory (hname.isLookedUp []) (formed.object?_of_mem hmem) .arrived

/-- Where the path of a file leads that is an entry of a directory. -/
theorem locate_file_entry (formed : tree.WellFormed)
    (h : tree.locate .find path = .ok (.directory number)) {content : List UInt8}
    (hmem : (name, .file content) ∈ tree.entries number)
    (hlength : (path.join name).bytes.length ≤ pathLimit) :
    tree.locate .find (path.join name) = .ok (.file number name content) := by
  have hname := formed.names _ _ _ hmem
  exact locate_join h hname hlength fun left =>
    .file (hname.isLookedUp []) (formed.object?_of_mem hmem)

theorem exists_locate_of_found (formed : tree.WellFormed)
    (h : tree.locate .find path = .ok (.directory number)) (hmem : (name, .file) ∈ tree.found number)
    (hlength : (path.join name).bytes.length ≤ pathLimit) :
    ∃ content, tree.locate .find (path.join name) = .ok (.file number name content) := by
  obtain ⟨⟨_, object⟩, hobject, heq⟩ := List.mem_map.mp hmem
  obtain ⟨rfl, hkind⟩ := Prod.mk.inj heq
  obtain ⟨content, rfl⟩ := Object.eq_file hkind
  exact ⟨content, locate_file_entry formed h hobject hlength⟩

/-- A path that leads to an entry is no longer than a path may be. -/
theorem length_of_locate {destination : Destination}
    (h : tree.locate .find path = .ok destination) : path.bytes.length ≤ pathLimit :=
  (locate_eq_ok_iff.mp h).1.length

theorem ne_nil_of_locate {destination : Destination}
    (h : tree.locate .find path = .ok destination) : path.bytes ≠ [] :=
  (locate_eq_ok_iff.mp h).1.ne_nil

theorem descends_view {prunes : Path → Bool} {child : Path}
    (h : Walk.Descends tree.view prunes child path) : ∃ number name inner,
      tree.locate .find path = .ok (.directory number) ∧ child = path.join name ∧
      (name, .directory inner) ∈ tree.entries number := by
  obtain ⟨entries, hlist, hmem, -⟩ := h
  obtain ⟨number, hlocate, rfl⟩ := view_list_eq_ok_iff.mp hlist
  obtain ⟨⟨name, kind⟩, hentry, hchild⟩ := List.mem_map.mp hmem
  obtain ⟨object, hobject, hkind⟩ := exists_of_mem_sorted hentry
  cases hchild
  obtain ⟨inner, rfl⟩ := Object.eq_directory hkind
  exact ⟨number, name, inner, hlocate, rfl, hobject⟩

theorem acc_view_of_le (formed : tree.WellFormed) (prunes : Path → Bool) (bound : Nat) (path : Path)
    (h : ∀ number, tree.locate .find path = .ok (.directory number) → tree.size ≤ number + bound) :
    Acc (Walk.Descends tree.view prunes) path := by
  induction bound generalizing path with
  | zero =>
    constructor
    intro child hchild
    obtain ⟨number, name, inner, hlocate, -, hmem⟩ := descends_view hchild
    have hinner := formed.inner _ _ _ hmem
    have hbound := h number hlocate
    omega
  | succ bound ih =>
    constructor
    intro child hchild
    obtain ⟨number, name, inner, hlocate, rfl, hmem⟩ := descends_view hchild
    refine ih (path.join name) fun place hplace => ?_
    -- the child, if it leads to a directory at all, leads to the one that is listed
    cases hplace.symm.trans (locate_entry formed hlocate hmem (length_of_locate hplace))
    have hinner := formed.inner _ _ _ hmem
    have hbound := h number hlocate
    omega

/-- Every way down ends, as each directory lies in one with a smaller number. -/
theorem acc_view (formed : tree.WellFormed) (prunes : Path → Bool) (path : Path) :
    Acc (Walk.Descends tree.view prunes) path :=
  acc_view_of_le formed prunes tree.size path fun _ _ => Nat.le_add_left _ _

end Entries

end SourceMetrics.FileTree
