import SourceMetrics.Proofs.Pattern.Closure
import SourceMetrics.Proofs.Settings.Standard
import SourceMetrics.Proofs.Walk.Growth

/-! # What a walk has in its sight

Which files of a tree a walk with the standard patterns takes up, told by the names on the way to them
and without the walk.

* `FileTree.Way`: names of entries lead from one directory to another.
* `InSight`: a file is in the sight of a walk.
* `way_of_reaches`, `reaches_of_way`: the directories that a walk looks into. The inductions are on
  the way to them.
* `inSight_of_takes`, `takes_of_inSight`: a walk takes up what is in its sight.
* `IsOpen`: a directory is open to a walk. One with a file in sight is (`isOpen_of_inSight`), and in one
  that is a file with the extension of a script is in sight (`inSight_of_isOpen`). -/

namespace SourceMetrics

set_option autoImplicit false

open SourceMetrics.Path (Name)
open Settings (IsIncluded IsExcluded)

/-! ## Paths -/

namespace Path

/-- The path that a walk gives to what names lead to from its root. -/
def along (root : Path) (names : List Name) : Path :=
  names.foldl join root

theorem along_concat (root : Path) (names : List Name) (name : Name) :
    root.along (names ++ [name]) = (root.along names).join name := by
  rw [along, List.foldl_append]
  rfl

theorem join_closed {path : Path} (h : path.bytes ≠ []) (name : Name) :
    (path.join name).bytes = path.closed ++ name := by
  have hlast := List.getLast?_eq_some_getLast h
  unfold join closed
  rw [hlast]
  by_cases hslash : path.bytes.getLast h = slash
  · rw [if_pos (congrArg some hslash)]
    simp only [if_pos hslash]
  · rw [if_neg fun hsame => hslash (Option.some.inj hsame)]
    simp only [if_neg hslash, List.append_assoc, List.singleton_append]

theorem along_ne_nil {root : Path} (h : root.bytes ≠ []) (names : List Name) :
    (root.along names).bytes ≠ [] := by
  induction names generalizing root with
  | nil => exact h
  | cons name names ih =>
    refine ih (fun hnil => h ?_)
    have hfront := prefix_join h name
    rw [hnil] at hfront
    exact List.prefix_nil.mp hfront

/-- The text of a path with a slash at its end. -/
def enclosing (path : Path) : List Char :=
  normalized ⟨path.closed⟩

theorem normalized_join {path : Path} (h : path.bytes ≠ []) (name : Name) :
    (path.join name).normalized = path.enclosing ++ normalized ⟨name⟩ := by
  obtain ⟨front, hfront⟩ : ∃ front, path.closed = front ++ [slash] := by
    unfold closed
    split
    · rename_i hlast
      exact ⟨_, (List.getLast?_eq_some_iff.mp hlast).choose_spec⟩
    · exact ⟨_, rfl⟩
  have hjoin : path.join name = ⟨front ++ slash :: name⟩ := by
    have hbytes := join_closed h name
    rw [hfront, List.append_assoc, List.singleton_append] at hbytes
    exact congrArg Path.mk hbytes
  have hempty : normalized ⟨[]⟩ = [] := rfl
  rw [hjoin, enclosing, hfront, normalized_append, normalized_append, hempty, List.append_assoc,
    List.singleton_append]

end Path

namespace Settings

theorem IsExcluded.enclosing {path : Path}
    (h : IsExcluded (PatternList.closed path.normalized)) : IsExcluded path.enclosing := by
  have hbelow : path.IsBelow ⟨path.closed⟩ := ⟨[], (List.append_nil _).symm⟩
  obtain ⟨more, hmore⟩ := hbelow.exists_normalized
  rw [Path.enclosing, hmore]
  exact h.append more

theorem IsExcluded.join {path : Path} (h : IsExcluded path.enclosing) (hpath : path.bytes ≠ [])
    (name : Name) : IsExcluded (path.join name).normalized := by
  rw [Path.normalized_join hpath]
  exact h.append _

theorem IsExcluded.closed {path : Path} (h : IsExcluded path.normalized) :
    IsExcluded (PatternList.closed path.normalized) := by
  unfold PatternList.closed
  split
  · exact h
  · exact h.append _

/-- What lies below an excluded directory is excluded. -/
theorem IsExcluded.along {root : Path} (h : IsExcluded root.enclosing) (hroot : root.bytes ≠ [])
    (names : List Name) : IsExcluded (root.along names).enclosing := by
  induction names generalizing root with
  | nil => exact h
  | cons name names ih =>
    exact ih (h.join hroot name).closed.enclosing (Path.along_ne_nil hroot [name])

/-- What is not excluded lies in a directory that is not. -/
theorem not_isExcluded_above {root : Path} {names : List Name} {name : Name}
    (hroot : root.bytes ≠ []) (h : ¬ IsExcluded (root.along (names ++ [name])).normalized) :
    ¬ IsExcluded (root.along names).enclosing := by
  intro habove
  rw [Path.along_concat] at h
  exact h (habove.join (Path.along_ne_nil hroot names) name)

end Settings

/-! ## Ways -/

/-- Names of entries lead from a directory to another one. -/
inductive FileTree.Way (tree : FileTree) (top : Nat) : List Name → Nat → Prop
  | here : Way tree top [] top
  | into {names : List Name} {number inner : Nat} {name : Name} : Way tree top names number →
      tree.object? number name = some (.directory inner) → Way tree top (names ++ [name]) inner

section Ways

variable {tree : FileTree} {top number : Nat} {names others : List Name}

theorem FileTree.Way.le (formed : tree.WellFormed) (h : tree.Way top names number) :
    top ≤ number := by
  induction h with
  | here => exact Nat.le_refl top
  | into _ hobject ih =>
    exact Nat.le_trans ih (Nat.le_of_lt (formed.inner _ _ _ (FileTree.mem_of_object? hobject)).1)

/-- There is no more than one way from one directory to another. -/
theorem FileTree.Way.unique (formed : tree.WellFormed) (h : tree.Way top names number)
    (h' : tree.Way top others number) : others = names := by
  induction h generalizing others with
  | here =>
    cases h' with
    | here => rfl
    | into hway hobject =>
      have hinner := (formed.inner _ _ _ (FileTree.mem_of_object? hobject)).1
      exact absurd hinner (Nat.not_lt.mpr (hway.le formed))
  | @into _ place _ _ hway hobject ih =>
    have hmem := FileTree.mem_of_object? hobject
    cases h' with
    | here => exact absurd (formed.inner _ _ _ hmem).1 (Nat.not_lt.mpr (hway.le formed))
    | into hway' hobject' =>
      obtain ⟨rfl, rfl⟩ := formed.single _ _ _ _ _ hmem (FileTree.mem_of_object? hobject')
      rw [ih hway']

/-- From a directory with files only there is no way on. -/
theorem FileTree.Way.eq_top (hfiles : ∀ entry ∈ tree.found top, entry.2 = .file)
    (h : tree.Way top names number) : number = top := by
  induction h with
  | here => rfl
  | into _ hobject ih =>
    subst ih
    cases hfiles _ (List.mem_map_of_mem (FileTree.mem_of_object? hobject))

end Ways

namespace Walk

open FileTree (Way)

/-- A file is in the sight of a walk with the standard patterns. It is the root, or names of entries
lead to it from the root, none of which is hidden; and the path that is made of them has the extension
of a script in it and leads through no directory of dependencies or of build output. -/
inductive InSight (tree : FileTree) (root path : Path) : Prop
  | root {number : Nat} {name : Name} {content : List UInt8} :
      tree.locate .find root = .ok (.file number name content) →
      tree.locate .find path = .ok (.file number name content) → InSight tree root path
  | below {top number : Nat} {names : List Name} {name : Name} {content : List UInt8} :
      tree.locate .find root = .ok (.directory top) → Way tree top names number →
      tree.locate .find path = .ok (.file number name content) →
      (∀ part ∈ names ++ [name], Listing.isHidden part = false) →
      IsIncluded (root.along (names ++ [name])).normalized →
      ¬ IsExcluded (root.along (names ++ [name])).normalized → InSight tree root path

section Sight

variable {tree : FileTree} {root path : Path} (formed : tree.WellFormed)

/-- The root of a walk that looks into some directory is one. -/
theorem exists_top {prunes : Path → Bool} {entries : List Entry}
    (h : Reaches tree.view prunes root path) (hlist : tree.view.list path = .ok entries) :
    ∃ top, tree.locate .find root = .ok (.directory top) := by
  obtain rfl | ⟨_, ⟨found, hfound, -⟩, -⟩ := h.cases_head
  · obtain ⟨top, htop, -⟩ := FileTree.view_list_eq_ok_iff.mp hlist
    exact ⟨top, htop⟩
  · obtain ⟨top, htop, -⟩ := FileTree.view_list_eq_ok_iff.mp hfound
    exact ⟨top, htop⟩

include formed

theorem way_of_reaches {filter : Filter} (fits : Fits tree filter root) {top : Nat}
    (htop : tree.locate .find root = .ok (.directory top))
    (h : Reaches tree.view filter.prunes root path) : ∃ names number, Way tree top names number ∧
      path = root.along names ∧ (∀ part ∈ names, Listing.isHidden part = false) ∧
      tree.locate .find path = .ok (.directory number) := by
  induction h with
  | refl => exact ⟨[], top, .here, rfl, fun _ hpart => absurd hpart List.not_mem_nil, htop⟩
  | @tail directory child hway hstep ih =>
    have hlength := fits _ (.inl (hway.tail hstep))
    obtain ⟨names, number, hnames, rfl, hvisible, hlocate⟩ := ih
    obtain ⟨entries, hlist, hmem, -⟩ := hstep
    cases hlist.symm.trans (FileTree.view_list hlocate)
    obtain ⟨⟨name, kind⟩, hentry, heq⟩ := List.mem_map.mp hmem
    obtain ⟨hname, object, hobject, hkind⟩ := FileTree.mem_sorted_iff.mp hentry
    cases heq
    obtain ⟨inner, rfl⟩ := FileTree.Object.eq_directory hkind
    refine ⟨names ++ [name], inner, .into hnames (formed.object?_of_mem hobject),
      (root.along_concat names name).symm, ?_, FileTree.locate_entry formed hlocate hobject hlength⟩
    exact List.forall_mem_append.mpr ⟨hvisible, List.forall_mem_singleton.mpr hname⟩

variable {settings : Settings} {limit : Option Nat}
  (hsettings : Settings.ofPatterns none none limit = .ok settings)
  (fits : Fits tree settings.filter root)

include hsettings fits

theorem reaches_of_way {top number : Nat} {names : List Name}
    (htop : tree.locate .find root = .ok (.directory top)) (hway : Way tree top names number)
    (hvisible : ∀ part ∈ names, Listing.isHidden part = false)
    (hopen : ¬ IsExcluded (root.along names).enclosing) :
    Reaches tree.view settings.filter.prunes root (root.along names) ∧
      tree.locate .find (root.along names) = .ok (.directory number) := by
  induction hway with
  | here => exact ⟨.refl, htop⟩
  | @into names number inner name _ hobject ih =>
    obtain ⟨hvisible, hname⟩ := List.forall_mem_append.mp hvisible
    have hunpassed : ¬ IsExcluded (PatternList.closed (root.along (names ++ [name])).normalized) :=
      fun h => hopen h.enclosing
    have habove := Settings.not_isExcluded_above (FileTree.ne_nil_of_locate htop)
      fun h => hunpassed h.closed
    obtain ⟨hreaches, hlocate⟩ := ih hvisible habove
    rw [Path.along_concat] at hunpassed ⊢
    have hmem := FileTree.mem_of_object? hobject
    have hentry := @FileTree.mem_listed _ (root.along names) _ _ _ (hname name List.mem_cons_self) hmem
    have hprunes : settings.filter.prunes ((root.along names).join name) = false :=
      Bool.eq_false_iff.mpr fun h => hunpassed ((Settings.prunes_iff hsettings _).mp h)
    have hinner := reaches_of_mem hreaches hlocate hentry hprunes
    exact ⟨hinner, FileTree.locate_entry formed hlocate hmem (fits _ (.inl hinner))⟩

/-- What a walk takes up is in its sight. -/
theorem inSight_of_takes {taken : Path} (h : Takes tree.view settings.filter root taken)
    (hsame : tree.locate .find taken = tree.locate .find path) : InSight tree root path := by
  have hlength := fits _ (.inr h)
  cases h with
  | root hfile =>
    obtain ⟨number, name, content, hlocate⟩ := FileTree.isFile_iff.mp hfile
    exact .root hlocate (hsame.symm.trans hlocate)
  | listed hreaches hlist hmem hwants =>
    obtain ⟨top, htop⟩ := exists_top hreaches hlist
    obtain ⟨names, number, hway, rfl, hvisible, hlocate⟩ :=
      way_of_reaches formed fits htop hreaches
    cases hlist.symm.trans (FileTree.view_list hlocate)
    obtain ⟨⟨name, kind⟩, hentry, heq⟩ := List.mem_map.mp hmem
    obtain ⟨hname, object, hobject, hkind⟩ := FileTree.mem_sorted_iff.mp hentry
    cases heq
    obtain ⟨content, rfl⟩ := FileTree.Object.eq_file hkind
    have hfile := FileTree.locate_file_entry formed hlocate hobject hlength
    obtain ⟨hincluded, hopen⟩ := (Settings.wants_iff hsettings _).mp hwants
    rw [← Path.along_concat] at hincluded hopen
    exact .below htop hway (hsame.symm.trans hfile)
      (List.forall_mem_append.mpr ⟨hvisible, List.forall_mem_singleton.mpr hname⟩) hincluded hopen

/-- What is in the sight of a walk is taken up. -/
theorem takes_of_inSight (h : InSight tree root path) : ∃ taken,
    Takes tree.view settings.filter root taken ∧
      tree.locate .find taken = tree.locate .find path := by
  cases h with
  | root hroot hpath =>
    exact ⟨root, .root (FileTree.isFile_iff.mpr ⟨_, _, _, hroot⟩), hroot.trans hpath.symm⟩
  | @below top number names name content htop hway hpath hvisible hincluded hopen =>
    obtain ⟨hvisible, hname⟩ := List.forall_mem_append.mp hvisible
    have habove := Settings.not_isExcluded_above (FileTree.ne_nil_of_locate htop) hopen
    rw [Path.along_concat] at hincluded hopen
    obtain ⟨hreaches, hlocate⟩ :=
      reaches_of_way formed hsettings fits htop hway hvisible habove
    have hmem := FileTree.mem_of_object? (FileTree.locate_stands formed hpath)
    have hentry := @FileTree.mem_listed _ (root.along names) _ _ _ (hname name List.mem_cons_self) hmem
    have htakes : Takes tree.view settings.filter root ((root.along names).join name) :=
      .listed hreaches (FileTree.view_list hlocate) hentry
        ((Settings.wants_iff hsettings _).mpr ⟨hincluded, hopen⟩)
    exact ⟨_, htakes, (FileTree.locate_file_entry formed hlocate hmem
      (fits _ (.inr htakes))).trans hpath.symm⟩

end Sight

/-! ## Open directories -/

/-- A directory is open to a walk with the standard patterns. Names of entries lead to it from the root,
none of which is hidden, and the path that is made of them leads through no directory of dependencies
or of build output. -/
def IsOpen (tree : FileTree) (root : Path) (number : Nat) : Prop :=
  ∃ top names, tree.locate .find root = .ok (.directory top) ∧ Way tree top names number ∧
    (∀ part ∈ names, Listing.isHidden part = false) ∧ ¬ IsExcluded (root.along names).enclosing

/-- Whether a directory below the root is open is decided by the way to it. -/
theorem isOpen_iff {tree : FileTree} {root : Path} {top number : Nat} {names : List Name}
    (formed : tree.WellFormed) (htop : tree.locate .find root = .ok (.directory top))
    (hway : Way tree top names number) : IsOpen tree root number ↔
      (∀ part ∈ names, Listing.isHidden part = false) ∧
        ¬ IsExcluded (root.along names).enclosing := by
  constructor
  · rintro ⟨place, others, hplace, hothers, h⟩
    cases htop.symm.trans hplace
    rwa [hway.unique formed hothers] at h
  · exact fun h => ⟨top, names, htop, hway, h⟩

section Open

variable {tree : FileTree} {root path : Path} {number : Nat} {name : Name} {content : List UInt8}
  (hpath : tree.locate .find path = .ok (.file number name content))

include hpath

/-- A file below the root that is in sight stands in an open directory. -/
theorem isOpen_of_inSight (hroot : tree.isFile root = false) (h : InSight tree root path) :
    IsOpen tree root number := by
  cases h with
  | root hfile _ => cases hroot.symm.trans (FileTree.isFile_iff.mpr ⟨_, _, _, hfile⟩)
  | @below top place names part _ htop hway hlocate hvisible _ hopen =>
    cases hpath.symm.trans hlocate
    exact ⟨top, names, htop, hway, (List.forall_mem_append.mp hvisible).1,
      Settings.not_isExcluded_above (FileTree.ne_nil_of_locate htop) hopen⟩

/-- A file with the extension of a script in an open directory is in sight. -/
theorem inSight_of_isOpen (h : IsOpen tree root number) (hname : Listing.isHidden name = false)
    (hslash : '/' ∉ Path.normalized ⟨name⟩) (hincluded : IsIncluded (Path.normalized ⟨name⟩)) :
    InSight tree root path := by
  obtain ⟨top, names, htop, hway, hvisible, hopen⟩ := h
  have hjoin := Path.normalized_join
    (Path.along_ne_nil (FileTree.ne_nil_of_locate htop) names) name
  refine .below htop hway hpath
    (List.forall_mem_append.mpr ⟨hvisible, List.forall_mem_singleton.mpr hname⟩) ?_ ?_
  · rw [Path.along_concat, hjoin]
    have hlonger := (List.suffix_append (root.along names).enclosing (Path.normalized ⟨name⟩)).isInfix
    exact hincluded.imp (fun h => h.trans hlonger) fun h => h.trans hlonger
  · rw [Path.along_concat, hjoin]
    exact fun h => hopen (h.of_append hslash)

end Open

end Walk

end SourceMetrics
