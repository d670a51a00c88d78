import SourceMetrics.Walk

/-! # The preorder of a tree

What a walk is to find, read off the tree by recursion and without a stack or steps: every entry of
a directory in turn, a directory with all that is below it.

* `Preorder`, `OfRoot`: the items of some entries, and those of a root.
* `Preorder.unique`, `OfRoot.unique`: there is no more than one reading.
* `exists_ofRoot`: there is one wherever no way down is endless. The induction is on the
  accessibility of the directories, and inside each directory on its entries. -/

namespace SourceMetrics.Walk

set_option autoImplicit false

/-! ## The recursive reading -/

section Reading

variable (files : FileSystem Id) (wants prunes : Path → Bool)

/-- `child` is listed in `directory` as a directory that is not passed over. -/
def Descends (child directory : Path) : Prop :=
  ∃ entries, files.list directory = .ok entries ∧ ⟨child, .directory⟩ ∈ entries ∧
    prunes child = false

/-- The items of some entries, each directory with all that is below it before what is listed
behind it. A fault stands in the place of the file or of the directory that it is about. -/
inductive Preorder : List Entry → List Item → Prop
  | nil : Preorder [] []
  | wanted {path : Path} {rest : List Entry} {items : List Item} :
      wants path = true → Preorder rest items →
      Preorder (⟨path, .file⟩ :: rest) (readFile files path :: items)
  | unwanted {path : Path} {rest : List Entry} {items : List Item} :
      wants path = false → Preorder rest items → Preorder (⟨path, .file⟩ :: rest) items
  | pruned {path : Path} {rest : List Entry} {items : List Item} :
      prunes path = true → Preorder rest items → Preorder (⟨path, .directory⟩ :: rest) items
  | unlisted {path : Path} {fault : Fault} {rest : List Entry} {items : List Item} :
      prunes path = false → files.list path = .error fault → Preorder rest items →
      Preorder (⟨path, .directory⟩ :: rest) (.error fault :: items)
  | listed {path : Path} {entries rest : List Entry} {inner items : List Item} :
      prunes path = false → files.list path = .ok entries → Preorder entries inner →
      Preorder rest items → Preorder (⟨path, .directory⟩ :: rest) (inner ++ items)
  | other {path : Path} {rest : List Entry} {items : List Item} :
      Preorder rest items → Preorder (⟨path, .other⟩ :: rest) items

/-- The items of a root. A root that is a file is read whatever is wanted. -/
inductive OfRoot (root : Path) : List Item → Prop
  | file : files.isFile root = true → OfRoot root [readFile files root]
  | unlisted {fault : Fault} : files.isFile root = false → files.list root = .error fault →
      OfRoot root [.error fault]
  | listed {entries : List Entry} {items : List Item} : files.isFile root = false →
      files.list root = .ok entries → Preorder files wants prunes entries items → OfRoot root items

end Reading

section Recursion

variable {files : FileSystem Id} {wants prunes : Path → Bool}

theorem Preorder.unique {entries : List Entry} {items other : List Item}
    (h : Preorder files wants prunes entries items)
    (h' : Preorder files wants prunes entries other) : other = items := by
  induction h generalizing other with
  | nil =>
    cases h'
    rfl
  | wanted hw _ ih =>
    cases h' with
    | wanted _ rest => rw [ih rest]
    | unwanted hn _ => simp [hw] at hn
  | unwanted hn _ ih =>
    cases h' with
    | wanted hw _ => simp [hn] at hw
    | unwanted _ rest => exact ih rest
  | pruned hp _ ih =>
    cases h' with
    | pruned _ rest => exact ih rest
    | unlisted hn _ _ => simp [hp] at hn
    | listed hn _ _ _ => simp [hp] at hn
  | unlisted hn hl _ ih =>
    cases h' with
    | pruned hp _ => simp [hn] at hp
    | unlisted _ hl' rest =>
      cases hl.symm.trans hl'
      rw [ih rest]
    | listed _ hl' _ _ => cases hl.symm.trans hl'
  | listed hn hl _ _ ihInner ih =>
    cases h' with
    | pruned hp _ => simp [hn] at hp
    | unlisted _ hl' _ => cases hl.symm.trans hl'
    | listed _ hl' inner rest =>
      cases hl.symm.trans hl'
      rw [ihInner inner, ih rest]
  | other _ ih =>
    cases h' with
    | other rest => exact ih rest

theorem OfRoot.unique {root : Path} {items other : List Item}
    (h : OfRoot files wants prunes root items)
    (h' : OfRoot files wants prunes root other) : other = items := by
  cases h with
  | file hf =>
    cases h' with
    | file _ => rfl
    | unlisted hn _ => simp [hf] at hn
    | listed hn _ _ => simp [hf] at hn
  | unlisted hn hl =>
    cases h' with
    | file hf => simp [hn] at hf
    | unlisted _ hl' =>
      cases hl.symm.trans hl'
      rfl
    | listed _ hl' _ => cases hl.symm.trans hl'
  | listed hn hl items =>
    cases h' with
    | file hf => simp [hn] at hf
    | unlisted _ hl' => cases hl.symm.trans hl'
    | listed _ hl' other =>
      cases hl.symm.trans hl'
      exact items.unique other

theorem exists_preorder (entries : List Entry)
    (inside : ∀ path, ⟨path, .directory⟩ ∈ entries → prunes path = false →
      ∀ inner, files.list path = .ok inner → ∃ items, Preorder files wants prunes inner items) :
    ∃ items, Preorder files wants prunes entries items := by
  induction entries with
  | nil => exact ⟨[], .nil⟩
  | cons entry rest ih =>
    obtain ⟨items, hrest⟩ := ih fun path member => inside path (List.mem_cons_of_mem entry member)
    obtain ⟨path, kind⟩ := entry
    cases kind with
    | file =>
      cases hw : wants path with
      | true => exact ⟨_, .wanted hw hrest⟩
      | false => exact ⟨_, .unwanted hw hrest⟩
    | directory =>
      cases hp : prunes path with
      | true => exact ⟨_, .pruned hp hrest⟩
      | false =>
        cases hl : files.list path with
        | error fault => exact ⟨_, .unlisted hp hl hrest⟩
        | ok inner =>
          obtain ⟨found, hinner⟩ := inside path List.mem_cons_self hp inner hl
          exact ⟨_, .listed hp hl hinner hrest⟩
    | other => exact ⟨_, .other hrest⟩

/-- What a directory lists has a reading if there is no endless way down from it. -/
theorem exists_preorder_of_acc {directory : Path}
    (finite : Acc (Descends files prunes) directory) :
    ∀ entries, files.list directory = .ok entries →
      ∃ items, Preorder files wants prunes entries items := by
  induction finite with
  | intro directory _ ih =>
    intro entries hl
    apply exists_preorder
    intro path member open' inner hinner
    exact ih path ⟨entries, hl, member, open'⟩ inner hinner

theorem exists_ofRoot (root : Path)
    (finite : files.isFile root = false → Acc (Descends files prunes) root) :
    ∃ items, OfRoot files wants prunes root items := by
  cases hf : files.isFile root with
  | true => exact ⟨_, .file hf⟩
  | false =>
    cases hl : files.list root with
    | error fault => exact ⟨_, .unlisted hf hl⟩
    | ok entries =>
      obtain ⟨items, h⟩ := exists_preorder_of_acc (finite hf) entries hl
      exact ⟨items, .listed hf hl h⟩

end Recursion

end SourceMetrics.Walk
