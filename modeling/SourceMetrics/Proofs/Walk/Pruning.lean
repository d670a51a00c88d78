import Mathlib.Logic.Relation
import SourceMetrics.Proofs.Pattern.Closure
import SourceMetrics.Proofs.Walk.Refinement

/-! # Pruning changes nothing

A walk passes over an excluded directory with all that is below it. Where the excluded patterns let
text stand behind them, no file below such a directory would have been taken up, and the walk
delivers what it would deliver if it looked into every directory.

* `IsTree`: what is below a root can be listed to the end, and each path is put together from that
  of the directory and a name.
* `Preorder.eq_nil`: nothing is found below a directory under which no file is wanted.
* `Preorder.prune`: directories of that kind may be passed over. The induction is on the reading
  that looks into every directory.
* `outcomes_unpruned`: the walk delivers the items of that reading. -/

namespace SourceMetrics.Walk

set_option autoImplicit false

section Trees

variable (files : FileSystem Id)

/-- `child` is listed in `directory` as a directory. -/
abbrev Holds (directory child : Path) : Prop :=
  Descends files (fun _ => false) child directory

/-- The directories that a walk from a root comes to if it looks into every one. -/
def IsInside (root directory : Path) : Prop :=
  Relation.ReflTransGen (Holds files) root directory

/-- The entries of a tree: below a directory of the tree and a name on from it. -/
structure IsTree (root : Path) : Prop where
  /-- The root is no file. -/
  directory : files.isFile root = false
  /-- No way down is endless. -/
  finite : Acc (Descends files fun _ => false) root
  /-- Every directory can be listed. -/
  listed : ∀ directory, IsInside files root directory →
    ∃ entries, files.list directory = .ok entries
  /-- Every entry is named by its directory and a name without slashes. -/
  named : ∀ directory entries entry, IsInside files root directory →
    files.list directory = .ok entries → entry ∈ entries →
    ∃ name, Path.slash ∉ name ∧ entry.path.bytes = directory.closed ++ name

end Trees

section Pruning

variable {files : FileSystem Id} {wants prunes : Path → Bool} {root : Path}

def AreInside (files : FileSystem Id) (root : Path) (entries : List Entry) : Prop :=
  ∀ path, ⟨path, .directory⟩ ∈ entries → IsInside files root path

theorem AreInside.tail {entry : Entry} {entries : List Entry}
    (h : AreInside files root (entry :: entries)) : AreInside files root entries :=
  fun path hpath => h path (List.mem_cons_of_mem entry hpath)

theorem areInside_of_list {directory : Path} {entries : List Entry}
    (h : IsInside files root directory) (hlist : files.list directory = .ok entries) :
    AreInside files root entries :=
  fun _ hpath => h.tail ⟨entries, hlist, hpath, rfl⟩

theorem IsTree.isBelow {directory : Path} {entries : List Entry} (tree : IsTree files root)
    (h : IsInside files root directory) (hlist : files.list directory = .ok entries) :
    ∀ entry ∈ entries, directory.IsBelow entry.path := by
  intro entry hentry
  obtain ⟨name, -, hname⟩ := tree.named directory entries entry h hlist hentry
  exact ⟨name, hname⟩

theorem isBelow_trans {outer directory path : Path} (h : outer.IsBelow directory)
    (h' : directory.IsBelow path) : outer.IsBelow path := by
  obtain ⟨rest, hrest⟩ := h
  obtain ⟨name, hname⟩ := h'
  rw [Path.IsBelow, hname, Path.closed]
  split
  · exact ⟨rest ++ name, by rw [hrest, List.append_assoc]⟩
  · exact ⟨rest ++ [Path.slash] ++ name, by simp [hrest]⟩

/-- Below a directory under which no file is wanted there is nothing to find. -/
theorem Preorder.eq_nil {entries : List Entry} {items : List Item}
    (h : Preorder files wants (fun _ => false) entries items) (tree : IsTree files root)
    {outer : Path} (hunwanted : ∀ path, outer.IsBelow path → wants path = false)
    (hinside : AreInside files root entries) (hbelow : ∀ entry ∈ entries, outer.IsBelow entry.path) :
    items = [] := by
  induction h with
  | nil => rfl
  | wanted hw _ _ =>
    have hnot := hunwanted _ (hbelow _ List.mem_cons_self)
    rw [hw] at hnot
    cases hnot
  | unwanted _ _ ih => exact ih hinside.tail fun entry he => hbelow entry (List.mem_cons_of_mem _ he)
  | pruned hp _ _ => cases hp
  | unlisted _ hlist _ _ =>
    obtain ⟨entries, hentries⟩ := tree.listed _ (hinside _ List.mem_cons_self)
    cases hlist.symm.trans hentries
  | @listed path inner rest _ _ _ hlist _ _ ihInner ih =>
    have hpath := hinside path List.mem_cons_self
    have hinner : ∀ entry ∈ inner, outer.IsBelow entry.path := fun entry he =>
      isBelow_trans (hbelow _ List.mem_cons_self) (tree.isBelow hpath hlist entry he)
    rw [ihInner (areInside_of_list hpath hlist) hinner,
      ih hinside.tail fun entry he => hbelow entry (List.mem_cons_of_mem _ he), List.append_nil]
  | other _ ih => exact ih hinside.tail fun entry he => hbelow entry (List.mem_cons_of_mem _ he)

/-- Directories under which no file is wanted may be passed over. -/
theorem Preorder.prune {entries : List Entry} {items : List Item}
    (h : Preorder files wants (fun _ => false) entries items) (tree : IsTree files root)
    (hprunes : ∀ directory path, prunes directory = true → directory.IsBelow path →
      wants path = false)
    (hinside : AreInside files root entries) : Preorder files wants prunes entries items := by
  induction h with
  | nil => exact .nil
  | wanted hw _ ih => exact .wanted hw (ih hinside.tail)
  | unwanted hw _ ih => exact .unwanted hw (ih hinside.tail)
  | pruned hp _ _ => cases hp
  | unlisted _ hlist _ _ =>
    obtain ⟨entries, hentries⟩ := tree.listed _ (hinside _ List.mem_cons_self)
    cases hlist.symm.trans hentries
  | @listed path inner rest _ _ _ hlist hinner _ ihInner ih =>
    have hpath := hinside path List.mem_cons_self
    have hbelow := areInside_of_list hpath hlist
    by_cases hp : prunes path = true
    · -- looking into the directory has found nothing, so passing over it loses nothing
      rw [hinner.eq_nil tree (hprunes path · hp) hbelow (tree.isBelow hpath hlist), List.nil_append]
      exact .pruned hp (ih hinside.tail)
    · rw [Bool.not_eq_true] at hp
      exact .listed hp hlist (ihInner hbelow) (ih hinside.tail)
  | other _ ih => exact .other (ih hinside.tail)

theorem OfRoot.prune {items : List Item} (h : OfRoot files wants (fun _ => false) root items)
    (tree : IsTree files root)
    (hprunes : ∀ directory path, prunes directory = true → directory.IsBelow path →
      wants path = false) : OfRoot files wants prunes root items := by
  cases h with
  | file hf => exact .file hf
  | unlisted hf hlist => exact .unlisted hf hlist
  | listed hf hlist h =>
    exact .listed hf hlist (h.prune tree hprunes (areInside_of_list .refl hlist))

end Pruning

/-- **Pruning is only an optimisation.** Where the excluded patterns let text stand behind them, a
directory is excluded only if all that is below it is, and the walk through a tree delivers what is
found by looking into every directory. -/
theorem outcomes_unpruned (files : FileSystem Id) (root : Path) (tree : IsTree files root)
    (included excluded : PatternList) (sources : List String)
    (hcompile : PatternList.compile sources = .ok excluded)
    (hopen : ∀ source ∈ sources, Pattern.isOpenBehind source.toList = true) :
    (∀ directory path : Path, directory.IsBelow path →
      excluded.matchesDirectory directory = true → excluded.matchesFile path = true) ∧
    ∃ items, OfRoot files (Filter.wants ⟨included, excluded⟩) (fun _ => false) root items ∧
      (∀ other, OfRoot files (Filter.wants ⟨included, excluded⟩) (fun _ => false) root other →
        other = items) ∧
      ∃ bound, ∀ fuel, bound ≤ fuel → ∀ calls,
        outcomes files ⟨included, excluded⟩ fuel calls (.ofRoot root) =
          (items.map Outcome.item ++ List.replicate calls Outcome.finished).take calls := by
  have hbelow : ∀ directory path : Path, directory.IsBelow path →
      excluded.matchesDirectory directory = true → excluded.matchesFile path = true :=
    fun directory path hpath => PatternList.matchesFile_of_isBelow hcompile hopen hpath
  have hprunes : ∀ directory path, Filter.prunes ⟨included, excluded⟩ directory = true →
      directory.IsBelow path → Filter.wants ⟨included, excluded⟩ path = false := by
    intro directory path hprunes hpath
    rw [Filter.wants, hbelow directory path hpath hprunes, Bool.not_true, Bool.and_false]
  obtain ⟨items, h⟩ : ∃ items,
      OfRoot files (Filter.wants ⟨included, excluded⟩) (fun _ => false) root items :=
    exists_ofRoot root fun _ => tree.finite
  have hpruned : OfRoot files (Filter.wants ⟨included, excluded⟩)
      (Filter.prunes ⟨included, excluded⟩) root items := h.prune tree hprunes
  have hyields : Yields files ⟨included, excluded⟩ (.ofRoot root) items := ofRoot_yields hpruned
  exact ⟨hbelow, items, h, fun other h' => h.unique h', hyields.outcomes_eq⟩

/-- A tree with a file in a directory, and a file behind that directory. -/
def nestedTree : FileSystem Id :=
  .ofTables [(⟨[0x72, 0x2F, 0x61, 0x2F, 0x78]⟩, "x"), (⟨[0x72, 0x2F, 0x62]⟩, "b")]
    [(⟨[0x72]⟩, [⟨⟨[0x72, 0x2F, 0x61]⟩, .directory⟩, ⟨⟨[0x72, 0x2F, 0x62]⟩, .file⟩]),
      (⟨[0x72, 0x2F, 0x61]⟩, [⟨⟨[0x72, 0x2F, 0x61, 0x2F, 0x78]⟩, .file⟩])] []

theorem nestedTree_holds {directory child : Path} (h : Holds nestedTree directory child)
    (hdirectory : directory = ⟨[0x72]⟩ ∨ directory = ⟨[0x72, 0x2F, 0x61]⟩) :
    directory = ⟨[0x72]⟩ ∧ child = ⟨[0x72, 0x2F, 0x61]⟩ := by
  obtain ⟨entries, hlist, hchild, -⟩ := h
  rcases hdirectory with rfl | rfl
  · cases hlist
    exact ⟨rfl, by simpa using hchild⟩
  · cases hlist
    simp at hchild

theorem nestedTree_isInside {directory : Path} (h : IsInside nestedTree ⟨[0x72]⟩ directory) :
    directory = ⟨[0x72]⟩ ∨ directory = ⟨[0x72, 0x2F, 0x61]⟩ := by
  induction h with
  | refl => exact .inl rfl
  | tail _ hholds ih => exact .inr (nestedTree_holds hholds ih).2

theorem isTree_nestedTree : IsTree nestedTree ⟨[0x72]⟩ where
  directory := rfl
  finite := by
    refine ⟨_, fun child hchild => ?_⟩
    obtain ⟨-, rfl⟩ := nestedTree_holds hchild (.inl rfl)
    refine ⟨_, fun inner hinner => ?_⟩
    obtain ⟨hsame, -⟩ := nestedTree_holds hinner (.inr rfl)
    cases hsame
  listed directory h := by
    rcases nestedTree_isInside h with rfl | rfl <;> exact ⟨_, rfl⟩
  named directory entries entry h hlist hentry := by
    rcases nestedTree_isInside h with rfl | rfl
    · cases hlist
      rcases List.mem_pair.mp hentry with rfl | rfl
      · exact ⟨[0x61], by decide, rfl⟩
      · exact ⟨[0x62], by decide, rfl⟩
    · cases hlist
      obtain rfl := List.mem_singleton.mp hentry
      exact ⟨[0x78], by decide, rfl⟩

/-- The directory is passed over, and the file in it would not have been taken up. -/
theorem outcomes_unpruned_nestedTree :
    ∃ excluded, (IsTree nestedTree ⟨[0x72]⟩ ∧ PatternList.compile ["/a/"] = .ok excluded ∧
      excluded.matchesDirectory ⟨[0x72, 0x2F, 0x61]⟩ = true) ∧
      excluded.matchesFile ⟨[0x72, 0x2F, 0x61, 0x2F, 0x78]⟩ = true ∧
      ∃ bound, ∀ fuel, bound ≤ fuel → ∀ calls,
        outcomes nestedTree ⟨everyFile.included, excluded⟩ fuel calls (.ofRoot ⟨[0x72]⟩) =
          ([.ok ⟨Path.toText ⟨[0x72, 0x2F, 0x62]⟩, "b"⟩].map Outcome.item ++
            List.replicate calls Outcome.finished).take calls := by
  obtain ⟨excluded, hcompile, hdirectory, hwants⟩ : ∃ excluded,
      PatternList.compile ["/a/"] = .ok excluded ∧
        excluded.matchesDirectory ⟨[0x72, 0x2F, 0x61]⟩ = true ∧
        Filter.wants ⟨everyFile.included, excluded⟩ ⟨[0x72, 0x2F, 0x62]⟩ = true :=
    ⟨_, rfl, by decide, by decide⟩
  obtain ⟨hbelow, items, -, hunique, hrun⟩ := outcomes_unpruned nestedTree ⟨[0x72]⟩
    isTree_nestedTree everyFile.included excluded ["/a/"] hcompile (by decide)
  have hfile := hbelow _ ⟨[0x72, 0x2F, 0x61, 0x2F, 0x78]⟩ ⟨[0x78], rfl⟩ hdirectory
  have hunwanted : Filter.wants ⟨everyFile.included, excluded⟩
      ⟨[0x72, 0x2F, 0x61, 0x2F, 0x78]⟩ = false := by
    rw [Filter.wants, hfile, Bool.not_true, Bool.and_false]
  have hread := hunique _ (.listed rfl rfl (.listed rfl rfl (.unwanted hunwanted .nil)
    (.wanted hwants .nil)))
  subst hread
  exact ⟨excluded, ⟨isTree_nestedTree, hcompile, hdirectory⟩, hfile, hrun⟩

end SourceMetrics.Walk
