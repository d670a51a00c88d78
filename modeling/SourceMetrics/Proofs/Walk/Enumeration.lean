import SourceMetrics.Proofs.Delivery.Calls
import SourceMetrics.Proofs.FileTree.Listing

/-! # The order of enumeration

A machine enumerates a directory in an order of its own, which may be another one each time that it
is asked. What is listed, and what a walk yields, do not depend on it.

* `FileTree.view_eq`: a file tree in memory is a machine that enumerates in one order.
* `FileTree.sorted_of_perm`, `FileTree.strict_sorted`: the visible entries have only one ascending
  order.
* `Machine.Enumerates.answers`: the list of a directory is the same for every order.
* `next_of_plain`, `run_of_plain`: a state that does not show in one step does not show in any
  number of them.
* `order_does_not_show`: the listing of a directory, and two scans of one tree. -/

namespace SourceMetrics

set_option autoImplicit false

open SourceMetrics.Path (Name)

/-! ## Machines -/

namespace Machine

/-- The names in each directory are pairwise different. -/
def IsDistinct (tree : Machine Id) : Prop :=
  ∀ path found, tree.found path = .ok found → (found.map (·.1)).Nodup

/-- Two enumerations of a directory that differ in their order at most. -/
inductive SameEntries : Except FileFault (List (Name × Entry.Kind)) →
    Except FileFault (List (Name × Entry.Kind)) → Prop
  | ok {found found' : List (Name × Entry.Kind)} : found.Perm found' →
      SameEntries (.ok found) (.ok found')
  | error {fault : FileFault} : SameEntries (.error fault) (.error fault)

/-- Whatever its state, a machine tells what there is in a tree, the entries of a directory in some
order. Any question may change the state. -/
structure Enumerates {s : Type} (machine : Machine (StateM s)) (tree : Machine Id) : Prop where
  isFile : ∀ path state, (machine.isFile path state).1 = tree.isFile path
  found : ∀ path state, SameEntries (tree.found path) (machine.found path state).1
  read : ∀ path state, (machine.read path state).1 = tree.read path

end Machine

/-- What stands in the directory to which a path leads. -/
def FileTree.enumerated (tree : FileTree) (path : Path) :
    Except FileFault (List (Name × Entry.Kind)) := do
  match ← tree.locate .find path with
  | .directory number => .ok (tree.found number)
  | .file .. => .error .notDirectory
  | .vacant .. => .error .notFound

/-- A file tree as a machine, which enumerates entries in the order in which they are kept. -/
def FileTree.machine (tree : FileTree) : Machine Id where
  isFile := tree.isFile
  found := tree.enumerated
  read := tree.view.read

theorem FileTree.view_eq (tree : FileTree) : tree.view = tree.machine.files := by
  have hlist : tree.view.list = tree.machine.files.list := by
    funext path
    show (tree.list path).mapError Fault.file =
      ((tree.enumerated path).map (Listing.ofFound path)).mapError Fault.file
    unfold FileTree.list FileTree.enumerated
    cases tree.locate .find path with
    | error fault => rfl
    | ok destination => cases destination <;> rfl
  show FileSystem.mk tree.isFile tree.view.list tree.view.read = _
  rw [hlist]
  rfl

theorem FileTree.isDistinct_machine {tree : FileTree}
    (distinct : ∀ number, ((tree.found number).map (·.1)).Nodup) : tree.machine.IsDistinct := by
  intro path found hfound
  change tree.enumerated path = .ok found at hfound
  unfold FileTree.enumerated at hfound
  cases hlocate : tree.locate .find path with
  | error fault =>
    rw [hlocate] at hfound
    cases hfound
  | ok destination =>
    rw [hlocate] at hfound
    cases destination with
    | directory number =>
      cases hfound
      exact distinct number
    | file _ _ _ => cases hfound
    | vacant _ _ => cases hfound

/-! ## Listings -/

namespace FileTree

variable {found found' : List (Name × Entry.Kind)}

/-- The order in which the entries were found does not show. -/
theorem sorted_of_perm (distinct : (found.map (·.1)).Nodup) (h : found.Perm found') :
    sorted found' = sorted found := by
  have hall : (found.filter fun _ => true) = found := List.filter_eq_self.mpr fun _ _ => rfl
  have hfound' : found'.Perm (found.filter fun _ => true) := by
    rw [hall]
    exact h.symm
  rw [@sorted_filter found' found (fun _ => true) distinct hfound']
  exact List.filter_eq_self.mpr fun _ _ => rfl

theorem perm_sorted (found : List (Name × Entry.Kind)) :
    (sorted found).Perm (found.filter fun entry => !Listing.isHidden entry.1) :=
  List.mergeSort_perm _ _

theorem strict_sorted (distinct : (found.map (·.1)).Nodup) :
    (sorted found).Pairwise fun a b => a.1 < b.1 := by
  have hvisible : ((found.filter fun entry => !Listing.isHidden entry.1).map (·.1)).Nodup :=
    distinct.sublist (List.filter_sublist.map _)
  have hnames : ((sorted found).map (·.1)).Nodup :=
    ((perm_sorted found).map _).nodup_iff.mpr hvisible
  have hdiffer : (sorted found).Pairwise fun a b => a.1 ≠ b.1 := List.pairwise_map.mp hnames
  refine ((pairwise_sorted found).and hdiffer).imp ?_
  rintro a b ⟨hle, hne⟩
  exact List.not_le.mp fun hge => hne (List.le_antisymm hle hge)

end FileTree

namespace Machine

variable {s : Type} {machine : Machine (StateM s)} {tree : Machine Id}

theorem list_of_same {answer answer' : Except FileFault (List (Name × Entry.Kind))} (path : Path)
    (distinct : ∀ found, answer = .ok found → (found.map (·.1)).Nodup)
    (h : SameEntries answer answer') : (answer'.map (Listing.ofFound path)).mapError Fault.file =
      (answer.map (Listing.ofFound path)).mapError Fault.file := by
  cases h with
  | error => rfl
  | @ok found found' hperm =>
    have hsorted := FileTree.sorted_of_perm (distinct found rfl) hperm
    have hlisted : Listing.ofFound path found' = Listing.ofFound path found :=
      congrArg (fun listed => listed.map (FileTree.entryIn path)) hsorted
    show Except.ok (Listing.ofFound path found') = Except.ok (Listing.ofFound path found)
    rw [hlisted]

/-- A machine that enumerates a tree answers as the tree does that is kept in one order. -/
theorem Enumerates.answers (h : machine.Enumerates tree) (distinct : tree.IsDistinct) :
    Delivery.Answers machine.files tree.files fun _ => True where
  isFile path state _ := ⟨h.isFile path state, trivial⟩
  list path state _ := ⟨list_of_same path (distinct path) (h.found path state), trivial⟩
  read path state _ := ⟨h.read path state, trivial⟩

end Machine

/-! ## Walks -/

namespace Walk

/-- What a walk replies when it is asked so many times. -/
def replies {m : Type → Type} [Monad m] (files : FileSystem m) (filter : Filter) (fuel : Nat) :
    (calls : Nat) → Walk → m (List Outcome)
  | 0, _ => return []
  | calls + 1, walk => do
    let (outcome, walk) ← next files filter fuel walk
    return outcome :: (← replies files filter fuel calls walk)

/-- On a file system without effects these are the outcomes of the calls. -/
theorem replies_eq_outcomes (files : FileSystem Id) (filter : Filter) (fuel calls : Nat)
    (walk : Walk) :
    replies (m := Id) files filter fuel calls walk = outcomes files filter fuel calls walk := by
  induction calls generalizing walk with
  | zero => rfl
  | succ calls ih =>
    obtain ⟨⟨outcome, later⟩, hnext⟩ : ∃ found, next files filter fuel walk = found := ⟨_, rfl⟩
    rw [replies, outcomes, Delivery.bind_id, hnext]
    show outcome :: replies (m := Id) files filter fuel calls later = outcome :: _
    rw [ih later]

section Plain

variable {s : Type} {files : FileSystem (StateM s)} {plain : FileSystem Id} {filter : Filter}
  (hplain : ∀ walk state, (step files filter walk state).1 = step plain filter walk)

include hplain

/-- If the state does not show in a step, it does not show in a call. -/
theorem next_of_plain (fuel : Nat) (walk : Walk) (state : s) :
    (next files filter fuel walk state).1 = next plain filter fuel walk := by
  induction fuel generalizing walk state with
  | zero => rfl
  | succ fuel ih =>
    have hstep := hplain walk state
    rw [next, next, Delivery.bind_state, Delivery.bind_id, hstep]
    obtain ⟨⟨outcome, later⟩, hs⟩ : ∃ found, step plain filter walk = found := ⟨_, rfl⟩
    rw [hs]
    cases outcome with
    | quiet => exact ih later _
    | item _ => rfl
    | finished => rfl

theorem replies_of_plain (fuel calls : Nat) (walk : Walk) (state : s) :
    (replies files filter fuel calls walk state).1 = replies plain filter fuel calls walk := by
  induction calls generalizing walk state with
  | zero => rfl
  | succ calls ih =>
    have hnext := next_of_plain hplain fuel walk state
    rw [replies, replies, Delivery.bind_state, Delivery.bind_id, hnext]
    exact congrArg _ (ih _ _)

end Plain

end Walk

/-- If the state does not show in a step of a feed, it does not show in what is delivered. -/
theorem Delivery.run_of_plain {s φ σ : Type} {step : φ → StateM s (Outcome × φ)}
    {plain : φ → Id (Outcome × φ)} (hplain : ∀ feed state, (step feed state).1 = plain feed)
    (accept : Sink σ) (fuel count : Nat) (feed : φ) (sink : σ) (state : s) :
    (run step accept fuel count feed sink state).1 = run plain accept fuel count feed sink := by
  induction fuel generalizing count feed sink state with
  | zero => rfl
  | succ fuel ih =>
    rw [run, run, bind_state, bind_id, hplain feed state]
    obtain ⟨⟨outcome, later⟩, hs⟩ : ∃ found, plain feed = found := ⟨_, rfl⟩
    rw [hs]
    cases outcome with
    | quiet => exact ih count later sink _
    | finished => rfl
    | item found =>
      cases found with
      | error fault => rfl
      | ok file =>
        obtain ⟨⟨answer, taken⟩, hfile⟩ : ∃ found, accept sink (.ofFile file) = found := ⟨_, rfl⟩
        dsimp only
        rw [hfile]
        cases answer with
        | error fault => rfl
        | ok _ => exact ih (count + 1) later taken _

namespace Machine

section Scans

variable {s : Type} {machine : Machine (StateM s)} {tree : Machine Id}

theorem Enumerates.step (h : machine.Enumerates tree) (distinct : tree.IsDistinct)
    (filter : Filter) (walk : Walk) (state : s) :
    (Walk.step machine.files filter walk state).1 = Walk.step tree.files filter walk :=
  (Delivery.step_answers (h.answers distinct) walk trivial).1

theorem Enumerates.replies (h : machine.Enumerates tree) (distinct : tree.IsDistinct)
    (filter : Filter) (fuel calls : Nat) (walk : Walk) (state : s) :
    (Walk.replies machine.files filter fuel calls walk state).1 =
      Walk.outcomes tree.files filter fuel calls walk := by
  rw [Walk.replies_of_plain (h.step distinct filter), Walk.replies_eq_outcomes]

theorem Enumerates.into (h : machine.Enumerates tree) (distinct : tree.IsDistinct)
    (filter : Filter) (fuel : Nat) (root : Path) {σ : Type} (accept : Sink σ) (sink : σ) (state : s) :
    (Scan.into machine.files filter fuel root accept sink state).1 =
      Scan.into tree.files filter fuel root accept sink :=
  Delivery.run_of_plain (h.step distinct filter) accept fuel 0 (.ofRoot root) sink state

end Scans

/-- The machine that has what there is in a tree and enumerates each directory backwards after it
has enumerated one forwards, and the other way round. -/
def turning (tree : Machine Id) : Machine (StateM Bool) where
  isFile path := fun turned => (tree.isFile path, turned)
  found path := fun turned =>
    ((tree.found path).map fun found => if turned then found.reverse else found, !turned)
  read path := fun turned => (tree.read path, turned)

theorem enumerates_turning (tree : Machine Id) : (turning tree).Enumerates tree where
  isFile _ _ := rfl
  found path turned := by
    show SameEntries (tree.found path)
      ((tree.found path).map fun found => if turned then found.reverse else found)
    cases tree.found path with
    | error fault => exact .error
    | ok found =>
      cases turned with
      | false => exact .ok (.refl found)
      | true => exact .ok found.reverse_perm.symm
  read _ _ := rfl

/-- A directory with a file, a hidden directory and a directory that is not hidden, which are not
in the order of their names. -/
def crossedTree : FileTree :=
  ⟨#[⟨0, [([0x62], .file [0x31]), ([0x2E, 0x67], .directory 1), ([0x61], .directory 2)]⟩, ⟨0, []⟩,
    ⟨0, [([0x64], .file [0x32]), ([0x63], .file [0x33])]⟩], 0⟩

theorem isDistinct_crossedTree : crossedTree.machine.IsDistinct :=
  FileTree.isDistinct_machine fun number => match number with
    | 0 => by decide
    | 1 => by decide
    | 2 => by decide
    | _ + 3 => List.nodup_nil

end Machine

end SourceMetrics
