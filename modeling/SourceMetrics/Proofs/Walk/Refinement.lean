import SourceMetrics.Proofs.Walk.Preorder

/-! # Walks deliver the preorder

A walk keeps a stack of directories that it is in the middle of, and is asked for one item at a
time. On a finite tree it delivers what `OfRoot` reads off, and then nothing more.

* `Next`: what a call of `next` comes to, given enough fuel.
* `Yields`: calls of `next` deliver some items one by one and are finished from then on.
* `preorder_yields`: what is on top of the stack is delivered before what lies below it. The
  induction is on the recursive reading, for every stack at once, so that no measure of what is
  left to do is needed.
* `outcomes_ofRoot`: the two agree. -/

namespace SourceMetrics.Walk

set_option autoImplicit false

section Calls

variable (files : FileSystem Id) (filter : Filter)

/-- With enough fuel, `next` comes to the given outcome and leaves the given walk. -/
def Next (walk : Walk) (outcome : Outcome) (rest : Walk) : Prop :=
  ∃ bound, ∀ fuel, bound ≤ fuel → next files filter fuel walk = (outcome, rest)

/-- Calls of `next` deliver the items one by one; the call after them, and any further one, finds
that the walk is finished. -/
def Yields : Walk → List Item → Prop
  | walk, [] => ∃ rest, Next files filter walk .finished rest ∧ Next files filter rest .finished rest
  | walk, item :: items => ∃ rest, Next files filter walk (.item item) rest ∧ Yields rest items

/-- The outcomes of so many calls of `next`, each with the same fuel. -/
def outcomes (fuel : Nat) : (calls : Nat) → Walk → List Outcome
  | 0, _ => []
  | calls + 1, walk =>
    let result := next files filter fuel walk
    result.1 :: outcomes fuel calls result.2

end Calls

section Steps

variable {files : FileSystem Id} {filter : Filter}

/-! ## From steps to calls -/

theorem Next.of_quiet {walk later rest : Walk} {outcome : Outcome}
    (hs : step files filter walk = (.quiet, later)) (h : Next files filter later outcome rest) :
    Next files filter walk outcome rest := by
  obtain ⟨bound, h⟩ := h
  refine ⟨bound + 1, fun fuel hfuel => ?_⟩
  obtain ⟨fuel, rfl⟩ : ∃ less, fuel = less + 1 := ⟨fuel - 1, by omega⟩
  have hrun : next files filter (fuel + 1) walk = next files filter fuel later := by
    simp only [next, hs]
    rfl
  rw [hrun, h fuel (by omega)]

theorem Next.of_item {walk later : Walk} {item : Item}
    (hs : step files filter walk = (.item item, later)) :
    Next files filter walk (.item item) later := by
  refine ⟨1, fun fuel hfuel => ?_⟩
  obtain ⟨fuel, rfl⟩ : ∃ less, fuel = less + 1 := ⟨fuel - 1, by omega⟩
  simp only [next, hs]
  rfl

theorem Next.of_finished {walk later : Walk}
    (hs : step files filter walk = (.finished, later)) :
    Next files filter walk .finished later := by
  refine ⟨1, fun fuel hfuel => ?_⟩
  obtain ⟨fuel, rfl⟩ : ∃ less, fuel = less + 1 := ⟨fuel - 1, by omega⟩
  simp only [next, hs]
  rfl

theorem Yields.of_quiet {walk later : Walk} {items : List Item}
    (hs : step files filter walk = (.quiet, later)) (h : Yields files filter later items) :
    Yields files filter walk items := by
  cases items with
  | nil =>
    obtain ⟨rest, hnext, hend⟩ := h
    exact ⟨rest, hnext.of_quiet hs, hend⟩
  | cons item items =>
    obtain ⟨rest, hnext, hrest⟩ := h
    exact ⟨rest, hnext.of_quiet hs, hrest⟩

theorem Yields.of_item {walk later : Walk} {item : Item} {items : List Item}
    (hs : step files filter walk = (.item item, later)) (h : Yields files filter later items) :
    Yields files filter walk (item :: items) :=
  ⟨later, .of_item hs, h⟩

theorem yields_empty : Yields files filter ⟨none, []⟩ [] :=
  ⟨⟨none, []⟩, .of_finished rfl, .of_finished rfl⟩

/-! ## What a single step does -/

theorem step_wanted {path : Path} (entries : List Entry) (stack : List (List Entry))
    (hw : filter.wants path = true) :
    step files filter ⟨none, (⟨path, .file⟩ :: entries) :: stack⟩ =
      (.item (readFile files path), ⟨none, entries :: stack⟩) := by
  simp only [step, hw, if_true]
  rfl

theorem step_unwanted {path : Path} (entries : List Entry) (stack : List (List Entry))
    (hw : filter.wants path = false) :
    step files filter ⟨none, (⟨path, .file⟩ :: entries) :: stack⟩ =
      (.quiet, ⟨none, entries :: stack⟩) := by
  simp only [step, hw]
  rfl

theorem step_pruned {path : Path} (entries : List Entry) (stack : List (List Entry))
    (hp : filter.prunes path = true) :
    step files filter ⟨none, (⟨path, .directory⟩ :: entries) :: stack⟩ =
      (.quiet, ⟨none, entries :: stack⟩) := by
  simp only [step, hp, if_true]
  rfl

theorem step_directory {path : Path} (entries : List Entry) (stack : List (List Entry))
    (hp : filter.prunes path = false) :
    step files filter ⟨none, (⟨path, .directory⟩ :: entries) :: stack⟩ =
      enter files path (entries :: stack) := by
  simp only [step, hp]
  rfl

theorem step_rootFile {root : Path} (stack : List (List Entry)) (hf : files.isFile root = true) :
    step files filter ⟨some root, stack⟩ = (.item (readFile files root), ⟨none, stack⟩) := by
  simp only [step, hf]
  rfl

theorem step_rootDirectory {root : Path} (stack : List (List Entry))
    (hf : files.isFile root = false) :
    step files filter ⟨some root, stack⟩ = enter files root stack := by
  simp only [step, hf]
  rfl

theorem enter_listed {path : Path} {entries : List Entry} (stack : List (List Entry))
    (hl : files.list path = .ok entries) :
    enter files path stack = (.quiet, ⟨none, entries :: stack⟩) := by
  simp only [enter, hl]
  rfl

theorem enter_unlisted {path : Path} {fault : Fault} (stack : List (List Entry))
    (hl : files.list path = .error fault) :
    enter files path stack = (.item (.error fault), ⟨none, stack⟩) := by
  simp only [enter, hl]
  rfl

/-! ## The whole walk -/

/-- The items of the entries on top of a stack come first, then those of the stack below. -/
theorem preorder_yields {entries : List Entry} {items : List Item}
    (h : Preorder files filter.wants filter.prunes entries items) :
    ∀ {stack : List (List Entry)} {later : List Item}, Yields files filter ⟨none, stack⟩ later →
      Yields files filter ⟨none, entries :: stack⟩ (items ++ later) := by
  induction h with
  | nil => exact fun hl => hl.of_quiet rfl
  | wanted hw _ ih => exact fun hl => (ih hl).of_item (step_wanted _ _ hw)
  | unwanted hw _ ih => exact fun hl => (ih hl).of_quiet (step_unwanted _ _ hw)
  | pruned hp _ ih => exact fun hl => (ih hl).of_quiet (step_pruned _ _ hp)
  | unlisted hp hlist _ ih =>
    exact fun hl => (ih hl).of_item ((step_directory _ _ hp).trans (enter_unlisted _ hlist))
  | listed hp hlist _ _ ihInner ih =>
    intro stack later hl
    rw [List.append_assoc]
    -- what is left of the directory around it is by now part of the stack
    have hinner := ihInner (ih hl)
    exact hinner.of_quiet ((step_directory _ _ hp).trans (enter_listed _ hlist))
  | other _ ih => exact fun hl => (ih hl).of_quiet rfl

theorem ofRoot_yields {root : Path} {items : List Item}
    (h : OfRoot files filter.wants filter.prunes root items) :
    Yields files filter (.ofRoot root) items := by
  cases h with
  | file hf => exact yields_empty.of_item (step_rootFile [] hf)
  | unlisted hf hl =>
    exact yields_empty.of_item ((step_rootDirectory [] hf).trans (enter_unlisted [] hl))
  | listed hf hl h =>
    have hall := preorder_yields h yields_empty
    rw [List.append_nil] at hall
    exact hall.of_quiet ((step_rootDirectory [] hf).trans (enter_listed [] hl))

/-! ## Counted calls -/

theorem outcomes_finished {walk : Walk} {fuel : Nat}
    (h : next files filter fuel walk = (.finished, walk)) (calls : Nat) :
    outcomes files filter fuel calls walk = List.replicate calls Outcome.finished := by
  induction calls with
  | zero => rfl
  | succ calls ih =>
    simp only [outcomes, h, ih]
    rfl

theorem Yields.outcomes_eq {walk : Walk} {items : List Item} (h : Yields files filter walk items) :
    ∃ bound, ∀ fuel, bound ≤ fuel → ∀ calls, outcomes files filter fuel calls walk =
      (items.map Outcome.item ++ List.replicate calls Outcome.finished).take calls := by
  induction items generalizing walk with
  | nil =>
    obtain ⟨rest, ⟨first, hnext⟩, ⟨later, hend⟩⟩ := h
    refine ⟨max first later, fun fuel hfuel calls => ?_⟩
    cases calls with
    | zero => rfl
    | succ calls =>
      have hthen := outcomes_finished (hend fuel (by omega)) calls
      simp only [outcomes, hnext fuel (by omega), hthen]
      simp [List.replicate_succ]
  | cons item items ih =>
    obtain ⟨rest, ⟨first, hnext⟩, hrest⟩ := h
    obtain ⟨later, hlater⟩ := ih hrest
    refine ⟨max first later, fun fuel hfuel calls => ?_⟩
    cases calls with
    | zero => rfl
    | succ calls =>
      simp only [outcomes, hnext fuel (by omega), hlater fuel (by omega)]
      simp [List.replicate_succ', ← List.append_assoc, List.take_append]

end Steps

/-- **On a finite tree, calls of `next` deliver the preorder of the tree.** They deliver its items
in order, and from then on find that the walk is finished. -/
theorem outcomes_ofRoot (files : FileSystem Id) (filter : Filter) (root : Path)
    (finite : files.isFile root = false → Acc (Descends files filter.prunes) root) :
    ∃ items, OfRoot files filter.wants filter.prunes root items ∧
      (∀ other, OfRoot files filter.wants filter.prunes root other → other = items) ∧
      ∃ bound, ∀ fuel, bound ≤ fuel → ∀ calls,
        outcomes files filter fuel calls (.ofRoot root) =
          (items.map Outcome.item ++ List.replicate calls Outcome.finished).take calls := by
  obtain ⟨items, h⟩ : ∃ items, OfRoot files filter.wants filter.prunes root items :=
    exists_ofRoot root finite
  exact ⟨items, h, fun other h' => h.unique h', (ofRoot_yields h).outcomes_eq⟩

/-- A tree with a file that cannot be read, a directory that cannot be listed, and a file behind
them. -/
def faultyTree : FileSystem Id :=
  .ofTables [(⟨[0x72, 0x2F, 0x62]⟩, "x")]
    [(⟨[0x72]⟩, [⟨⟨[0x72, 0x2F, 0x61]⟩, .file⟩, ⟨⟨[0x72, 0x2F, 0x64]⟩, .directory⟩,
      ⟨⟨[0x72, 0x2F, 0x62]⟩, .file⟩])]
    [(⟨[0x72, 0x2F, 0x61]⟩, .file .isDirectory), (⟨[0x72, 0x2F, 0x64]⟩, .file .notDirectory)]

theorem acc_faultyTree (prunes : Path → Bool) : Acc (Descends faultyTree prunes) ⟨[0x72]⟩ := by
  constructor
  rintro child ⟨entries, hl, hm, -⟩
  cases hl
  have hc : child = ⟨[0x72, 0x2F, 0x64]⟩ := by simpa using hm
  subst hc
  constructor
  rintro inner ⟨entries, hl, -, -⟩
  cases hl

/-- The filter that takes up every file. -/
def everyFile : Filter :=
  ⟨⟨["**"], [⟨[.atom .anything]⟩]⟩, .empty⟩

/-- Both faults are delivered in their places, and the file behind them is not lost. -/
theorem outcomes_ofRoot_faultyTree :
    (faultyTree.isFile ⟨[0x72]⟩ = false ∧
      Acc (Descends faultyTree everyFile.prunes) ⟨[0x72]⟩) ∧
    ∃ bound, ∀ fuel, bound ≤ fuel → ∀ calls,
      outcomes faultyTree everyFile fuel calls (.ofRoot ⟨[0x72]⟩) =
        ([.error (.file .isDirectory), .error (.file .notDirectory),
          .ok ⟨Path.toText ⟨[0x72, 0x2F, 0x62]⟩, "x"⟩].map Outcome.item ++
            List.replicate calls Outcome.finished).take calls := by
  have finite := acc_faultyTree everyFile.prunes
  obtain ⟨items, -, unique, hrun⟩ := outcomes_ofRoot faultyTree everyFile ⟨[0x72]⟩ fun _ => finite
  have hread := unique _ (.listed rfl rfl (.wanted (by decide) (.unlisted (by decide) rfl
    (.wanted (by decide) .nil))))
  subst hread
  exact ⟨⟨rfl, finite⟩, hrun⟩

end SourceMetrics.Walk
