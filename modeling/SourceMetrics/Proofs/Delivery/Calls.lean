import SourceMetrics.Proofs.Delivery.Feed
import SourceMetrics.Proofs.Walk.Refinement

/-! # Deliveries from a walk

A delivery from a walk makes the calls to the file system that asking the walk for its items one
by one makes, up to the item that ends it, and none behind it.

* `carried`: a feed whose steps change a state, as a feed that carries this state along.
* `Yields.draws`: a walk that yields some items is a feed from which they are drawn.
* `Walk.pull`: the walk that is asked for so many items; `pull_draws` and `pull_drained` say what
  it comes to.
* `delivered_from_walk`: where a delivery stops, what the sink has then got, and which calls have
  been made. -/

namespace SourceMetrics

set_option autoImplicit false

namespace Walk

variable {m : Type → Type} [Monad m]

/-- The walk after it was asked for so many items. -/
def pull (files : FileSystem m) (filter : Filter) (fuel : Nat) : (calls : Nat) → Walk → m Walk
  | 0, walk => return walk
  | calls + 1, walk => do
    let (_, walk) ← next files filter fuel walk
    pull files filter fuel calls walk

end Walk

namespace Delivery

/-! ## Feeds with a state -/

section States

variable {s φ σ : Type}

/-- A feed whose steps change a state, as a feed that carries this state along. -/
def carried (step : φ → StateM s (Outcome × φ)) (feed : φ × s) : Id (Outcome × (φ × s)) :=
  let found := step feed.1 feed.2
  (found.1.1, found.1.2, found.2)

theorem bind_state {α β : Type} (action : StateM s α) (next : α → StateM s β) (state : s) :
    (action >>= next) state = next (action state).1 (action state).2 :=
  rfl

theorem step_of_carried {step : φ → StateM s (Outcome × φ)} {outcome : Outcome}
    {feed later : φ × s} (h : carried step feed = (outcome, later)) :
    step feed.1 feed.2 = ((outcome, later.1), later.2) := by
  cases h
  rfl

theorem run_carried {step : φ → StateM s (Outcome × φ)} {accept : Sink σ} {ending : Ending}
    {rest : φ} {later : s} {last : σ} {fuel count : Nat} {feed : φ} {state : s} {sink : σ}
    (h : run (carried step) accept fuel count (feed, state) sink = (ending, (rest, later), last)) :
    run step accept fuel count feed sink state = ((ending, rest, last), later) := by
  induction fuel generalizing count feed state sink with
  | zero =>
    cases h
    rfl
  | succ fuel ih =>
    obtain ⟨⟨⟨outcome, next⟩, between⟩, hs⟩ : ∃ found, step feed state = found := ⟨_, rfl⟩
    have hcarried : carried step (feed, state) = (outcome, (next, between)) := by
      simp only [carried, hs]
    rw [run, bind_state, hs]
    cases outcome with
    | quiet =>
      rw [run_quiet hcarried] at h
      exact ih h
    | finished =>
      rw [run, bind_id, hcarried] at h
      cases h
      rfl
    | item found =>
      cases found with
      | error fault =>
        rw [run, bind_id, hcarried] at h
        cases h
        rfl
      | ok file =>
        obtain ⟨⟨answer, taken⟩, hfile⟩ : ∃ found, accept sink (.ofFile file) = found := ⟨_, rfl⟩
        dsimp only
        rw [hfile]
        cases answer with
        | error fault =>
          rw [run_refused hcarried hfile] at h
          cases h
          rfl
        | ok _ =>
          rw [run_accepted hcarried hfile] at h
          exact ih h

/-- A feed that carries a state along yields what it yields without one. -/
theorem simulates_carried {step : φ → StateM s (Outcome × φ)} {plain : φ → Id (Outcome × φ)}
    (hplain : ∀ feed state, (step feed state).1 = plain feed) :
    Simulates (carried step) plain fun feed other => other.1 = feed := by
  rintro _ ⟨feed, state⟩ outcome later rfl hs
  have hfirst := (hplain feed state).trans hs
  refine ⟨(later, (step feed state).2), ?_, rfl⟩
  simp only [carried, hfirst]

end States

/-! ## Walks as feeds -/

section Walks

variable {files : FileSystem Id} {filter : Filter}

theorem draws_of_next {fuel : Nat} {walk rest : Walk} {item : Item}
    (h : Walk.next files filter fuel walk = (.item item, rest)) :
    ∃ steps, Draws (Walk.step files filter) steps walk [item] rest := by
  induction fuel generalizing walk with
  | zero => cases h
  | succ fuel ih =>
    obtain ⟨⟨outcome, later⟩, hs⟩ : ∃ found, Walk.step files filter walk = found := ⟨_, rfl⟩
    simp only [Walk.next, hs] at h
    cases outcome with
    | quiet =>
      obtain ⟨steps, hdraws⟩ := ih h
      exact ⟨steps + 1, .quiet hs hdraws⟩
    | item _ =>
      cases h
      exact ⟨1, .item hs .nil⟩
    | finished => cases h

theorem drained_of_next {fuel : Nat} {walk rest : Walk}
    (h : Walk.next files filter fuel walk = (.finished, rest)) :
    ∃ steps, Drained (Walk.step files filter) steps walk rest := by
  induction fuel generalizing walk with
  | zero => cases h
  | succ fuel ih =>
    obtain ⟨⟨outcome, later⟩, hs⟩ : ∃ found, Walk.step files filter walk = found := ⟨_, rfl⟩
    simp only [Walk.next, hs] at h
    cases outcome with
    | quiet =>
      obtain ⟨steps, hend⟩ := ih h
      exact ⟨steps + 1, .quiet hs hend⟩
    | item _ => cases h
    | finished =>
      cases h
      exact ⟨1, .finished hs⟩

theorem yields_draws {walk : Walk} {items : List Item} (h : Walk.Yields files filter walk items) :
    ∃ steps more between rest, Draws (Walk.step files filter) steps walk items between ∧
      Drained (Walk.step files filter) more between rest := by
  induction items generalizing walk with
  | nil =>
    obtain ⟨rest, ⟨bound, hnext⟩, -⟩ := h
    obtain ⟨more, hend⟩ := drained_of_next (hnext bound (Nat.le_refl _))
    exact ⟨0, more, walk, rest, .nil, hend⟩
  | cons item items ih =>
    obtain ⟨later, ⟨bound, hnext⟩, hlater⟩ := h
    obtain ⟨first, hfirst⟩ := draws_of_next (hnext bound (Nat.le_refl _))
    obtain ⟨steps, more, between, rest, hdraws, hend⟩ := ih hlater
    exact ⟨first + steps, more, between, rest, hfirst.append hdraws, hend⟩

end Walks

/-! ## Answers -/

section Answers

variable {s : Type} {files : FileSystem (StateM s)} {plain : FileSystem Id} {holds : s → Prop}

/-- A file system with a state gives the answers of one without, in every state of a kind that no
call leaves. -/
structure Answers (files : FileSystem (StateM s)) (plain : FileSystem Id) (holds : s → Prop) :
    Prop where
  isFile : ∀ path state, holds state →
    (files.isFile path state).1 = plain.isFile path ∧ holds (files.isFile path state).2
  list : ∀ path state, holds state →
    (files.list path state).1 = plain.list path ∧ holds (files.list path state).2
  read : ∀ path state, holds state →
    (files.read path state).1 = plain.read path ∧ holds (files.read path state).2

theorem readFile_answers (h : Answers files plain holds) (path : Path) {state : s}
    (hstate : holds state) : (Walk.readFile files path state).1 = Walk.readFile plain path ∧
      holds (Walk.readFile files path state).2 := by
  obtain ⟨hanswer, hlater⟩ := h.read path state hstate
  obtain ⟨⟨answer, later⟩, hread⟩ : ∃ found, files.read path state = found := ⟨_, rfl⟩
  rw [hread] at hanswer hlater
  simp only [Walk.readFile, bind, StateT.bind, hread, ← hanswer]
  cases answer <;> exact ⟨rfl, hlater⟩

theorem enter_answers (h : Answers files plain holds) (path : Path) (stack : List (List Entry))
    {state : s} (hstate : holds state) :
    (Walk.enter files path stack state).1 = Walk.enter plain path stack ∧
      holds (Walk.enter files path stack state).2 := by
  obtain ⟨hanswer, hlater⟩ := h.list path state hstate
  obtain ⟨⟨answer, later⟩, hlist⟩ : ∃ found, files.list path state = found := ⟨_, rfl⟩
  rw [hlist] at hanswer hlater
  simp only [Walk.enter, bind, StateT.bind, hlist, ← hanswer]
  cases answer <;> exact ⟨rfl, hlater⟩

/-- The state does not show in the steps of a walk. -/
theorem step_answers (h : Answers files plain holds) {filter : Filter} (walk : Walk) {state : s}
    (hstate : holds state) : (Walk.step files filter walk state).1 = Walk.step plain filter walk ∧
      holds (Walk.step files filter walk state).2 := by
  match walk with
  | ⟨some root, stack⟩ =>
    obtain ⟨hanswer, hlater⟩ := h.isFile root state hstate
    obtain ⟨⟨answer, later⟩, hasked⟩ : ∃ found, files.isFile root state = found := ⟨_, rfl⟩
    rw [hasked] at hanswer hlater
    change answer = plain.isFile root at hanswer
    cases answer with
    | true =>
      rw [Walk.step_rootFile stack hanswer.symm, ← (readFile_answers h root hlater).1]
      simp only [Walk.step, bind, StateT.bind, hasked]
      exact ⟨rfl, (readFile_answers h root hlater).2⟩
    | false =>
      rw [Walk.step_rootDirectory stack hanswer.symm]
      simp only [Walk.step, bind, StateT.bind, hasked]
      exact enter_answers h root stack hlater
  | ⟨none, []⟩ => exact ⟨rfl, hstate⟩
  | ⟨none, [] :: stack⟩ => exact ⟨rfl, hstate⟩
  | ⟨none, (⟨path, .directory⟩ :: entries) :: stack⟩ =>
    cases hp : filter.prunes path with
    | true =>
      rw [Walk.step_pruned entries stack hp]
      simp only [Walk.step, hp]
      exact ⟨rfl, hstate⟩
    | false =>
      rw [Walk.step_directory entries stack hp]
      simp only [Walk.step, hp]
      exact enter_answers h path (entries :: stack) hstate
  | ⟨none, (⟨path, .file⟩ :: entries) :: stack⟩ =>
    cases hw : filter.wants path with
    | true =>
      rw [Walk.step_wanted entries stack hw, ← (readFile_answers h path hstate).1]
      simp only [Walk.step, hw]
      exact ⟨rfl, (readFile_answers h path hstate).2⟩
    | false =>
      rw [Walk.step_unwanted entries stack hw]
      simp only [Walk.step, hw]
      exact ⟨rfl, hstate⟩
  | ⟨none, (⟨_, .other⟩ :: entries) :: stack⟩ => exact ⟨rfl, hstate⟩

/-- The log does not show in the answers. -/
theorem answers_logged (files : FileSystem Id) : Answers files.logged files fun _ => True where
  isFile _ _ _ := ⟨rfl, trivial⟩
  list _ _ _ := ⟨rfl, trivial⟩
  read _ _ _ := ⟨rfl, trivial⟩

theorem step_logged {files : FileSystem Id} {filter : Filter} (walk : Walk)
    (calls : List FileSystem.Call) :
    (Walk.step files.logged filter walk calls).1 = Walk.step files filter walk :=
  (step_answers (answers_logged files) walk trivial).1

end Answers

/-! ## Counted calls -/

section Pulls

variable {s : Type} {files : FileSystem (StateM s)} {filter : Filter}

theorem next_quiet {feed later : Walk × s}
    (h : carried (Walk.step files filter) feed = (.quiet, later)) (fuel : Nat) :
    Walk.next files filter (fuel + 1) feed.1 feed.2 =
      Walk.next files filter fuel later.1 later.2 := by
  simp only [Walk.next, bind, StateT.bind, step_of_carried h]

theorem next_draws {steps : Nat} {feed rest : Walk × s} {item : Item}
    (h : Draws (carried (Walk.step files filter)) steps feed [item] rest) {fuel : Nat}
    (hfuel : steps ≤ fuel) :
    Walk.next files filter fuel feed.1 feed.2 = ((.item item, rest.1), rest.2) := by
  generalize hrow : [item] = items at h
  induction h generalizing fuel with
  | nil => cases hrow
  | quiet hs _ ih =>
    obtain ⟨fuel, rfl⟩ : ∃ less, fuel = less + 1 := ⟨fuel - 1, by omega⟩
    cases hrow
    rw [next_quiet hs]
    exact ih (by omega) rfl
  | item hs hnil =>
    obtain ⟨fuel, rfl⟩ : ∃ less, fuel = less + 1 := ⟨fuel - 1, by omega⟩
    cases hrow
    cases hnil
    simp only [Walk.next, bind, StateT.bind, step_of_carried hs]
    rfl

theorem next_drained {steps : Nat} {feed rest : Walk × s}
    (h : Drained (carried (Walk.step files filter)) steps feed rest) {fuel : Nat}
    (hfuel : steps ≤ fuel) :
    Walk.next files filter fuel feed.1 feed.2 = ((.finished, rest.1), rest.2) := by
  induction h generalizing fuel with
  | finished hs =>
    obtain ⟨fuel, rfl⟩ : ∃ less, fuel = less + 1 := ⟨fuel - 1, by omega⟩
    simp only [Walk.next, bind, StateT.bind, step_of_carried hs]
    rfl
  | quiet hs _ ih =>
    obtain ⟨fuel, rfl⟩ : ∃ less, fuel = less + 1 := ⟨fuel - 1, by omega⟩
    rw [next_quiet hs]
    exact ih (by omega)

/-- To draw some items is to ask for as many. -/
theorem pull_draws {steps : Nat} {feed between : Walk × s} {items : List Item}
    (h : Draws (carried (Walk.step files filter)) steps feed items between) {fuel : Nat}
    (hfuel : steps ≤ fuel) (calls : Nat) :
    Walk.pull files filter fuel (items.length + calls) feed.1 feed.2 =
      Walk.pull files filter fuel calls between.1 between.2 := by
  induction items generalizing steps feed with
  | nil =>
    cases h
    rw [List.length_nil, Nat.zero_add]
  | cons item items ih =>
    obtain ⟨first, behind, later, rfl, hfirst, hbehind⟩ := h.uncons
    have hnext := next_draws hfirst (by omega : first ≤ fuel)
    rw [List.length_cons, Nat.add_right_comm, ← ih hbehind (by omega)]
    simp only [Walk.pull, bind, StateT.bind, hnext]

theorem pull_drained {steps : Nat} {feed rest : Walk × s}
    (h : Drained (carried (Walk.step files filter)) steps feed rest) {fuel : Nat}
    (hfuel : steps ≤ fuel) : Walk.pull files filter fuel 1 feed.1 feed.2 = rest := by
  simp only [Walk.pull, bind, StateT.bind, next_drained h hfuel]
  rfl

end Pulls

/-! ## The sink that keeps everything -/

theorem keep_accepts (kept records : List Record) :
    Sink.Accepts Sink.keep kept records (kept ++ records) := by
  induction records generalizing kept with
  | nil =>
    rw [List.append_nil]
    exact .nil
  | cons record records ih =>
    rw [List.append_cons]
    exact .cons rfl (ih (kept ++ [record]))

/-! ## Walks that are delivered -/

section Scans

variable {files : FileSystem Id} {filter : Filter} {root : Path}

/-- A delivery from a logged walk ends as that of its items does, and makes the calls of one
request more than there are accepted records. -/
theorem into_logged {σ : Type} {accept : Sink σ} {sink last : σ} {items : List Item}
    {accepted : Nat} {ending : Ending} {steps more fuel : Nat} {between rest : Walk}
    (hdraws : Draws (Walk.step files filter) steps (.ofRoot root) items between)
    (hend : Drained (Walk.step files filter) more between rest)
    (h : Delivered accept sink items accepted ending last) (hfuel : steps + more ≤ fuel)
    (log : List FileSystem.Call) :
    ∃ walk calls, Scan.into files.logged filter fuel root accept sink log =
        ((ending, walk, last), calls) ∧
      Walk.pull files.logged filter fuel (accepted + 1) (.ofRoot root) log = (walk, calls) := by
  cases h with
  | @complete read _ haccepts =>
    obtain ⟨middle, hlogged, hmiddle⟩ := hdraws.simulated (simulates_carried step_logged)
      (rfl : (Walk.ofRoot root, log).1 = .ofRoot root)
    obtain ⟨⟨walk, calls⟩, hlast, -⟩ := hend.simulated (simulates_carried step_logged) hmiddle
    refine ⟨walk, calls, run_carried (run_complete hlogged hlast haccepts hfuel), ?_⟩
    have hpull := pull_draws hlogged (by omega : steps ≤ fuel) 1
    rw [List.length_map] at hpull
    rw [hpull, pull_drained hlast (by omega)]
  | @failed read item behind _ _ _ haccepts hstops =>
    -- the item that ends the delivery is drawn with the accepted ones, what is behind it is not
    rw [List.append_cons] at hdraws
    obtain ⟨first, _, stop, rfl, hdraws, -⟩ := hdraws.split
    obtain ⟨⟨walk, calls⟩, hlogged, -⟩ := hdraws.simulated (simulates_carried step_logged)
      (rfl : (Walk.ofRoot root, log).1 = .ofRoot root)
    refine ⟨walk, calls, run_carried (run_failed hlogged haccepts hstops (by omega)), ?_⟩
    have hpull := pull_draws hlogged (by omega : first ≤ fuel) 0
    rw [List.length_append, List.length_map, Nat.add_zero] at hpull
    exact hpull

theorem records?_complete {read : List SourceFile} {steps more fuel : Nat} {between rest : Walk}
    (hdraws : Draws (Walk.step files filter) steps (.ofRoot root) (read.map .ok) between)
    (hend : Drained (Walk.step files filter) more between rest) (hfuel : steps + more ≤ fuel) :
    Scan.records? files filter fuel root = some (.ok (read.map .ofFile)) := by
  have hrun := run_complete hdraws hend (keep_accepts [] _) hfuel
  simp only [Scan.records?, Scan.into, hrun]
  rfl

theorem records?_failed {read : List SourceFile} {fault : Fault} {behind : List Item}
    {steps fuel : Nat} {between : Walk}
    (hdraws : Draws (Walk.step files filter) steps (.ofRoot root)
      (read.map .ok ++ .error fault :: behind) between) (hfuel : steps ≤ fuel) :
    Scan.records? files filter fuel root = some (.error fault) := by
  rw [List.append_cons] at hdraws
  obtain ⟨first, _, stop, rfl, hdraws, -⟩ := hdraws.split
  have hrun := run_failed hdraws (keep_accepts [] _) .fault (by omega : first ≤ fuel)
  simp only [Scan.records?, Scan.into, hrun]
  rfl

theorem failed_or_complete (items : List Item) :
    (∃ read : List SourceFile, items = read.map .ok) ∨
      ∃ (read : List SourceFile) (fault : Fault) (behind : List Item),
        items = read.map .ok ++ .error fault :: behind := by
  obtain ⟨_, _, _, h⟩ := Delivered.total Sink.keep items []
  cases h with
  | complete _ => exact .inl ⟨_, rfl⟩
  | failed _ hstops =>
    cases hstops with
    | fault => exact .inr ⟨_, _, _, rfl⟩
    | refused hfile => cases hfile

end Scans

/-- **A delivery stops at the first failure.** A row of items is delivered up to the first fault or
refusal, which is returned as it is, and no item behind it is taken. A delivery from the walk of a
finite tree ends as that of its items does, and makes the calls to the file system that asking for
one item more than there are accepted records makes. All the records of a tree are the records of
its files in the order of the walk, or there is none and the first fault of the walk. -/
theorem stops_at_first_failure (files : FileSystem Id) (filter : Filter) (root : Path)
    (finite : files.isFile root = false → Acc (Walk.Descends files filter.prunes) root) :
    (∀ (σ : Type) (accept : Sink σ) (items : List Item) (sink : σ), ∃ accepted ending last,
      Delivered accept sink items accepted ending last ∧
        ofList accept items sink = (ending, items.drop (accepted + 1), last)) ∧
    ∃ items, Walk.OfRoot files filter.wants filter.prunes root items ∧
      ∃ bound, ∀ fuel, bound ≤ fuel →
        (∀ calls, Walk.outcomes files filter fuel calls (.ofRoot root) =
          (items.map Outcome.item ++ List.replicate calls Outcome.finished).take calls) ∧
        (∀ (σ : Type) (accept : Sink σ) (sink : σ) (log : List FileSystem.Call),
          ∃ accepted ending last walk calls, Delivered accept sink items accepted ending last ∧
            Scan.into files.logged filter fuel root accept sink log = ((ending, walk, last), calls) ∧
            Walk.pull files.logged filter fuel (accepted + 1) (.ofRoot root) log = (walk, calls)) ∧
        (∀ found, Scan.records? files filter fuel root = some (.ok found) ↔
          ∃ read : List SourceFile, items = read.map .ok ∧ found = read.map .ofFile) ∧
        ∀ fault, Scan.records? files filter fuel root = some (.error fault) ↔
          ∃ (read : List SourceFile) (behind : List Item),
            items = read.map .ok ++ .error fault :: behind := by
  constructor
  · intro σ accept items sink
    obtain ⟨accepted, ending, last, h⟩ := Delivered.total accept items sink
    exact ⟨accepted, ending, last, h, ofList_eq h⟩
  obtain ⟨items, hitems⟩ : ∃ items, Walk.OfRoot files filter.wants filter.prunes root items :=
    Walk.exists_ofRoot root finite
  obtain ⟨bound, houtcomes⟩ := (Walk.ofRoot_yields hitems).outcomes_eq
  obtain ⟨steps, more, between, rest, hdraws, hend⟩ := yields_draws (Walk.ofRoot_yields hitems)
  refine ⟨items, hitems, max bound (steps + more), fun fuel hfuel => ?_⟩
  have hsteps : steps ≤ fuel := by omega
  have hall : steps + more ≤ fuel := by omega
  refine ⟨houtcomes fuel (by omega), fun σ accept sink log => ?_, fun found => ⟨fun h => ?_, ?_⟩,
    fun fault => ⟨fun h => ?_, ?_⟩⟩
  · obtain ⟨accepted, ending, last, h⟩ := Delivered.total accept items sink
    obtain ⟨walk, calls, hinto, hpull⟩ := into_logged hdraws hend h hall log
    exact ⟨accepted, ending, last, walk, calls, h, hinto, hpull⟩
  · obtain ⟨read, rfl⟩ | ⟨read, fault, behind, rfl⟩ := failed_or_complete items
    · rw [records?_complete hdraws hend hall] at h
      cases h
      exact ⟨read, rfl, rfl⟩
    · rw [records?_failed hdraws hsteps] at h
      cases h
  · rintro ⟨read, rfl, rfl⟩
    exact records?_complete hdraws hend hall
  · obtain ⟨read, rfl⟩ | ⟨read, fault, behind, rfl⟩ := failed_or_complete items
    · rw [records?_complete hdraws hend hall] at h
      cases h
    · rw [records?_failed hdraws hsteps] at h
      cases h
      exact ⟨read, behind, rfl⟩
  · rintro ⟨read, behind, rfl⟩
    exact records?_failed hdraws hsteps

/-- The fault of the first file ends the delivery: neither the directory nor the file behind it is
looked at. -/
theorem stops_at_first_failure_faultyTree :
    (Walk.faultyTree.isFile ⟨[0x72]⟩ = false ∧
      Acc (Walk.Descends Walk.faultyTree Walk.everyFile.prunes) ⟨[0x72]⟩) ∧
    ∃ fuel walk, Scan.into Walk.faultyTree.logged Walk.everyFile fuel ⟨[0x72]⟩ Sink.keep [] [] =
      ((.failed (.file .isDirectory), walk, []),
        [.isFile ⟨[0x72]⟩, .list ⟨[0x72]⟩, .read ⟨[0x72, 0x2F, 0x61]⟩]) := by
  have finite := Walk.acc_faultyTree Walk.everyFile.prunes
  obtain ⟨-, items, hitems, bound, hall⟩ :=
    stops_at_first_failure Walk.faultyTree Walk.everyFile ⟨[0x72]⟩ fun _ => finite
  have hread := Walk.OfRoot.unique (.listed rfl rfl (.wanted (by decide) (.unlisted (by decide) rfl
    (.wanted (by decide) .nil)))) hitems
  subst hread
  obtain ⟨-, hinto, -, -⟩ := hall (bound + 2) (by omega)
  obtain ⟨accepted, ending, last, walk, calls, h, hrun, hpull⟩ := hinto _ Sink.keep [] []
  have hlist : (Ending.failed (.file .isDirectory), _, []) = _ := ofList_eq h
  simp only [Prod.mk.injEq] at hlist
  obtain ⟨hending, hbehind, hlast⟩ := hlist
  have hone : accepted = 0 := by
    have hlength := congrArg List.length hbehind
    rw [List.length_drop] at hlength
    change 2 = 3 - (accepted + 1) at hlength
    omega
  subst hone hending hlast
  cases hpull
  exact ⟨⟨rfl, finite⟩, bound + 2, _, hrun⟩

end Delivery

end SourceMetrics
