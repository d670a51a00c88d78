import SourceMetrics.Delivery

/-! # What becomes of a delivery

A delivery is described without its steps: which records the sink takes up, and which item ends it.

* `Draws`, `Drained`: the items that a feed yields in so many steps, and its end.
* `Simulates`: a feed steps as another one does, so it yields the same.
* `Delivered`: what becomes of a row of items, by the first item that ends the delivery.
* `run_draws`, `run_stops`, `run_drained`: what a run does with the items that a feed yields. The
  inductions are on the steps of the feed.
* `ofList_eq`: a row is delivered as described. -/

namespace SourceMetrics

set_option autoImplicit false

/-! ## Sinks -/

section Sinks

variable {σ : Type}

/-- The sink accepts some records one after the other and then stands at `last`. -/
inductive Sink.Accepts (accept : Sink σ) : σ → List Record → σ → Prop
  | nil {sink : σ} : Accepts accept sink [] sink
  | cons {sink next last : σ} {record : Record} {records : List Record} :
      accept sink record = (.ok (), next) → Accepts accept next records last →
      Accepts accept sink (record :: records) last

/-- An item ends the delivery with a fault: it is that fault, or a file whose record the sink
refuses with it. -/
inductive Sink.Stops (accept : Sink σ) (sink : σ) : Item → Fault → σ → Prop
  | fault {fault : Fault} : Stops accept sink (.error fault) fault sink
  | refused {file : SourceFile} {fault : Fault} {last : σ} :
      accept sink (.ofFile file) = (.error fault, last) → Stops accept sink (.ok file) fault last

/-- What becomes of a row of items that are delivered one after the other: how many records the
sink accepts, how the delivery ends, and where the sink then stands. -/
inductive Delivered (accept : Sink σ) (sink : σ) : List Item → Nat → Ending → σ → Prop
  | complete {files : List SourceFile} {last : σ} :
      Sink.Accepts accept sink (files.map .ofFile) last →
      Delivered accept sink (files.map .ok) files.length (.complete files.length) last
  | failed {read : List SourceFile} {item : Item} {behind : List Item} {fault : Fault}
      {reached last : σ} :
      Sink.Accepts accept sink (read.map .ofFile) reached →
      Sink.Stops accept reached item fault last →
      Delivered accept sink (read.map .ok ++ item :: behind) read.length (.failed fault) last

namespace Delivered

variable {accept : Sink σ}

/-- An accepted record in front. -/
theorem cons {sink next last : σ} {file : SourceFile} {items : List Item} {ending : Ending}
    {accepted : Nat} (hfile : accept sink (.ofFile file) = (.ok (), next))
    (h : Delivered accept next items accepted ending last) :
    ∃ later, Delivered accept sink (.ok file :: items) (accepted + 1) later last := by
  cases h with
  | @complete files _ haccepts =>
    have hwhole : Delivered accept sink ((file :: files).map .ok) _ _ last :=
      .complete (.cons hfile haccepts)
    exact ⟨_, hwhole⟩
  | @failed read item behind _ _ _ haccepts hstops =>
    have hwhole : Delivered accept sink ((file :: read).map .ok ++ item :: behind) _ _ last :=
      .failed (.cons hfile haccepts) hstops
    exact ⟨_, hwhole⟩

theorem total (accept : Sink σ) (items : List Item) (sink : σ) :
    ∃ accepted ending last, Delivered accept sink items accepted ending last := by
  induction items generalizing sink with
  | nil =>
    have hnil : Delivered accept sink (List.map .ok []) _ _ sink := .complete .nil
    exact ⟨_, _, _, hnil⟩
  | cons item items ih =>
    cases item with
    | error fault =>
      have hfault : Delivered accept sink (List.map .ok [] ++ .error fault :: items) _ _ sink :=
        .failed .nil .fault
      exact ⟨_, _, _, hfault⟩
    | ok file =>
      obtain ⟨⟨answer, next⟩, hfile⟩ : ∃ found, accept sink (.ofFile file) = found := ⟨_, rfl⟩
      cases answer with
      | error fault =>
        have hrefused : Delivered accept sink (List.map .ok [] ++ .ok file :: items) _ _ next :=
          .failed .nil (.refused hfile)
        exact ⟨_, _, _, hrefused⟩
      | ok _ =>
        obtain ⟨accepted, _, last, h⟩ := ih next
        obtain ⟨later, h⟩ := h.cons hfile
        exact ⟨accepted + 1, later, last, h⟩

end Delivered

end Sinks

namespace Delivery

/-! ## Feeds -/

section Feeds

variable {φ : Type}

/-- In so many steps a feed yields some items, the last one in the last step. -/
inductive Draws (step : φ → Id (Outcome × φ)) : Nat → φ → List Item → φ → Prop
  | nil {feed : φ} : Draws step 0 feed [] feed
  | quiet {steps : Nat} {feed later rest : φ} {item : Item} {items : List Item} :
      step feed = (.quiet, later) → Draws step steps later (item :: items) rest →
      Draws step (steps + 1) feed (item :: items) rest
  | item {steps : Nat} {feed later rest : φ} {item : Item} {items : List Item} :
      step feed = (.item item, later) → Draws step steps later items rest →
      Draws step (steps + 1) feed (item :: items) rest

/-- In so many steps a feed finds that there is nothing more to yield. -/
inductive Drained (step : φ → Id (Outcome × φ)) : Nat → φ → φ → Prop
  | finished {feed rest : φ} : step feed = (.finished, rest) → Drained step 1 feed rest
  | quiet {steps : Nat} {feed later rest : φ} : step feed = (.quiet, later) →
      Drained step steps later rest → Drained step (steps + 1) feed rest

variable {step : φ → Id (Outcome × φ)}

theorem Draws.uncons {steps : Nat} {feed rest : φ} {item : Item} {items : List Item}
    (h : Draws step steps feed (item :: items) rest) :
    ∃ first behind between, steps = first + behind ∧ Draws step first feed [item] between ∧
      Draws step behind between items rest := by
  generalize hrow : item :: items = row at h
  induction h with
  | nil => cases hrow
  | quiet hs _ ih =>
    cases hrow
    obtain ⟨first, behind, between, rfl, hfirst, hbehind⟩ := ih rfl
    exact ⟨first + 1, behind, between, by omega, .quiet hs hfirst, hbehind⟩
  | item hs h =>
    cases hrow
    exact ⟨1, _, _, by omega, .item hs .nil, h⟩

theorem Draws.append {steps more : Nat} {feed between rest : φ} {items later : List Item}
    (h : Draws step steps feed items between) (h' : Draws step more between later rest) :
    Draws step (steps + more) feed (items ++ later) rest := by
  induction h with
  | nil =>
    rw [Nat.zero_add]
    exact h'
  | quiet hs _ ih =>
    rw [Nat.add_right_comm]
    exact .quiet hs (ih h')
  | item hs _ ih =>
    rw [Nat.add_right_comm]
    exact .item hs (ih h')

/-- A row is drawn part by part. -/
theorem Draws.split {steps : Nat} {feed rest : φ} (items : List Item) {later : List Item}
    (h : Draws step steps feed (items ++ later) rest) :
    ∃ first behind between, steps = first + behind ∧ Draws step first feed items between ∧
      Draws step behind between later rest := by
  induction items generalizing steps feed with
  | nil => exact ⟨0, steps, feed, by omega, .nil, h⟩
  | cons item items ih =>
    obtain ⟨one, more, between, rfl, hone, hmore⟩ := h.uncons
    obtain ⟨first, behind, middle, rfl, hfirst, hbehind⟩ := ih hmore
    exact ⟨one + first, behind, middle, by omega, hone.append hfirst, hbehind⟩

/-- A second feed yields what a first one yields, as long as the two belong together. -/
def Simulates {ψ : Type} (step' : ψ → Id (Outcome × ψ)) (step : φ → Id (Outcome × φ))
    (together : φ → ψ → Prop) : Prop :=
  ∀ feed other outcome later, together feed other → step feed = (outcome, later) →
    ∃ after, step' other = (outcome, after) ∧ together later after

section Simulations

variable {ψ : Type} {step' : ψ → Id (Outcome × ψ)} {together : φ → ψ → Prop}
  (simulates : Simulates step' step together)

include simulates

theorem Draws.simulated {steps : Nat} {feed rest : φ} {items : List Item}
    (h : Draws step steps feed items rest) {other : ψ} (hother : together feed other) :
    ∃ last, Draws step' steps other items last ∧ together rest last := by
  induction h generalizing other with
  | nil => exact ⟨other, .nil, hother⟩
  | quiet hs _ ih =>
    obtain ⟨after, hafter, hlater⟩ := simulates _ _ _ _ hother hs
    obtain ⟨last, hdraws, hlast⟩ := ih hlater
    exact ⟨last, .quiet hafter hdraws, hlast⟩
  | item hs _ ih =>
    obtain ⟨after, hafter, hlater⟩ := simulates _ _ _ _ hother hs
    obtain ⟨last, hdraws, hlast⟩ := ih hlater
    exact ⟨last, .item hafter hdraws, hlast⟩

theorem Drained.simulated {steps : Nat} {feed rest : φ} (h : Drained step steps feed rest)
    {other : ψ} (hother : together feed other) :
    ∃ last, Drained step' steps other last ∧ together rest last := by
  induction h generalizing other with
  | finished hs =>
    obtain ⟨after, hafter, hlater⟩ := simulates _ _ _ _ hother hs
    exact ⟨after, .finished hafter, hlater⟩
  | quiet hs _ ih =>
    obtain ⟨after, hafter, hlater⟩ := simulates _ _ _ _ hother hs
    obtain ⟨last, hend, hlast⟩ := ih hlater
    exact ⟨last, .quiet hafter hend, hlast⟩

end Simulations

end Feeds

/-! ## Runs -/

section Runs

variable {φ σ : Type} {step : φ → Id (Outcome × φ)} {accept : Sink σ}

theorem bind_id {α β : Type} (action : Id α) (next : α → Id β) :
    (action >>= next) = next action :=
  rfl

theorem run_quiet {feed later : φ} (h : step feed = (.quiet, later)) (fuel count : Nat) (sink : σ) :
    run step accept (fuel + 1) count feed sink = run step accept fuel count later sink := by
  simp only [run, h]
  rfl

theorem run_accepted {feed later : φ} {file : SourceFile} {sink next : σ}
    (h : step feed = (.item (.ok file), later))
    (hfile : accept sink (.ofFile file) = (.ok (), next)) (fuel count : Nat) :
    run step accept (fuel + 1) count feed sink = run step accept fuel (count + 1) later next := by
  rw [run, bind_id, h]
  dsimp only
  rw [hfile]

theorem run_refused {feed later : φ} {file : SourceFile} {fault : Fault} {sink last : σ}
    (h : step feed = (.item (.ok file), later))
    (hfile : accept sink (.ofFile file) = (.error fault, last)) (fuel count : Nat) :
    run step accept (fuel + 1) count feed sink = (.failed fault, later, last) := by
  rw [run, bind_id, h]
  dsimp only
  rw [hfile]
  rfl

/-- A delivery that has ended takes no more steps than it has taken. -/
theorem run_add {fuel count : Nat} {feed rest : φ} {sink last : σ} {ending : Ending}
    (h : run step accept fuel count feed sink = (ending, rest, last)) (hend : ending ≠ .unfinished)
    (more : Nat) : run step accept (fuel + more) count feed sink = (ending, rest, last) := by
  induction fuel generalizing count feed sink with
  | zero =>
    cases h
    exact absurd rfl hend
  | succ fuel ih =>
    obtain ⟨⟨outcome, later⟩, hs⟩ : ∃ found, step feed = found := ⟨_, rfl⟩
    rw [Nat.add_right_comm]
    cases outcome with
    | quiet =>
      rw [run_quiet hs] at h ⊢
      exact ih h
    | finished =>
      simp only [run, hs] at h ⊢
      exact h
    | item found =>
      cases found with
      | error fault =>
        simp only [run, hs] at h ⊢
        exact h
      | ok file =>
        obtain ⟨⟨answer, next⟩, hfile⟩ : ∃ found, accept sink (.ofFile file) = found := ⟨_, rfl⟩
        cases answer with
        | error fault =>
          rw [run_refused hs hfile] at h ⊢
          exact h
        | ok _ =>
          rw [run_accepted hs hfile] at h ⊢
          exact ih h

/-- The records of the items that a feed yields are handed on one after the other. -/
theorem run_draws {steps : Nat} {feed rest : φ} {files : List SourceFile} {sink last : σ}
    (h : Draws step steps feed (files.map .ok) rest)
    (haccepts : Sink.Accepts accept sink (files.map .ofFile) last) (fuel count : Nat) :
    run step accept (steps + fuel) count feed sink =
      run step accept fuel (count + files.length) rest last := by
  generalize hrow : files.map Except.ok = items at h
  induction h generalizing files sink count with
  | nil =>
    obtain rfl := List.map_eq_nil_iff.mp hrow
    cases haccepts
    rw [Nat.zero_add]
    rfl
  | quiet hs _ ih =>
    rw [Nat.add_right_comm, run_quiet hs]
    exact ih haccepts count hrow
  | item hs _ ih =>
    obtain ⟨file, behind, rfl, rfl, hbehind⟩ := List.map_eq_cons_iff.mp hrow
    cases haccepts with
    | cons hfile haccepts =>
      rw [Nat.add_right_comm, run_accepted hs hfile, ih haccepts (count + 1) hbehind]
      rw [List.length_cons, Nat.add_right_comm, Nat.add_assoc]

/-- The first item that ends the delivery is the last one that is taken from the feed. -/
theorem run_stops {steps : Nat} {feed rest : φ} {item : Item} {fault : Fault} {sink last : σ}
    (h : Draws step steps feed [item] rest) (hstops : Sink.Stops accept sink item fault last)
    (fuel count : Nat) :
    run step accept (steps + fuel) count feed sink = (.failed fault, rest, last) := by
  generalize hrow : [item] = items at h
  induction h with
  | nil => cases hrow
  | quiet hs _ ih =>
    cases hrow
    rw [Nat.add_right_comm, run_quiet hs]
    exact ih rfl
  | item hs hnil =>
    cases hrow
    cases hnil
    rw [Nat.add_right_comm]
    cases hstops with
    | fault =>
      simp only [run, hs]
      rfl
    | refused hfile => exact run_refused hs hfile _ count

theorem run_drained {steps : Nat} {feed rest : φ} (h : Drained step steps feed rest)
    (fuel count : Nat) (sink : σ) :
    run step accept (steps + fuel) count feed sink = (.complete count, rest, sink) := by
  induction h with
  | finished hs =>
    rw [Nat.add_comm]
    simp only [run, hs]
    rfl
  | quiet hs _ ih =>
    rw [Nat.add_right_comm, run_quiet hs]
    exact ih

/-- A feed of files whose records are all accepted is delivered to its end. -/
theorem run_complete {steps more : Nat} {feed between rest : φ} {files : List SourceFile}
    {sink last : σ} (h : Draws step steps feed (files.map .ok) between)
    (hend : Drained step more between rest)
    (haccepts : Sink.Accepts accept sink (files.map .ofFile) last) {fuel : Nat}
    (hfuel : steps + more ≤ fuel) :
    run step accept fuel 0 feed sink = (.complete files.length, rest, last) := by
  obtain ⟨extra, rfl⟩ := Nat.exists_eq_add_of_le hfuel
  rw [Nat.add_assoc, run_draws h haccepts, run_drained hend, Nat.zero_add]

/-- A delivery takes nothing from its feed behind the item that ends it. -/
theorem run_failed {steps : Nat} {feed rest : φ} {read : List SourceFile} {item : Item}
    {fault : Fault} {sink reached last : σ}
    (h : Draws step steps feed (read.map .ok ++ [item]) rest)
    (haccepts : Sink.Accepts accept sink (read.map .ofFile) reached)
    (hstops : Sink.Stops accept reached item fault last) {fuel : Nat} (hfuel : steps ≤ fuel) :
    run step accept fuel 0 feed sink = (.failed fault, rest, last) := by
  obtain ⟨first, behind, between, rfl, hread, hitem⟩ := h.split
  obtain ⟨extra, rfl⟩ := Nat.exists_eq_add_of_le hfuel
  rw [Nat.add_assoc, run_draws hread haccepts, run_stops hitem hstops]

end Runs

/-! ## Rows -/

section Rows

variable {σ : Type} {accept : Sink σ}

theorem draws_stepList (items behind : List Item) :
    Draws stepList items.length (items ++ behind) items behind := by
  induction items with
  | nil => exact .nil
  | cons item items ih => exact .item rfl ih

/-- A row of items is delivered as described. One item more than there are accepted records is
taken from it, if there is one. -/
theorem ofList_eq {items : List Item} {accepted : Nat} {ending : Ending} {sink last : σ}
    (h : Delivered accept sink items accepted ending last) :
    ofList accept items sink = (ending, items.drop (accepted + 1), last) := by
  cases h with
  | @complete files _ haccepts =>
    have hdraws := draws_stepList (files.map .ok) []
    rw [List.append_nil] at hdraws
    have hnone : (files.map (Except.ok (ε := Fault))).drop (files.length + 1) = [] :=
      List.drop_of_length_le (by rw [List.length_map]; omega)
    rw [hnone]
    exact run_complete hdraws (.finished rfl) haccepts (Nat.le_refl _)
  | @failed read item behind _ _ _ haccepts hstops =>
    have hdraws := draws_stepList (read.map .ok ++ [item]) behind
    have hfuel : (read.map Except.ok ++ [item]).length ≤
        (read.map Except.ok ++ item :: behind).length + 1 := by
      simp only [List.length_append, List.length_cons, List.length_nil]
      omega
    have hbehind : (read.map Except.ok ++ item :: behind).drop (read.length + 1) = behind := by
      have hlength : (read.map (Except.ok (ε := Fault))).length = read.length := List.length_map _
      rw [← hlength, List.drop_length_add_append]
      rfl
    rw [List.append_assoc, List.singleton_append] at hdraws
    rw [hbehind]
    exact run_failed hdraws haccepts hstops hfuel

end Rows

end Delivery

end SourceMetrics
