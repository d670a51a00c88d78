import SourceMetrics.Walk

/-! # Deliveries

A delivery takes items from a feed one at a time, measures each file, and hands the record on to
a sink. It stops at the first item that is a fault, and at the first record that the sink refuses;
what is behind it stays in the feed. -/

namespace SourceMetrics

set_option autoImplicit false

inductive Ending where
  /-- Every file was measured and handed on; there were this many. -/
  | complete (count : Nat)
  /-- An item was a fault, or the sink refused a record. -/
  | failed (fault : Fault)
  /-- The steps that it was allowed to take were used up. -/
  | unfinished
deriving DecidableEq, Repr

/-- What takes up records: a record is accepted, or refused with a fault. Either way it may have
changed. -/
abbrev Sink (σ : Type) := σ → Record → Except Fault Unit × σ

namespace Delivery

variable {m : Type → Type} [Monad m] {φ σ : Type}

/-- Delivers what a feed yields to a sink that has accepted `count` records, in at most `fuel`
steps: how it ended, what is left of the feed, and what has become of the sink. -/
@[specialize]
def run (step : φ → m (Outcome × φ)) (accept : Sink σ) :
    (fuel : Nat) → (count : Nat) → φ → σ → m (Ending × φ × σ)
  | 0, _, feed, sink => return (.unfinished, feed, sink)
  | fuel + 1, count, feed, sink => do
    match ← step feed with
    | (.quiet, feed) => run step accept fuel count feed sink
    | (.finished, feed) => return (.complete count, feed, sink)
    | (.item (.error fault), feed) => return (.failed fault, feed, sink)
    | (.item (.ok file), feed) =>
      match accept sink (.ofFile file) with
      | (.error fault, sink) => return (.failed fault, feed, sink)
      | (.ok (), sink) => run step accept fuel (count + 1) feed sink

def stepList (items : List Item) : Id (Outcome × List Item) :=
  match items with
  | [] => (.finished, [])
  | item :: rest => (.item item, rest)

def ofList (accept : Sink σ) (items : List Item) (sink : σ) : Ending × List Item × σ :=
  run (m := Id) stepList accept (items.length + 1) 0 items sink

end Delivery

namespace Sink

/-- The sink that accepts every record and keeps it behind the others. -/
def keep : Sink (List Record) := fun records record =>
  (.ok (), records ++ [record])

/-- The sink that keeps so many records and refuses any further one. -/
def keepUpTo (count : Nat) (refusal : Fault) : Sink (List Record) := fun records record =>
  if records.length = count then (.error refusal, records) else (.ok (), records ++ [record])

end Sink

namespace Scan

variable {m : Type → Type} [Monad m] {σ : Type}

/-- Delivers the files below a root to a sink. -/
def into (files : FileSystem m) (filter : Filter) (fuel : Nat) (root : Path) (accept : Sink σ)
    (sink : σ) : m (Ending × Walk × σ) :=
  Delivery.run (Walk.step files filter) accept fuel 0 (.ofRoot root) sink

/-- The records of the files below a root, or the first fault; nothing if the steps are used up. -/
def records? (files : FileSystem m) (filter : Filter) (fuel : Nat) (root : Path) :
    m (Option (Except Fault (List Record))) := do
  match ← into files filter fuel root Sink.keep [] with
  | (.complete _, _, found) => return some (.ok found)
  | (.failed fault, _, _) => return some (.error fault)
  | (.unfinished, _, _) => return none

end Scan

end SourceMetrics
