/-! # Sequences

`split` cuts a sequence at each separator, and `occurs` searches for a contiguous part. Both work
on any sequence: texts are cut at commas and line feeds, paths (sequences of bytes) at slashes.
`total` adds up what the items of a sequence count for. -/

namespace SourceMetrics

set_option autoImplicit false

namespace Text

variable {α : Type} [DecidableEq α]

/-- The parts of a sequence between its separators. There is one more part than separators. -/
def split (separator : α) : List α → List (List α)
  | [] => [[]]
  | a :: rest =>
    if a = separator then [] :: split separator rest
    else
      match split separator rest with
      | [] => [[a]]
      | first :: others => (a :: first) :: others

/-- Whether `needle` stands somewhere in the sequence as a contiguous part. -/
def occurs (needle : List α) : List α → Bool
  | [] => needle.isEmpty
  | a :: rest => needle.isPrefixOf (a :: rest) || occurs needle rest

end Text

/-- The sum over the items of a list of what each of them counts for. -/
def total {α : Type} (count : α → Nat) : List α → Nat
  | [] => 0
  | item :: items => count item + total count items

end SourceMetrics
