import SourceMetrics.Glob.Piece
import SourceMetrics.Path

/-! # Matching globs

Globs are matched against the bytes of a path, from the end of the glob to its start. Some places of
the path are marked: at first only its end. Each part of the glob moves the marks to the places from
which it can get to a marked place, and the glob matches if the start of the path is marked at
last. -/

namespace SourceMetrics.Glob

set_option autoImplicit false

open SourceMetrics.Path (slash)

/-- Marks on the places of some bytes: the place in front of each byte, and the one behind the last
byte. -/
abbrev Marks := List Bool

namespace Marks

/-- The mark behind the last byte alone. -/
def atEnd (bytes : List UInt8) : Marks :=
  bytes.foldr (fun _ marks => false :: marks) [true]

def nowhere (bytes : List UInt8) : Marks :=
  bytes.foldr (fun _ marks => false :: marks) [false]

def first (marks : Marks) : Bool :=
  marks.headD false

/-- The places that are marked in one way or the other. -/
def either (a b : Marks) : Marks :=
  a.zipWith (· || ·) b

/-- The places with one byte of a kind between them and a marked place. -/
def beforeOne (kind : UInt8 → Bool) : List UInt8 → Marks → Marks
  | [], _ => [false]
  | byte :: rest, marks =>
    (kind byte && first marks.tail) :: beforeOne kind rest marks.tail

/-- The places with nothing but bytes of a kind, or nothing, between them and a marked place. -/
def beforeMany (kind : UInt8 → Bool) : List UInt8 → Marks → Marks
  | [], marks => [first marks]
  | byte :: rest, marks =>
    let later := beforeMany kind rest marks.tail
    (first marks || kind byte && first later) :: later

end Marks

open Marks

/-- The ranges of bytes that a range of characters stands for: each byte of its ends, and all bytes
from the last one of its lower end to the first one of its upper end. -/
def byteRanges (low high : Char) : List (UInt8 × UInt8) :=
  let single (byte : UInt8) : UInt8 × UInt8 := (byte, byte)
  if low = high then (String.utf8EncodeChar low).map single
  else
    match (String.utf8EncodeChar low).reverse, String.utf8EncodeChar high with
    | last :: others, first :: rest =>
      others.reverse.map single ++ (last, first) :: rest.map single
    | _, _ => []

/-- Whether a byte is one of those that ranges of characters stand for. -/
def isInRanges (ranges : List (Char × Char)) (byte : UInt8) : Bool :=
  (ranges.flatMap fun range => byteRanges range.1 range.2).any fun range =>
    range.1 ≤ byte && byte ≤ range.2

/-- The places from which a part gets to a marked place. -/
def Atom.before (part : Atom) (bytes : List UInt8) (marks : Marks) : Marks :=
  let beforeSlash := beforeOne (· == slash) bytes
  let beforeAny := beforeMany (fun _ => true) bytes
  match part with
  | .literal c =>
    (String.utf8EncodeChar c).foldr (fun byte marks => beforeOne (· == byte) bytes marks) marks
  | .any => beforeOne (· != slash) bytes marks
  | .star => beforeMany (· != slash) bytes marks
  | .set negated ranges => beforeOne (fun byte => isInRanges ranges byte != negated) bytes marks
  | .leading => either marks (beforeAny (beforeSlash marks))
  | .between => beforeSlash (either marks (beforeAny (beforeSlash marks)))
  | .trailing => beforeSlash (beforeAny marks)
  | .anything => beforeAny marks

mutual

/-- The places from which a piece gets to a marked place. -/
def Piece.before (bytes : List UInt8) (marks : Marks) : Piece → Marks
  | .atom part => part.before bytes marks
  | .choice [] => marks
  | .choice (row :: rows) => either (rowBefore bytes marks row) (rowsBefore bytes marks rows)

/-- The places from which a row of pieces gets to a marked place. -/
def rowBefore (bytes : List UInt8) (marks : Marks) : List Piece → Marks
  | [] => marks
  | piece :: row => piece.before bytes (rowBefore bytes marks row)

/-- The places from which one of several rows of pieces gets to a marked place. -/
def rowsBefore (bytes : List UInt8) (marks : Marks) : List (List Piece) → Marks
  | [] => nowhere bytes
  | row :: rows => either (rowBefore bytes marks row) (rowsBefore bytes marks rows)

end

/-- Whether a glob matches the bytes of a whole path. -/
def accepts (glob : Glob) (bytes : List UInt8) : Bool :=
  first (rowBefore bytes (atEnd bytes) glob.pieces)

end SourceMetrics.Glob
