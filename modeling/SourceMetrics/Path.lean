import SourceMetrics.Sequence
import SourceMetrics.Text.Utf8

/-! # Paths

A path is a sequence of bytes with slashes between its names. It need not be valid UTF-8: its text
has a replacement character for each maximal invalid part. -/

namespace SourceMetrics

set_option autoImplicit false

/-- A path as the bytes by which it was given. -/
structure Path where
  bytes : List UInt8
deriving DecidableEq, Repr, Inhabited

namespace Path

abbrev Name := List UInt8

/-- The byte between two names. -/
def slash : UInt8 := 0x2F

/-- The name of the directory itself. -/
def here : Name := [0x2E]

/-- The name of the directory above. -/
def above : Name := [0x2E, 0x2E]

def ofText (text : String) : Path :=
  ⟨Utf8.encode text.toList⟩

def toText (path : Path) : String :=
  String.ofList (Utf8.decodeLossy path.bytes)

/-- The text of a path with slashes in place of backslashes, as patterns see it. -/
def normalized (path : Path) : List Char :=
  (Utf8.decodeLossy path.bytes).map fun c => if c = '\\' then '/' else c

/-- The path of an entry of a directory. A slash is put between them unless the path of the
directory is empty or has one at its end. -/
def join (directory : Path) (name : Name) : Path :=
  match directory.bytes.getLast? with
  | none => ⟨name⟩
  | some last =>
    if last = slash then ⟨directory.bytes ++ name⟩ else ⟨directory.bytes ++ slash :: name⟩

/-- Whether the path starts at the root of the file system. -/
def isAbsolute (path : Path) : Bool :=
  path.bytes.head? == some slash

/-- The names on a path. A single dot counts only at the start. -/
def names (path : Path) : List Name :=
  match Text.split slash path.bytes with
  | [] => []
  | first :: rest =>
    (if first.isEmpty then [] else [first]) ++ rest.filter fun name => !name.isEmpty && name != here

/-- The path with the given names. -/
def ofNames (absolute : Bool) (found : List Name) : Path :=
  ⟨(if absolute then [slash] else []) ++ [slash].intercalate found⟩

/-- What is left of a row when its first item is taken away, again and again. -/
def shortened {α : Type} : List α → List (List α)
  | [] => []
  | _ :: rest => rest :: shortened rest

/-- The paths of the directories above a path, the nearest one first. -/
def parents (path : Path) : List Path :=
  (shortened path.names.reverse).map fun found => ofNames path.isAbsolute found.reverse

end Path

end SourceMetrics
