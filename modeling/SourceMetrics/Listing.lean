import SourceMetrics.FileSystem

/-! # Listings

What is listed of a directory: the entries that are not hidden, in the order of the bytes of their
names. The order in which they were found does not show. A machine finds the entries in an order of its
own; its file system lists them. -/

namespace SourceMetrics

set_option autoImplicit false

namespace Listing

/-- Whether a name is hidden: it is valid UTF-8 and starts with a dot. -/
def isHidden (name : Path.Name) : Bool :=
  (Utf8.decode? name).any fun text => text.head? == some '.'

/-- The listing of a directory in which entries with the given names were found. -/
def ofFound (directory : Path) (found : List (Path.Name × Entry.Kind)) : List Entry :=
  let visible := found.filter fun entry => !isHidden entry.1
  (visible.mergeSort fun a b => a.1 ≤ b.1).map fun entry => ⟨directory.join entry.1, entry.2⟩

end Listing

/-- What a machine that answers in a monad tells about its files. -/
structure Machine (m : Type → Type) where
  isFile : Path → m Bool
  /-- The entries of a directory in the order in which they are enumerated. -/
  found : Path → m (Except FileFault (List (Path.Name × Entry.Kind)))
  read : Path → m (Except Fault String)

/-- The file system of a machine. -/
def Machine.files {m : Type → Type} [Monad m] (machine : Machine m) : FileSystem m where
  isFile := machine.isFile
  list path := do
    return ((← machine.found path).map (Listing.ofFound path)).mapError .file
  read := machine.read

end SourceMetrics
