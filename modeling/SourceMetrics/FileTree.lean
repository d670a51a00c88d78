import SourceMetrics.Listing

/-! # File trees

A file system in memory: numbered directories, each with the objects that stand in it. A path is
followed name by name from the working directory or from the root; links on the way are followed
too. A slash at the end of a path asks for a directory, as a single dot does. -/

namespace SourceMetrics

set_option autoImplicit false

open SourceMetrics.Path (Name)

/-- What can stand under a name in a directory. -/
inductive FileTree.Object where
  | file (content : List UInt8)
  /-- The directory with the given number. -/
  | directory (number : Nat)
  | link (target : Path)
deriving DecidableEq, Repr, Inhabited

structure FileTree.Directory where
  /-- The number of the directory in which it stands. The root stands in itself. -/
  above : Nat
  entries : List (Name × FileTree.Object)
deriving DecidableEq, Repr, Inhabited

/-- A file system in memory. -/
structure FileTree where
  /-- The directories in the order of their numbers. The root has the number 0. -/
  directories : Array FileTree.Directory
  /-- The number of the working directory, where paths that do not start with a slash start. -/
  home : Nat
deriving DecidableEq, Repr

namespace FileTree

/-- The tree of a root in which nothing stands. -/
def empty : FileTree :=
  ⟨#[⟨0, []⟩], 0⟩

def entries (tree : FileTree) (number : Nat) : List (Name × Object) :=
  match tree.directories[number]? with
  | some directory => directory.entries
  | none => []

/-- The directory in which a directory stands. -/
def above (tree : FileTree) (number : Nat) : Nat :=
  match tree.directories[number]? with
  | some directory => directory.above
  | none => number

/-- What stands in a directory under a name, if anything does. -/
def object? (tree : FileTree) (number : Nat) (name : Name) : Option Object :=
  (tree.entries number).lookup name

/-- The tree with an object in a directory under a name, in place of what stood there. -/
def put (tree : FileTree) (number : Nat) (name : Name) (object : Object) : FileTree :=
  let changed := (name, object) :: (tree.entries number).filter (·.1 != name)
  { tree with directories := tree.directories.setIfInBounds number ⟨tree.above number, changed⟩ }

/-- The tree with a new directory in a directory under a name. -/
def putDirectory (tree : FileTree) (number : Nat) (name : Name) : FileTree :=
  let changed := tree.put number name (.directory tree.directories.size)
  { changed with directories := changed.directories.push ⟨number, []⟩ }

/-! ## Following paths -/

/-- How many links may be followed on the way along one path. -/
def linkLimit : Nat := 40

def nameLimit : Nat := 255

def pathLimit : Nat := 4095

inductive Purpose where
  /-- For what stands at its end. -/
  | find
  /-- For a file at its end, which need not be there yet. -/
  | write
deriving DecidableEq, Repr

inductive Destination where
  | directory (number : Nat)
  /-- At a file with the given content, which stands in a directory under a name. -/
  | file (number : Nat) (name : Name) (content : List UInt8)
  /-- At a name under which nothing stands in a directory. -/
  | vacant (number : Nat) (name : Name)
deriving DecidableEq, Repr

/-- The names on a path, if it may be followed. -/
def route (path : Path) : Except FileFault (List Name) :=
  if path.bytes.contains 0 then .error .zeroByte
  else if path.bytes.isEmpty then .error .notFound
  else if pathLimit < path.bytes.length then .error .nameTooLong
  else .ok (Text.split Path.slash path.bytes)

/-- Where a path starts that is followed from a directory. -/
def start (path : Path) (number : Nat) : Nat :=
  if path.isAbsolute then 0 else number

/-- Where names lead from a directory. What comes of a link is decided by `onLink`, from the
directory in which its target starts and the names of the target and behind the link. -/
def followWith (tree : FileTree) (purpose : Purpose)
    (onLink : Nat → List Name → Except FileFault Destination) :
    Nat → List Name → Except FileFault Destination
  | number, [] => .ok (.directory number)
  | number, name :: rest =>
    if name.isEmpty || name == Path.here then followWith tree purpose onLink number rest
    else if name == Path.above then followWith tree purpose onLink (tree.above number) rest
    else if purpose = .write ∧ !rest.isEmpty ∧ rest.all List.isEmpty then .error .isDirectory
    else if nameLimit < name.length then .error .nameTooLong
    else
      match tree.object? number name with
      | some (.directory inner) => followWith tree purpose onLink inner rest
      | some (.link target) =>
        onLink (start target number) (Text.split Path.slash target.bytes ++ rest)
      | some (.file content) =>
        if rest.isEmpty then .ok (.file number name content) else .error .notDirectory
      | none =>
        if purpose = .write ∧ rest.isEmpty then .ok (.vacant number name) else .error .notFound

/-- Where names lead from a directory, when `links` links may be followed. -/
def follow (tree : FileTree) (purpose : Purpose) :
    (links : Nat) → Nat → List Name → Except FileFault Destination
  | 0 => followWith tree purpose fun _ _ => .error .tooManyLinks
  | links + 1 => followWith tree purpose (follow tree purpose links)

/-- Where a path leads. -/
def locate (tree : FileTree) (purpose : Purpose) (path : Path) : Except FileFault Destination := do
  tree.follow purpose linkLimit (start path tree.home) (← route path)

/-! ## Looking -/

def isFile (tree : FileTree) (path : Path) : Bool :=
  match tree.locate .find path with
  | .ok (.file ..) => true
  | _ => false

def isDirectory (tree : FileTree) (path : Path) : Bool :=
  match tree.locate .find path with
  | .ok (.directory _) => true
  | _ => false

/-- The text of the file to which a path leads. -/
def read (tree : FileTree) (path : Path) : Except FileFault String := do
  match ← tree.locate .find path with
  | .file _ _ content =>
    match Utf8.decode? content with
    | some text => .ok (String.ofList text)
    | none => .error .invalidText
  | .directory _ => .error .isDirectory
  | .vacant .. => .error .notFound

def Object.kind : Object → Entry.Kind
  | .file _ => .file
  | .directory _ => .directory
  | .link _ => .other

/-- The listing of the directory to which a path leads. -/
def list (tree : FileTree) (path : Path) : Except FileFault (List Entry) := do
  match ← tree.locate .find path with
  | .directory number =>
    .ok (Listing.ofFound path ((tree.entries number).map fun entry => (entry.1, entry.2.kind)))
  | .file .. => .error .notDirectory
  | .vacant .. => .error .notFound

/-! ## Changing -/

/-- The directory and the name that an object gets which is made at the end of a path. -/
def vacancy (tree : FileTree) (path : Path) : Except FileFault (Nat × Name) := do
  match (← route path).reverse.dropWhile List.isEmpty with
  | [] => .error .alreadyPresent
  | name :: way =>
    match ← tree.follow .find linkLimit (start path tree.home) way.reverse with
    | .directory number =>
      if name = Path.here ∨ name = Path.above then .error .alreadyPresent
      else if nameLimit < name.length then .error .nameTooLong
      else if (tree.object? number name).isSome then .error .alreadyPresent
      else .ok (number, name)
    | .file .. => .error .notDirectory
    | .vacant .. => .error .notFound

def makeDirectory (tree : FileTree) (path : Path) : Except FileFault FileTree := do
  let (number, name) ← tree.vacancy path
  return tree.putDirectory number name

def makeLink (tree : FileTree) (path : Path) (target : Path) : Except FileFault FileTree := do
  let (number, name) ← tree.vacancy path
  return tree.put number name (.link target)

/-- The tree with a content in the file at the end of a path. A link at the end is followed, also
where nothing stands at its end. -/
def write (tree : FileTree) (path : Path) (content : List UInt8) : Except FileFault FileTree := do
  match ← tree.locate .write path with
  | .file number name _ => .ok (tree.put number name (.file content))
  | .vacant number name => .ok (tree.put number name (.file content))
  | .directory _ => .error .isDirectory

/-- The tree with the directory at the end of a path as its working directory. -/
def enter (tree : FileTree) (path : Path) : Except FileFault FileTree := do
  match ← tree.locate .find path with
  | .directory number => .ok { tree with home := number }
  | .file .. => .error .notDirectory
  | .vacant .. => .error .notFound

end FileTree

end SourceMetrics
