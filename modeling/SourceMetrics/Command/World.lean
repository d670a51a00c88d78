import SourceMetrics.FileTree

/-! # Worlds

What a command acts on: a file system, into which it writes its results, and a screen. A session is
such a world in memory. -/

namespace SourceMetrics

set_option autoImplicit false

/-- A file system that can be written to, and a screen. -/
structure World (m : Type → Type) where
  /-- The file system that is scanned. -/
  files : FileSystem m
  isDirectory : Path → m Bool
  /-- Makes a directory in one that exists. -/
  makeDirectory : Path → m (Except FileFault Unit)
  /-- Writes a text to a file in place of what was in it. -/
  write : Path → String → m (Except FileFault Unit)
  print : String → m Unit

/-- A tree and what has been put on the screen. -/
structure Session where
  tree : FileTree
  screen : String

namespace Session

/-- An answer that leaves the session as it is. -/
def ask {α : Type} (answer : FileTree → α) : StateM Session α := fun session =>
  (answer session.tree, session)

/-- A change of the tree, which fails with a fault or succeeds. -/
def change (action : FileTree → Except FileFault FileTree) :
    StateM Session (Except FileFault Unit) := fun session =>
  match action session.tree with
  | .ok tree => (.ok (), { session with tree })
  | .error fault => (.error fault, session)

def files : FileSystem (StateM Session) where
  isFile path := ask fun tree => tree.isFile path
  list path := ask fun tree => (tree.list path).mapError .file
  read path := ask fun tree => (tree.read path).mapError .file

def world : World (StateM Session) where
  files := files
  isDirectory path := ask fun tree => tree.isDirectory path
  makeDirectory path := change fun tree => tree.makeDirectory path
  write path text := change fun tree => tree.write path (Utf8.encode text.toList)
  print text := fun session => ((), { session with screen := session.screen ++ text })

end Session

end SourceMetrics
