/-! # Faults

What can go wrong in a scan, and the wording of it. -/

namespace SourceMetrics

set_option autoImplicit false

/-- Why a file or a directory could not be used. -/
inductive FileFault where
  | notFound
  /-- Something that is no directory stands where there must be one. -/
  | notDirectory
  /-- A directory stands where there must be none. -/
  | isDirectory
  | alreadyPresent
  /-- Links lead to links again and again. -/
  | tooManyLinks
  /-- A name, or a whole path, has more bytes than it may have. -/
  | nameTooLong
  /-- A path has a byte that is zero, as no name has. -/
  | zeroByte
  /-- The content of a file is not valid UTF-8. -/
  | invalidText
  /-- Any other cause, in the words of the file system. -/
  | other (text : String)
deriving DecidableEq, Repr, Inhabited

def FileFault.message : FileFault → String
  | .notFound => "No such file or directory (os error 2)"
  | .notDirectory => "Not a directory (os error 20)"
  | .isDirectory => "Is a directory (os error 21)"
  | .alreadyPresent => "File exists (os error 17)"
  | .tooManyLinks => "Too many levels of symbolic links (os error 40)"
  | .nameTooLong => "File name too long (os error 36)"
  | .zeroByte => "file name contained an unexpected NUL byte"
  | .invalidText => "stream did not contain valid UTF-8"
  | .other text => text

/-- Why a scan failed. -/
inductive Fault where
  | file (cause : FileFault)
  /-- A pattern could not be used; the text says which and why. -/
  | pattern (text : String)
  /-- Any other cause, in its own words. -/
  | other (text : String)
deriving DecidableEq, Repr, Inhabited

namespace Fault

def message : Fault → String
  | .file cause => "io error: " ++ cause.message
  | .pattern text => "invalid pattern: " ++ text
  | .other text => text

/-- The wording of the cause of a fault, where it has one. -/
def cause? : Fault → Option String
  | .file cause => some cause.message
  | .pattern _ => none
  | .other _ => none

end Fault

end SourceMetrics
