import Markers.Glob
import Markers.Path
import Markers.Timestamp

/-!
# Failures

What can go wrong in scanning, recording and reporting, one constructor per cause, and the words
for it.
-/

namespace Markers

/-- Why an operation on files failed. -/
inductive FileFault where
  | notFound
  | isDirectory
  | notDirectory
  | alreadyExists
  /-- The bytes are no UTF-8 text. -/
  | invalidData
deriving DecidableEq, Repr

/-- Why a request failed. -/
inductive Failure where
  /-- No family handles files with this key. -/
  | unsupportedFileType (key : String)
  | fileRead (path : Path) (fault : FileFault)
  | fileWrite (path : Path) (fault : FileFault)
  | invalidGlob (pattern : String) (fault : GlobFault)
  | pathNotFound (path : Path)
  /-- The text of a history file is no history. -/
  | history (path : Path)
  | invalidTimestamp (value : String) (fault : TimestampFault)
  | invalidKind (token : String)
  | io (fault : FileFault)
  /-- There is no usable repository. -/
  | git
  /-- An offset into a text is inside a character or past the end. -/
  | offset
deriving DecidableEq, Repr

namespace FileFault

/-- The fault in words. -/
def message : FileFault → String
  | notFound => "No such file or directory (os error 2)"
  | isDirectory => "Is a directory (os error 21)"
  | notDirectory => "Not a directory (os error 20)"
  | alreadyExists => "File exists (os error 17)"
  | invalidData => "stream did not contain valid UTF-8"

end FileFault

namespace Failure

/-- The failure in words. -/
def message : Failure → String
  | unsupportedFileType key => "unsupported file type '" ++ key ++ "'"
  | fileRead path fault => "failed to read file '" ++ path.text ++ "': " ++ fault.message
  | fileWrite path fault => "failed to write file '" ++ path.text ++ "': " ++ fault.message
  | invalidGlob pattern fault => "invalid glob pattern '" ++ pattern ++ "': " ++ fault.message
  | pathNotFound path => "path does not exist: " ++ path.text
  | history path => "invalid history file '" ++ path.text ++ "': not a map of snapshots"
  | invalidTimestamp value fault => "invalid timestamp '" ++ value ++ "': " ++ fault.message
  | invalidKind token => "not a marker keyword: " ++ token
  | io fault => "IO error: " ++ fault.message
  | git => "git error: no repository with a working tree"
  | offset => "offset is not a character boundary"

end Failure

/-- The glob that a pattern writes. -/
def Glob.ofPattern (pattern : String) : Except Failure Glob :=
  match compile pattern with
  | .ok glob => .ok glob
  | .error fault => .error (.invalidGlob pattern fault)

/-- The instant that a timestamp writes. -/
def Instant.ofTimestamp (value : String) : Except Failure Instant :=
  match parse value with
  | .ok instant => .ok instant
  | .error fault => .error (.invalidTimestamp value fault)

end Markers
