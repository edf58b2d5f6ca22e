import Markers.FileSystem.Action
import Markers.HistoryStore

/-!
# Histories in files

A history is kept in a file, which need not exist while the history is empty. `appendSnapshot` adds
a snapshot to it; when it fails to load or to insert, the file is left alone.
-/

namespace Markers

/-- The history in a file; a file that does not exist holds none. -/
def FileSystem.loadHistory (fs : FileSystem) (path : Path) : Except Failure History :=
  if fs.exists? path then do
    let text ← (fs.readText path).mapError (Failure.fileRead path)
    match History.parse? text with
    | some history => return history
    | none => throw (.history path)
  else return .empty

/-- Write a history as a file. -/
def FileAction.saveHistory (path : Path) (history : History) : FileAction Failure Unit :=
  writeFile path history.render.toList

/-- The text of the history in a file. -/
def HistoryStore.file (path : Path) : HistoryStore FileSystem where
  load fs := fs.loadHistory path
  save := FileAction.saveHistory path

/-- Add a snapshot to the history in a file. The whole history is the answer. -/
def FileAction.appendSnapshot (path : Path) (timestamp : String) (counts : List ProjectCount) :
    FileAction Failure History :=
  (HistoryStore.file path).append timestamp counts

end Markers
