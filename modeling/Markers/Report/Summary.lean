import Markers.Report.Terminal
import Markers.Run

/-!
# Summaries of runs

`summary` says how much a run scanned, shows the table of counts and names the files written.
-/

namespace Markers.Terminal
open Text

/-- A label and what it stands for. -/
def labelled (color : Bool) (label : String) (content : List Char) : List Char :=
  styled color .header label.toList ++ ' ' :: content ++ ['\n']

/-- What a run did to the history. -/
def historyNote (color : Bool) (outcome : Outcome) : List Char :=
  match outcome.timestamp with
  | some timestamp =>
    outcome.historyPath.text.toList ++ " (".toList ++ decimal outcome.historySize ++
      " snapshots, recorded ".toList ++ timestamp.toList ++ [')']
  | none => styled color .muted "not recorded".toList

/-- The summary of a run. -/
def summary (outcome : Outcome) (color : Bool) : String :=
  String.ofList <|
    "Scanned ".toList ++ decimal outcome.filesScanned ++ " files, found ".toList ++
      decimal outcome.aggregation.total.total ++ " markers\n\n".toList ++
    (counts outcome.aggregation color).toList ++ ['\n'] ++
    labelled color "Report: " outcome.reportPath.text.toList ++
    labelled color "History:" (historyNote color outcome) ++
    labelled color "Charts: " outcome.plotsPath.text.toList

end Markers.Terminal
