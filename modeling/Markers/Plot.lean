import Markers.History
import Markers.Text.Part

/-!
# Plots

A plot describes a chart of series over time, and `todoPlots` makes the charts of a history: its
projects, its kinds and its total. Series of test projects are drawn with dots.
-/

namespace Markers

/-- A line of a chart. -/
structure PlotSeries where
  title : String
  x : List String
  y : List Nat
  dotted : Bool
deriving DecidableEq, Repr

/-- A chart over time. -/
structure Plot where
  title : String
  /-- The name of the image, without extension. -/
  image : String
  data : List PlotSeries
deriving DecidableEq, Repr

namespace Plot

/-- The image of the totals of all projects. -/
def projectImage : String := "todo_history"

/-- The image of the totals of all kinds. -/
def kindImage : String := "todo_history_categories"

/-- The image of the total. -/
def totalImage : String := "todo_history_total"

/-- A series as a line. -/
def ofSeries (series : Series) (dotted : Bool) : PlotSeries :=
  ⟨series.title, series.points.map (·.1), series.points.map (·.2), dotted⟩

/-- The charts of a history. -/
def todoPlots (history : History) : Except Failure (List Plot) := do
  let projects ← history.projectSeries
  let kinds ← history.kindSeries
  let total ← history.totalSeries "Total"
  return [
    ⟨"TO-DO per Project", projectImage, projects.map fun series =>
      ofSeries series (Text.contains "Tests".toList series.title.toList)⟩,
    ⟨"TO-DO per Category", kindImage, kinds.map fun series =>
      ofSeries { series with title := series.title ++ " Total" } false⟩,
    ⟨"TO-DO - Total", totalImage, [ofSeries total false]⟩]

/-- A line as JSON. -/
def seriesToJson (series : PlotSeries) : Json :=
  .ofFields <|
    [("title", .ofString series.title), ("x", .array (series.x.map .ofString)),
      ("y", .array (series.y.map .natural))] ++
    (if series.dotted then [("line_pattern", .ofString "Dotted")] else [])

/-- A chart as JSON. -/
def toJson (plot : Plot) : Json :=
  .ofFields
    [("title", .ofString plot.title), ("output_file_name", .ofString plot.image),
      ("plot_type", .ofString "Scatter"), ("width", .natural 1024), ("height", .natural 800),
      ("x_axis", .ofString "DateTime"), ("y_axis", .ofString "Numeric"),
      ("data", .array (plot.data.map seriesToJson))]

/-- Charts as JSON. -/
def listToJson (plots : List Plot) : Json :=
  .array (plots.map toJson)

end Plot
end Markers
