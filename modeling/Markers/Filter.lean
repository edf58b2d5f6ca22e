import Markers.Failure
import Markers.Family

/-!
# File filters

A filter keeps the paths of supported files that match a pattern for wanted files, or any path when
there are none, and that match no pattern for unwanted files.
-/

namespace Markers

/-- Patterns for the paths to keep and to leave out. -/
structure Filter where
  wanted : List Glob
  unwanted : List Glob
deriving DecidableEq, Repr

namespace Filter

/-- The filter that keeps every supported file. -/
def all : Filter :=
  ⟨[], []⟩

/-- The filter with the given patterns; of several bad ones the first is reported, those for wanted
files before the others. -/
def ofPatterns (wanted unwanted : List String) : Except Failure Filter := do
  let wanted ← wanted.mapM Glob.ofPattern
  let unwanted ← unwanted.mapM Glob.ofPattern
  return ⟨wanted, unwanted⟩

/-- Whether a path is kept. Patterns match its text, which is Unicode (see `Path`). -/
def accepts (filter : Filter) (path : Path) : Bool :=
  Family.supports path && !filter.unwanted.any (·.accepts path.text) &&
    (filter.wanted.isEmpty || filter.wanted.any (·.accepts path.text))

end Filter
end Markers
