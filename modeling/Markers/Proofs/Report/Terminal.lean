import Markers.Proofs.Report.Alignment
import Markers.Report.Terminal

/-!
# Columns on the terminal

A line of the table of counts has its name in the first 40 characters and a text at the right end of
every 8 characters behind them (`HasCells`); names of more than 38 characters are shown by their end
(`ShownAs`). A text that is too long moves all columns behind it, so a line has the width of the
table exactly if all of its texts fit (`length_tableLine_iff`). The headers always do, and no number
is greater than that of the last row, so the table has one width exactly if the totals have at most
eight digits (`counts_columns`).
-/

namespace Markers.Terminal
open Text

/-! ## Names -/

/-- How a name is shown: whole if it has at most 38 characters, and otherwise as two dots and its
last 36 characters. -/
inductive ShownAs : List Char → List Char → Prop where
  | whole {name : List Char} (short : name.length ≤ 38) : ShownAs name name
  | ending {front last : List Char} (long : 38 < (front ++ last).length)
      (length : last.length = 36) : ShownAs (front ++ last) ('.' :: '.' :: last)

theorem shownAs_truncate (name : List Char) : ShownAs name (truncate (nameWidth - 2) name) := by
  unfold truncate
  split
  · next long =>
    -- at least 38 characters are there, so the subtraction is exact
    have long : 38 < name.length := long
    have last : (name.drop (name.length - 36)).length = 36 := by
      rw [List.length_drop]
      omega
    rw [← List.take_append_drop (name.length - 36) name] at long
    have shown := ShownAs.ending long last
    rwa [List.take_append_drop] at shown
  · next short => exact .whole (Nat.le_of_not_lt short)

theorem ShownAs.length_le {name shown : List Char} (h : ShownAs name shown) : shown.length ≤ 38 := by
  cases h with
  | whole short => exact short
  | ending _ length => simp [length]

theorem ShownAs.newline_not_mem {name shown : List Char} (h : ShownAs name shown)
    (oneLine : '\n' ∉ name) : '\n' ∉ shown := by
  cases h with
  | whole => exact oneLine
  | ending => simp_all

/-! ## Lines -/

/-- A name, and texts at the right ends of the columns behind it. -/
def tableLine (name : List Char) (cells : List (List Char)) : List Char :=
  padEnd nameWidth name ++ cells.flatMap (padStart cellWidth)

/-- The numbers of a row, from left to right. -/
def numbers (kinds : List Kind) (count : ProjectCount) : List Nat :=
  count.total :: kinds.map fun kind => count.ofKeyword kind.render

theorem headerLine_eq (kinds : List Kind) :
    headerLine kinds = tableLine "Project".toList (Report.countHeaders kinds) := by
  rw [headerLine, tableLine, Report.countHeaders, List.flatMap_cons, List.flatMap_map,
    List.append_assoc]

theorem countLine_eq (kinds : List Kind) (count : ProjectCount) :
    countLine kinds count =
      tableLine (truncate (nameWidth - 2) count.name.toList) ((numbers kinds count).map decimal) := by
  rw [countLine, tableLine, numbers, List.map_cons, List.map_map, List.flatMap_cons,
    List.flatMap_map, List.append_assoc]
  rfl

/-- That a line has a text in its first 40 characters and one at the right end of each 8 characters
behind them, and nothing else. -/
structure HasCells (line name : List Char) (cells : List (List Char)) : Prop where
  length : line.length = 40 + 8 * cells.length
  name : line.take 40 = padEnd 40 name
  cell : ∀ i cell, cells[i]? = some cell → (line.drop (40 + 8 * i)).take 8 = padStart 8 cell

section Lines
variable {name : List Char} {cells : List (List Char)}

theorem length_padded (short : name.length ≤ 40) : (padEnd 40 name).length = 40 := by
  rw [length_padEnd, Nat.max_eq_left short]

/-- A line has the width of its columns exactly if each text fits into its own. -/
theorem length_tableLine_iff (short : name.length ≤ 40) :
    (tableLine name cells).length = 40 + 8 * cells.length ↔ ∀ cell ∈ cells, cell.length ≤ 8 := by
  have length : (tableLine name cells).length =
      40 + sum (cells.map fun cell => max 8 cell.length) := by
    rw [tableLine, List.length_append, length_flatMap]
    simp only [length_padStart]
    exact congrArg (· + _) (length_padded short)
  rw [length, Nat.add_left_cancel_iff, ← sum_map_const]
  constructor
  · intro same cell mem
    rw [eq_of_sum_map_eq (fun cell _ => Nat.le_max_left 8 cell.length) same.symm cell mem]
    exact Nat.le_max_right ..
  · intro fits
    exact congrArg sum (List.map_congr_left fun cell mem => Nat.max_eq_left (fits cell mem))

theorem take_drop_cells (fits : ∀ cell ∈ cells, cell.length ≤ 8) {i : Nat} {cell : List Char}
    (found : cells[i]? = some cell) :
    ((cells.flatMap (padStart 8)).drop (8 * i)).take 8 = padStart 8 cell := by
  induction cells generalizing i with
  | nil => cases found
  | cons first cells ih =>
    obtain ⟨here, later⟩ := List.forall_mem_cons.1 fits
    have width : (padStart 8 first).length = 8 := by
      rw [length_padStart, Nat.max_eq_left here]
    rw [List.flatMap_cons]
    cases i with
    | zero =>
      obtain rfl := Option.some.inj found
      rw [Nat.mul_zero, List.drop_zero, List.take_left' width]
    | succ i =>
      rw [Nat.mul_succ, Nat.add_comm, ← List.drop_drop, List.drop_left' width]
      exact ih later found

theorem hasCells_tableLine (short : name.length ≤ 40) (fits : ∀ cell ∈ cells, cell.length ≤ 8) :
    HasCells (tableLine name cells) name cells where
  length := (length_tableLine_iff short).2 fits
  name := List.take_left' (length_padded short)
  cell i cell found := by
    have behind : (tableLine name cells).drop 40 = cells.flatMap (padStart 8) :=
      List.drop_left' (length_padded short)
    rw [← List.drop_drop, behind]
    exact take_drop_cells fits found

theorem newline_not_mem_tableLine (oneLine : '\n' ∉ name) (each : ∀ cell ∈ cells, '\n' ∉ cell) :
    '\n' ∉ tableLine name cells := by
  simp only [tableLine, padEnd, padStart, padStartWith, List.mem_append, List.mem_flatMap,
    List.mem_replicate]
  rintro ((bad | ⟨_, bad⟩) | ⟨cell, mem, ⟨_, bad⟩ | bad⟩)
  · exact oneLine bad
  · cases bad
  · cases bad
  · exact each cell mem bad

end Lines

/-! ## Numbers -/

/-- That all numbers of a count are below 10^8. -/
def Small (kinds : List Kind) (count : ProjectCount) : Prop :=
  ∀ n ∈ numbers kinds count, n < 100000000

/-- That a line shows a count: its name, its total, and its number for each of the kinds. -/
def Shows (kinds : List Kind) (count : ProjectCount) (line : List Char) : Prop :=
  ∃ shown, ShownAs count.name.toList shown ∧
    HasCells line shown ((numbers kinds count).map decimal)

theorem length_numbers (kinds : List Kind) (count : ProjectCount) :
    (numbers kinds count).length = kinds.length + 1 := by
  rw [numbers, List.length_cons, List.length_map]

theorem small_iff {kinds : List Kind} {count : ProjectCount} :
    Small kinds count ↔ ∀ cell ∈ (numbers kinds count).map decimal, cell.length ≤ 8 := by
  rw [List.forall_mem_map]
  exact forall₂_congr fun n _ => (Report.length_decimal_le_iff (show 0 < 8 by decide)).symm

theorem Small.mono {kinds : List Kind} {count count' : ProjectCount} (small : Small kinds count')
    (total : count.total ≤ count'.total)
    (number : ∀ keyword, count.ofKeyword keyword ≤ count'.ofKeyword keyword) :
    Small kinds count := by
  obtain ⟨here, later⟩ := List.forall_mem_cons.1 small
  rw [List.forall_mem_map] at later
  refine List.forall_mem_cons.2 ⟨Nat.lt_of_le_of_lt total here, List.forall_mem_map.2 ?_⟩
  exact fun kind mem => Nat.lt_of_le_of_lt (number kind.render) (later kind mem)

theorem length_shown_le (name : List Char) : (truncate (nameWidth - 2) name).length ≤ 40 :=
  Nat.le_trans (shownAs_truncate name).length_le (by decide)

theorem length_countLine_iff {kinds : List Kind} {count : ProjectCount} :
    (countLine kinds count).length = 40 + 8 * (kinds.length + 1) ↔ Small kinds count := by
  rw [countLine_eq, small_iff, ← length_tableLine_iff (length_shown_le _), List.length_map,
    length_numbers]

theorem shows_countLine {kinds : List Kind} {count : ProjectCount} (small : Small kinds count) :
    Shows kinds count (countLine kinds count) := by
  refine ⟨_, shownAs_truncate count.name.toList, ?_⟩
  rw [countLine_eq]
  exact hasCells_tableLine (length_shown_le _) (small_iff.1 small)

theorem length_token_le (kind : Kind) : kind.token.length ≤ 8 := by
  cases kind with
  | net digits =>
    have short := digits.token_spec.1
    show digits.token.length + 3 ≤ 8
    omega
  | _ => decide

theorem hasCells_headerLine (kinds : List Kind) :
    HasCells (headerLine kinds) "Project".toList (Report.countHeaders kinds) := by
  rw [headerLine_eq]
  refine hasCells_tableLine (by decide) (List.forall_mem_cons.2 ⟨by decide, ?_⟩)
  exact List.forall_mem_map.2 fun kind _ => length_token_le kind

theorem length_headerLine (kinds : List Kind) :
    (headerLine kinds).length = 40 + 8 * (kinds.length + 1) := by
  have width := (hasCells_headerLine kinds).length
  rwa [Report.countHeaders, List.length_cons, List.length_map] at width

/-! ## The table -/

theorem newline_not_mem_headerLine (kinds : List Kind) : '\n' ∉ headerLine kinds := by
  rw [headerLine_eq]
  refine newline_not_mem_tableLine (by decide) fun header mem => ?_
  exact List.count_eq_zero.1 (Report.layout_countHeaders kinds header mem).breaks

theorem newline_not_mem_countLine (kinds : List Kind) {count : ProjectCount}
    (oneLine : '\n' ∉ count.name.toList) : '\n' ∉ countLine kinds count := by
  rw [countLine_eq]
  refine newline_not_mem_tableLine ((shownAs_truncate _).newline_not_mem oneLine) ?_
  exact List.forall_mem_map.2 fun n _ => List.count_eq_zero.1 (Report.layout_decimal n).breaks

theorem newline_not_mem_ruleLine (kinds : List Kind) : '\n' ∉ ruleLine kinds := by
  intro mem
  cases List.eq_of_mem_replicate mem

/-- Without colors the lines of the table are those of its text. -/
theorem splitOn_counts {session : Session} {map : ProjectMap}
    (names : ∀ name ∈ map.names, '\n' ∉ name.toList) :
    let aggregation := Aggregation.build session map
    (counts aggregation false).toList.splitOn '\n' =
      [headerLine aggregation.kinds, ruleLine aggregation.kinds] ++
        aggregation.projects.map (fun report => countLine aggregation.kinds report.count) ++
        [ruleLine aggregation.kinds, countLine aggregation.kinds aggregation.total, []] := by
  intro aggregation
  have each : ∀ line ∈ countLines aggregation false, '\n' ∉ line := by
    simp only [countLines, styled, Bool.false_eq_true, if_false, List.forall_mem_append,
      List.forall_mem_cons, List.forall_mem_map]
    refine ⟨⟨⟨newline_not_mem_headerLine _, newline_not_mem_ruleLine _, by simp⟩, ?_⟩,
      newline_not_mem_ruleLine _, newline_not_mem_countLine _ ?_, by simp⟩
    · intro report mem
      apply newline_not_mem_countLine
      rcases Aggregation.name_of_mem_build mem with known | none
      · exact names _ known
      · rw [none]
        decide
    · rw [Aggregation.name_total]
      decide
  rw [counts, String.toList_ofList]
  refine (Report.splitOn_flatMap_line each).trans ?_
  rw [countLines, List.append_assoc]
  rfl

/-- **The table on the terminal has fixed columns.** Without colors its text is a header, a rule, a
line per project, the rule again and the line of the totals, if no name of a project has a newline.
All lines have 40 characters and 8 for the total and for each kind exactly if the totals are below
10^8, and then so is every number. The header has the token of each kind in the column of that kind,
and the line of a project has the project's number there. Its name is in front; of a name with more
than 38 characters only the last 36 are shown, behind two dots. -/
theorem counts_columns (session : Session) (map : ProjectMap)
    (names : ∀ name ∈ map.names, '\n' ∉ name.toList) :
    let aggregation := Aggregation.build session map
    let kinds := aggregation.kinds
    ∃ header rule row total,
      (counts aggregation false).toList.splitOn '\n' =
        [header, rule] ++ aggregation.projects.map row ++ [rule, total, []] ∧
      ((∀ line ∈ [header, rule] ++ aggregation.projects.map row ++ [rule, total],
        line.length = 40 + 8 * (kinds.length + 1)) ↔ Small kinds aggregation.total) ∧
      HasCells header "Project".toList ("Total".toList :: kinds.map Kind.token) ∧
      (Small kinds aggregation.total →
        (∀ report ∈ aggregation.projects, Shows kinds report.count (row report)) ∧
          Shows kinds aggregation.total total) := by
  intro aggregation kinds
  have least : Small kinds aggregation.total →
      ∀ report ∈ aggregation.projects, Small kinds report.count := by
    intro small report mem
    obtain ⟨total, number⟩ := Report.le_total session map report mem
    exact small.mono total number
  refine ⟨_, _, _, _, splitOn_counts names, ⟨fun all => ?_, fun small => ?_⟩,
    hasCells_headerLine kinds, fun small => ⟨fun report mem => ?_, shows_countLine small⟩⟩
  · exact length_countLine_iff.1 (all _ (List.mem_append_right _ (.tail _ (.head _))))
  · have rule : (ruleLine kinds).length = 40 + 8 * (kinds.length + 1) := List.length_replicate
    simp only [List.forall_mem_append, List.forall_mem_cons, List.forall_mem_map]
    refine ⟨⟨⟨length_headerLine kinds, rule, by simp⟩, fun report mem => ?_⟩, rule,
      length_countLine_iff.2 small, by simp⟩
    exact length_countLine_iff.2 (least small report mem)
  · exact shows_countLine (least small report mem)

/-- A table with a name of 43 characters in it. -/
theorem counts_columns_longName :
    let scan : FileScan := ⟨⟨"r/App/a.cs"⟩, [⟨"x", .todo, ⟨"r/App/a.cs"⟩, ⟨1, 4⟩, ⟨1, 10⟩⟩]⟩
    let map : ProjectMap := ⟨[⟨"a-name-of-more-than-thirty-eight-characters", ⟨"r/App"⟩, none⟩]⟩
    let aggregation := Aggregation.build (.ofScans [scan]) map
    (∀ name ∈ map.names, '\n' ∉ name.toList) ∧ Small [.todo] aggregation.total ∧
      ∃ header rule row total,
        (counts aggregation false).toList.splitOn '\n' =
          [header, rule] ++ aggregation.projects.map row ++ [rule, total, []] ∧
        (∀ line ∈ [header, rule] ++ aggregation.projects.map row ++ [rule, total],
          line.length = 56) ∧
        ∀ report ∈ aggregation.projects, Shows [.todo] report.count (row report) := by
  intro scan map aggregation
  have names : ∀ name ∈ map.names, '\n' ∉ name.toList := List.forall_mem_singleton.2 (by decide)
  have kinds : aggregation.kinds = [.todo] := by decide +kernel
  have ones : numbers [.todo] aggregation.total = [1, 1] := by decide +kernel
  have small : Small [.todo] aggregation.total := by
    rw [Small, ones]
    simp
  obtain ⟨header, rule, row, total, lines, width, _, rows⟩ :=
    counts_columns (.ofScans [scan]) map names
  rw [show (Aggregation.build (.ofScans [scan]) map).kinds = [.todo] from kinds] at width rows
  exact ⟨names, small, header, rule, row, total, lines, width.2 small, (rows small).1⟩

end Markers.Terminal
