import Markers.Position
import Markers.Proofs.Text

/-!
# Positions by counting

`Position.after` counts through a text: a newline starts the next line, any other character is one
more column. `PositionIndex.locate?_append` says that the table of line ends gives the same
position for every cut of a text. `placed` lists the characters of a text with their positions, and
`between_append` says that the characters between the first and the last position of a part are
that part.
-/

namespace Markers
open Text

namespace Position

/-- The position before the first character of a text. -/
def origin : Position :=
  ⟨1, 0⟩

/-- The position behind one more character. -/
def advance (p : Position) (c : Char) : Position :=
  if c = '\n' then ⟨p.line + 1, 0⟩ else ⟨p.line, p.column + 1⟩

/-- The position behind some characters. -/
def after (p : Position) (s : List Char) : Position :=
  s.foldl advance p

/-- Earlier line, or the same line and a smaller column. -/
instance : LT Position where
  lt p q := p.line < q.line ∨ p.line = q.line ∧ p.column < q.column

/-- Before or at. -/
instance : LE Position where
  le p q := p < q ∨ p = q

theorem lt_iff {p q : Position} :
    p < q ↔ p.line < q.line ∨ p.line = q.line ∧ p.column < q.column :=
  Iff.rfl

theorem le_iff {p q : Position} :
    p ≤ q ↔ p.line < q.line ∨ p.line = q.line ∧ p.column ≤ q.column := by
  obtain ⟨line, column⟩ := p
  obtain ⟨line', column'⟩ := q
  show (_ ∨ _) ↔ _
  simp only [lt_iff, Position.mk.injEq]
  omega

/-- `<` is the order in which positions are compared. -/
theorem compare_eq_lt_iff {p q : Position} : compare p q = .lt ↔ p < q := by
  show (compare p.line q.line).then (compare p.column q.column) = .lt ↔ _
  rw [lt_iff, Ordering.then_eq_lt, Nat.compare_eq_lt, Nat.compare_eq_eq, Nat.compare_eq_lt]

theorem isLE_compare_iff {p q : Position} : (compare p q).isLE ↔ p ≤ q := by
  show ((compare p.line q.line).then (compare p.column q.column)).isLE ↔ _
  rw [le_iff, Ordering.isLE_then_iff_or, Nat.compare_eq_lt, Nat.compare_eq_eq, Nat.isLE_compare]

instance (p q : Position) : Decidable (p < q) :=
  decidable_of_iff _ lt_iff.symm

instance (p q : Position) : Decidable (p ≤ q) :=
  decidable_of_iff _ le_iff.symm

theorem lt_trans {p q r : Position} (first : p < q) (second : q < r) : p < r := by
  rw [lt_iff] at *
  omega

theorem lt_of_lt_of_le {p q r : Position} (first : p < q) (second : q ≤ r) : p < r := by
  rw [le_iff] at second
  rw [lt_iff] at *
  omega

theorem lt_of_le_of_lt {p q r : Position} (first : p ≤ q) (second : q < r) : p < r := by
  rw [le_iff] at first
  rw [lt_iff] at *
  omega

theorem not_le_of_lt {p q : Position} (h : p < q) : ¬ q ≤ p := by
  rw [lt_iff] at h
  rw [le_iff]
  omega

theorem lt_advance (p : Position) (c : Char) : p < p.advance c := by
  unfold advance
  rw [lt_iff]
  split
  · exact .inl (Nat.lt_succ_self _)
  · exact .inr ⟨rfl, Nat.lt_succ_self _⟩

@[simp] theorem after_nil (p : Position) : p.after [] = p := rfl

@[simp] theorem after_cons (p : Position) (c : Char) (s : List Char) :
    p.after (c :: s) = (p.advance c).after s := rfl

theorem after_append (p : Position) (a b : List Char) : p.after (a ++ b) = (p.after a).after b :=
  List.foldl_append

theorem le_after (p : Position) (s : List Char) : p ≤ p.after s := by
  induction s generalizing p with
  | nil => exact .inr rfl
  | cons c s ih => exact .inl (lt_of_lt_of_le (lt_advance p c) (ih _))

theorem lt_after {p : Position} {s : List Char} (nonempty : s ≠ []) : p < p.after s := by
  cases s with
  | nil => contradiction
  | cons c s => exact lt_of_lt_of_le (lt_advance p c) (le_after _ s)

/-- Without a newline all characters count as columns. -/
theorem after_of_not_mem {p : Position} {s : List Char} (oneLine : '\n' ∉ s) :
    p.after s = ⟨p.line, p.column + s.length⟩ := by
  induction s generalizing p with
  | nil => rfl
  | cons c s ih =>
    simp only [List.mem_cons, not_or] at oneLine
    rw [after_cons, ih oneLine.2, advance, if_neg (Ne.symm oneLine.1)]
    simp only [List.length_cons, Position.mk.injEq, true_and]
    omega

theorem line_after (p : Position) (s : List Char) :
    (p.after s).line = p.line + s.count '\n' := by
  induction s generalizing p with
  | nil => rfl
  | cons c s ih =>
    rw [after_cons, ih, advance, List.count_cons]
    split
    · next newline => simp [newline]; omega
    · next other => simp [other]

/-- The column counts the characters behind the last newline. -/
theorem column_after_newline (p : Position) (a : List Char) {b : List Char} (last : '\n' ∉ b) :
    (p.after (a ++ '\n' :: b)).column = b.length := by
  rw [after_append, after_cons, after_of_not_mem last]
  simp [advance]

/-! ## Characters at positions -/

/-- The characters of a text behind a position, each with its line and its column counted from 1. -/
def placed (p : Position) : List Char → List (Position × Char)
  | [] => []
  | c :: s => (⟨p.line, p.column + 1⟩, c) :: placed (p.advance c) s

/-- The characters of a text from one position to another, both included. -/
def between (text : List Char) (start stop : Position) : List Char :=
  ((placed origin text).filter fun q => decide (start ≤ q.1) && decide (q.1 ≤ stop)).map (·.2)

theorem placed_append (p : Position) (a b : List Char) :
    placed p (a ++ b) = placed p a ++ placed (p.after a) b := by
  induction a generalizing p with
  | nil => rfl
  | cons c a ih => rw [List.cons_append, placed, placed, ih, after_cons, List.cons_append]

theorem map_snd_placed (p : Position) (s : List Char) : (placed p s).map (·.2) = s := by
  induction s generalizing p with
  | nil => rfl
  | cons c s ih => rw [placed, List.map_cons, ih]

theorem lt_of_mem_placed {p : Position} {s : List Char} {q : Position × Char}
    (h : q ∈ placed p s) : p < q.1 := by
  induction s generalizing p with
  | nil => simp [placed] at h
  | cons c s ih =>
    rcases List.mem_cons.1 h with rfl | h
    · exact lt_iff.2 (.inr ⟨rfl, Nat.lt_succ_self _⟩)
    · exact lt_trans (lt_advance p c) (ih h)

theorem le_advance (p : Position) (c : Char) : ⟨p.line, p.column + 1⟩ ≤ p.advance c := by
  unfold advance
  rw [le_iff]
  split
  · exact .inl (Nat.lt_succ_self _)
  · exact .inr ⟨rfl, Nat.le_refl _⟩

theorem le_trans {p q r : Position} (first : p ≤ q) (second : q ≤ r) : p ≤ r := by
  rw [le_iff] at *
  omega

theorem le_after_of_mem_placed {p : Position} {s : List Char} {q : Position × Char}
    (h : q ∈ placed p s) : q.1 ≤ p.after s := by
  induction s generalizing p with
  | nil => simp [placed] at h
  | cons c s ih =>
    rcases List.mem_cons.1 h with rfl | h
    · exact le_trans (le_advance p c) (le_after _ s)
    · exact ih h

theorem mem_of_mem_between {text : List Char} {start stop : Position} {c : Char}
    (mem : c ∈ between text start stop) : c ∈ text := by
  obtain ⟨q, inside, rfl⟩ := List.mem_map.1 mem
  rw [← map_snd_placed origin text]
  exact List.mem_map_of_mem (List.mem_of_mem_filter inside)

/-- From the first character of a part to the position behind it lies that part. -/
theorem between_append (a : List Char) {c : Char} (b rest : List Char) (first : c ≠ '\n') :
    between (a ++ c :: b ++ rest) ((origin.after a).advance c) (origin.after (a ++ c :: b)) =
      c :: b := by
  have begins : (origin.after a).advance c = ⟨(origin.after a).line, (origin.after a).column + 1⟩ :=
    if_neg first
  have out_before : (placed origin a).filter (fun q =>
      decide ((origin.after a).advance c ≤ q.1) &&
        decide (q.1 ≤ origin.after (a ++ c :: b))) = [] := by
    apply List.filter_eq_nil_iff.2
    intro q mem inside
    simp only [Bool.and_eq_true, decide_eq_true_eq] at inside
    have early := le_after_of_mem_placed mem
    exact not_le_of_lt (lt_advance _ c) (le_trans inside.1 early)
  have out_behind : (placed (origin.after (a ++ c :: b)) rest).filter (fun q =>
      decide ((origin.after a).advance c ≤ q.1) &&
        decide (q.1 ≤ origin.after (a ++ c :: b))) = [] := by
    apply List.filter_eq_nil_iff.2
    intro q mem inside
    simp only [Bool.and_eq_true, decide_eq_true_eq] at inside
    exact not_le_of_lt (lt_of_mem_placed mem) inside.2
  have all_inside : (placed (origin.after a) (c :: b)).filter (fun q =>
      decide ((origin.after a).advance c ≤ q.1) &&
        decide (q.1 ≤ origin.after (a ++ c :: b))) = placed (origin.after a) (c :: b) := by
    apply List.filter_eq_self.2
    intro q mem
    have early : q.1 ≤ origin.after (a ++ c :: b) := by
      rw [after_append]
      exact le_after_of_mem_placed mem
    have late : (origin.after a).advance c ≤ q.1 := by
      rcases List.mem_cons.1 mem with rfl | mem
      · exact .inr begins
      · exact .inl (lt_of_mem_placed mem)
    simp [early, late]
  unfold between
  rw [placed_append, placed_append, List.filter_append, List.filter_append, out_before, out_behind,
    all_inside, List.nil_append, List.append_nil, map_snd_placed]

/-- The character behind a part is the one at the next column. -/
theorem head_of_mem_placed {a b : List Char} {c : Char}
    (mem : (⟨(origin.after a).line, (origin.after a).column + 1⟩, c) ∈ placed origin (a ++ b)) :
    b.head? = some c := by
  rw [placed_append] at mem
  rcases List.mem_append.1 mem with mem | mem
  · have early := le_after_of_mem_placed mem
    exact absurd early (not_le_of_lt (lt_iff.2 (.inr ⟨rfl, Nat.lt_succ_self _⟩)))
  · cases b with
    | nil => simp [placed] at mem
    | cons d b =>
      rcases List.mem_cons.1 mem with same | mem
      · cases same
        rfl
      · exact absurd (le_advance _ d) (not_le_of_lt (lt_of_mem_placed mem))

end Position

namespace PositionIndex

@[simp] theorem text_ofText (text : List Char) : (ofText text).text = text := rfl

/-! ## The table of line ends -/

theorem endsOf_splitOn_newline (start : Nat) (s : List Char) :
    endsOf start (('\n' :: s).splitOn '\n') =
      (start + 1) :: endsOf (start + 1) (s.splitOn '\n') := by
  rw [List.splitOn_cons_eq_if_modifyHead]
  simp [endsOf]

theorem endsOf_splitOn_cons (start : Nat) {c : Char} (s : List Char) (other : c ≠ '\n') :
    endsOf start ((c :: s).splitOn '\n') = endsOf (start + c.utf8Size) (s.splitOn '\n') := by
  rw [List.splitOn_cons_eq_if_modifyHead, if_neg (by simpa using other)]
  cases lines : s.splitOn '\n' with
  | nil => exact absurd lines (List.splitOn_ne_nil '\n' s)
  | cons line lines => simp [endsOf, Nat.add_assoc]

theorem length_endsOf (start : Nat) (lines : List (List Char)) :
    (endsOf start lines).length = lines.length := by
  induction lines generalizing start with
  | nil => rfl
  | cons line lines ih => simp [endsOf, ih]

/-- As many lines end before a cut as there are newlines before it. -/
theorem length_takeWhile_endsOf (start : Nat) (a b : List Char) :
    ((endsOf start ((a ++ b).splitOn '\n')).takeWhile (· ≤ start + byteLength a)).length =
      a.count '\n' := by
  induction a generalizing start with
  | nil =>
    cases lines : ([] ++ b).splitOn '\n' with
    | nil => rfl
    | cons line lines =>
      have later : decide (start + byteLength line + 1 ≤ start + byteLength []) = false := by
        rw [byteLength_nil, decide_eq_false_iff_not]
        omega
      rw [endsOf, List.takeWhile_cons, later]
      rfl
  | cons c a ih =>
    by_cases newline : c = '\n'
    · subst newline
      have size : Char.utf8Size '\n' = 1 := rfl
      have rest := ih (start + 1)
      have first : decide (start + 1 ≤ start + 1 + byteLength a) = true := by
        rw [decide_eq_true_eq]
        omega
      rw [List.cons_append, endsOf_splitOn_newline, byteLength_cons, size, ← Nat.add_assoc,
        List.takeWhile_cons, if_pos first, List.length_cons, rest, List.count_cons_self]
    · rw [List.cons_append, endsOf_splitOn_cons start _ newline, byteLength_cons, ← Nat.add_assoc,
        ih, List.count_cons_of_ne newline]

/-- The line of a newline ends just past it. -/
theorem getElem?_endsOf_newline (start : Nat) (a b : List Char) :
    (endsOf start ((a ++ '\n' :: b).splitOn '\n'))[a.count '\n']? =
      some (start + byteLength a + 1) := by
  induction a generalizing start with
  | nil => simp [endsOf_splitOn_newline]
  | cons c a ih =>
    by_cases newline : c = '\n'
    · subst newline
      have size : Char.utf8Size '\n' = 1 := rfl
      rw [List.cons_append, endsOf_splitOn_newline, List.count_cons_self,
        List.getElem?_cons_succ, ih, byteLength_cons, size, Nat.add_assoc start 1]
    · rw [List.cons_append, endsOf_splitOn_cons start _ newline,
        List.count_cons_of_ne newline, ih, byteLength_cons, Nat.add_assoc start]

/-- There are more lines than newlines. -/
theorem length_splitOn_newline (s : List Char) : (s.splitOn '\n').length = s.count '\n' + 1 := by
  induction s with
  | nil => rfl
  | cons c s ih =>
    rw [List.splitOn_cons_eq_if_modifyHead, List.count_cons]
    split
    · rw [List.length_cons, ih]
    · rw [List.length_modifyHead, ih, Nat.add_zero]

/-- The number of lines that end before a cut is the line of the cut, counted from zero. -/
theorem row_append (a b : List Char) :
    min ((ofText (a ++ b)).lineEnds.takeWhile (· ≤ byteLength a)).length
      ((ofText (a ++ b)).lineEnds.length - 1) = a.count '\n' := by
  have passed := length_takeWhile_endsOf 0 a b
  rw [Nat.zero_add] at passed
  have lines : (ofText (a ++ b)).lineEnds.length = (a ++ b).count '\n' + 1 := by
    rw [ofText, length_endsOf, length_splitOn_newline]
  have count : (a ++ b).count '\n' = a.count '\n' + b.count '\n' := List.count_append
  rw [lines, ofText, passed]
  omega

/-- What stands before a cut with a newline in it is cut at the last one. -/
theorem exists_last_line {a : List Char} (newline : '\n' ∈ a) :
    ∃ before line, a = before ++ '\n' :: line ∧ '\n' ∉ line := by
  obtain ⟨line, before, split, oneLine⟩ :=
    List.eq_append_cons_of_mem (List.mem_reverse.2 newline)
  refine ⟨before.reverse, line.reverse, ?_, by simpa using oneLine⟩
  rw [← List.reverse_reverse a, split]
  simp

theorem locate?_first_line {a : List Char} (oneLine : '\n' ∉ a) (b : List Char) :
    (ofText (a ++ b)).locate? (byteLength a) = some ⟨1, a.length⟩ := by
  have inside : min (byteLength a) (byteLength (ofText (a ++ b)).text) = byteLength a := by
    simp only [ofText, byteLength_append]
    omega
  have piece := slice?_append [] a b
  simp only [List.nil_append, byteLength_nil, Nat.zero_add] at piece
  unfold locate?
  simp only [inside, row_append, List.count_eq_zero.2 oneLine, if_true]
  simp [ofText, piece]

theorem locate?_later_line (before : List Char) {line : List Char} (oneLine : '\n' ∉ line)
    (b : List Char) :
    (ofText (before ++ '\n' :: line ++ b)).locate? (byteLength (before ++ '\n' :: line)) =
      some ⟨before.count '\n' + 2, line.length⟩ := by
  have size : Char.utf8Size '\n' = 1 := rfl
  have start : byteLength before + 1 = byteLength (before ++ ['\n']) := by simp [size]
  have stop : byteLength (before ++ '\n' :: line) =
      byteLength (before ++ ['\n']) + byteLength line := by
    simp [size, Nat.add_assoc]
  have inside : min (byteLength (before ++ '\n' :: line))
      (byteLength (ofText (before ++ '\n' :: line ++ b)).text) =
        byteLength (before ++ '\n' :: line) := by
    simp only [ofText, byteLength_append (before ++ '\n' :: line)]
    omega
  have count : (before ++ '\n' :: line).count '\n' = before.count '\n' + 1 := by
    rw [List.count_append, List.count_cons_self, List.count_eq_zero.2 oneLine]
  have entry := getElem?_endsOf_newline 0 before (line ++ b)
  have piece := slice?_append (before ++ ['\n']) line b
  rw [Nat.zero_add, start] at entry
  unfold locate?
  simp only [inside, row_append, count, Nat.add_eq_zero_iff, Nat.one_ne_zero, and_false, if_false,
    Nat.add_sub_cancel]
  simp only [ofText, List.append_assoc, List.cons_append, List.nil_append] at entry piece ⊢
  rw [entry, stop]
  simp only [bind, Option.bind_some, piece, pure]

/-- The table finds the position that counting through the text gives. -/
theorem locate?_append (a b : List Char) :
    (ofText (a ++ b)).locate? (byteLength a) = some (Position.origin.after a) := by
  by_cases newline : '\n' ∈ a
  · obtain ⟨before, line, rfl, oneLine⟩ := exists_last_line newline
    rw [locate?_later_line before oneLine, Position.after_append, Position.after_cons,
      Position.after_of_not_mem oneLine]
    simp [Position.advance, Position.line_after, Position.origin]
    omega
  · rw [locate?_first_line newline, Position.after_of_not_mem newline]
    simp [Position.origin]

/-- The position of a character is the one behind it. -/
theorem locateChar?_append (a : List Char) (c : Char) (b : List Char) :
    (ofText (a ++ c :: b)).locateChar? (byteLength a) =
      some ((Position.origin.after a).advance c) := by
  have next := locate?_append (a ++ [c]) b
  rw [Position.after_append, byteLength_append] at next
  unfold locateChar?
  rw [text_ofText, dropBytes?_append]
  simpa using next

/-- Past the end of the text the position is that of the end. -/
theorem locate?_of_le {text : List Char} {offset : Nat} (past : byteLength text ≤ offset) :
    (ofText text).locate? offset = some (Position.origin.after text) := by
  have last := locate?_append text []
  rw [List.append_nil] at last
  rw [← last]
  unfold locate?
  have inside : min offset (byteLength (ofText text).text) = byteLength text :=
    Nat.min_eq_right past
  have inside' : min (byteLength text) (byteLength (ofText text).text) = byteLength text :=
    Nat.min_self _
  simp only [inside, inside']

end PositionIndex
end Markers
