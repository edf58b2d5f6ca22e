import Markers.Proofs.Comment.Item
import Markers.Proofs.Comment.LineEnding

/-!
# Items in a text with carriage returns

The lines of an item are the same ones with carriage returns (`itemLines_toCrlf`), and the item is
the same match (`exists_matchesAlike_checkbox`) unless its first line is hollow: nothing stands on
it behind the keyword, the colon and spaces. Such an item gives up its keyword or its colon for a
body, but with a carriage return on the line it keeps them, as that is a body.
-/

namespace Markers.CommentForm
open Text

/-- The carriage return of a line makes no difference to whether the line continues an item. -/
theorem continues_append_cr (line : List Char) : continues (line ++ ['\r']) = continues line := by
  have split := List.takeWhile_append_dropWhile (p := (· == ' ')) (l := line)
  unfold continues run
  rw [List.takeWhile_append, List.dropWhile_append]
  cases rest : line.dropWhile (· == ' ') with
  | nil =>
    rw [rest, List.append_nil] at split
    simp [split]
  | cons c rest' =>
    have some : (line.takeWhile (· == ' ')).length ≠ line.length := by
      intro same
      have length := congrArg List.length split
      rw [rest, List.length_append, same] at length
      simp at length
    simp [some]

/-- The lines of an item are the same ones in a text with carriage returns, and take that of the
last line. -/
theorem itemLines_toCrlf (s : List Char) :
    ∃ cr, itemLines (toCrlf s) = toCrlf (itemLines s) ++ cr ∧
      ∀ body rest, body.closer = [] → s = itemLines s ++ rest → Body.Trails body rest cr := by
  induction s with
  | nil => exact ⟨[], rfl, fun _ _ _ _ => .nothing⟩
  | cons c s ih =>
    obtain ⟨cr, same, trails⟩ := ih
    by_cases newline : c = '\n'
    · subst newline
      have line : continues (restOfLine (toCrlf s)) = continues (restOfLine s) := by
        rw [restOfLine_toCrlf, toCrlf_of_not_mem (newline_not_mem_restOfLine s), lineCr]
        split
        · exact continues_append_cr _
        · rw [List.append_nil]
      rw [toCrlf_newline, itemLines_cons_of_ne (by decide), itemLines_newline, itemLines_newline,
        line]
      split
      · refine ⟨cr, by rw [same]; rfl, ?_⟩
        intro body rest unclosed split
        exact trails body rest unclosed (List.cons.inj split).2
      · exact ⟨['\r'], rfl, fun body rest unclosed split => .newline s split.symm unclosed⟩
    · refine ⟨cr, ?_, ?_⟩
      · rw [toCrlf_cons newline, itemLines_cons_of_ne newline, same, itemLines_cons_of_ne newline,
          toCrlf_cons newline, List.cons_append]
      · intro body rest unclosed split
        rw [itemLines_cons_of_ne newline] at split
        exact trails body rest unclosed (List.cons.inj split).2

/-- Whether nothing stands on a line but a colon and spaces, each of which may be missing. -/
def isBare : List Char → Bool
  | ':' :: s => s.all (· == ' ')
  | s => s.all (· == ' ')

theorem isBare_of_spaces {colon spaces afterColon : List Char}
    (one : colon = [':'] ∨ colon = [] ∧ afterColon.head? ≠ some ':')
    (blank : ∀ c ∈ spaces, c = ' ') : isBare (colon ++ spaces) = true := by
  have all : spaces.all (· == ' ') = true :=
    List.all_eq_true.2 fun c mem => beq_iff_eq.2 (blank c mem)
  rcases one with rfl | ⟨rfl, _⟩
  · exact all
  · rw [List.nil_append]
    unfold isBare
    split
    · have colon := blank ':' (List.mem_cons_self ..)
      simp at colon
    · exact all

/-- Whether a line is an open item with nothing behind the checkbox but a keyword, a colon and
spaces, each of which may be missing. -/
def isHollow (line : List Char) : Bool :=
  (checkbox.opener? line).any fun q => isBare (Keyword.longest q.2).2

/-- An item is hollow if nothing but a colon and spaces follow its keyword. -/
theorem isHollow_eq {s opener rest line behind : List Char}
    (opened : checkbox.opener? s = some (opener, rest))
    (tail : (Keyword.longest rest).2 = line ++ '\n' :: behind) :
    ∃ front, s = front ++ line ++ '\n' :: behind ∧ ('\n' ∉ line → '\n' ∉ front ++ line) ∧
      isHollow (front ++ line) = isBare line := by
  obtain ⟨parts, keyword⟩ := Keyword.longest_spec rest
  have split := opener?_eq_append opened
  simp only at split
  refine ⟨opener ++ (Keyword.longest rest).1, ?_, ?_, ?_⟩
  · rw [split, List.append_assoc, List.append_assoc, ← tail, ← parts]
  · intro oneLine
    have indent := newline_not_mem_checkbox_opener opened
    have word : '\n' ∉ (Keyword.longest rest).1 := by
      rcases keyword with none | reads
      · simp [none]
      · exact reads.newline_not_mem
    simp only [List.mem_append, not_or]
    exact ⟨⟨indent, word⟩, oneLine⟩
  · have whole : s = opener ++ (Keyword.longest rest).1 ++ line ++ '\n' :: behind := by
      rw [split, List.append_assoc, List.append_assoc, ← tail, ← parts]
    rw [whole, checkbox_opener?_append] at opened
    obtain ⟨q, opened, same⟩ := Option.map_eq_some_iff.1 opened
    obtain ⟨_, rfl⟩ := Prod.mk.inj same
    rw [Keyword.longest_append _ (by simp)] at tail
    rw [isHollow, opened, Option.any_some, List.append_cancel_right tail]

/-- The body of an item begins at one place in a text with carriage returns, unless there is nothing
before the newline. -/
theorem itemBody?_toCrlf {s : List Char} (newline : '\n' ∈ s)
    (solid : ∀ line behind, s = line ++ '\n' :: behind → '\n' ∉ line → isBare line = false) :
    ∃ separator inner, s = separator ++ inner ∧ '\n' ∉ separator ∧
      itemBody? s = some (.content separator (itemLines inner) []) ∧
      itemBody? (toCrlf s) = some (.content separator (itemLines (toCrlf inner)) []) := by
  obtain ⟨colon, afterColon, rfl, one⟩ := exists_colon s
  have oneLine : '\n' ∉ colon := by rcases one with rfl | ⟨rfl, _⟩ <;> simp
  have one' : colon = [':'] ∨ colon = [] ∧ (toCrlf afterColon).head? ≠ some ':' :=
    one.imp_right fun none => ⟨none.1, mt (head?_toCrlf_iff (by decide) (by decide)).1 none.2⟩
  have split := run_append (· == ' ') afterColon
  have spaces : ∀ c ∈ (run (· == ' ') afterColon).1, c = ' ' :=
    fun c mem => eq_of_beq (of_mem_run (p := (· == ' ')) mem)
  have separatorLine : '\n' ∉ colon ++ (run (· == ' ') afterColon).1 := by
    rw [run_spaces, List.mem_append, not_or]
    exact ⟨oneLine, by simp⟩
  obtain ⟨rest, line, first⟩ := exists_restOfLine (run (· == ' ') afterColon).2
  have some : restOfLine (run (· == ' ') afterColon).2 ≠ [] := by
    intro none
    rw [none, List.nil_append] at line
    cases rest with
    | nil =>
      rw [line, List.append_nil] at split
      rw [List.mem_append, ← split] at newline
      have space := spaces '\n' (newline.resolve_left oneLine)
      simp at space
    | cons c rest =>
      obtain rfl := first c rfl
      have separated := solid (colon ++ (run (· == ' ') afterColon).1) rest
        (by rw [List.append_assoc, ← line, split]) separatorLine
      rw [isBare_of_spaces one spaces] at separated
      simp at separated
  have some' : restOfLine (run (· == ' ') (toCrlf afterColon)).2 ≠ [] := by
    rw [run_toCrlf (by decide), restOfLine_toCrlf]
    exact fun none => some (toCrlf_eq_nil_iff.1 (List.append_eq_nil_iff.1 none).1)
  refine ⟨colon ++ (run (· == ' ') afterColon).1, (run (· == ' ') afterColon).2, ?_,
    separatorLine, itemBody?_of_restOfLine one some, ?_⟩
  · rw [List.append_assoc, split]
  · rw [toCrlf_append, toCrlf_of_not_mem oneLine, itemBody?_of_restOfLine one' some',
      run_toCrlf (by decide), toCrlf_run_spaces]

/-- An item that is not hollow is the same match in a text with carriage returns. -/
theorem exists_matchesAlike_of_opener? {s opener rest : List Char}
    (opened : checkbox.opener? s = some (opener, rest)) (newline : '\n' ∈ rest)
    (solid : ∀ line behind, s = line ++ '\n' :: behind → '\n' ∉ line → isHollow line = false) :
    ∃ cr, checkbox.MatchesAlike true s cr := by
  have opened' := opener?_toCrlf checkbox s
  rw [opened, Option.map_some] at opened'
  have split := opener?_eq_append opened
  simp only at split
  -- the longest keyword leaves a body, with the carriage return and without
  obtain ⟨parts, keyword⟩ := Keyword.longest_spec rest
  have oneLine : '\n' ∉ (Keyword.longest rest).1 := by
    rcases keyword with none | reads
    · simp [none]
    · exact reads.newline_not_mem
  have behind : '\n' ∈ (Keyword.longest rest).2 := by
    rw [parts, List.mem_append] at newline
    exact newline.resolve_left oneLine
  obtain ⟨separator, inner, tail, separated, bodied, bodied'⟩ := itemBody?_toCrlf behind (by
    intro line behind same oneLine
    obtain ⟨front, whole, noNewline, hollow⟩ := isHollow_eq opened same
    rw [← hollow]
    exact solid _ behind whole (noNewline oneLine))
  obtain ⟨shape, found, shape_opener, shape_keyword, shape_body⟩ :=
    exists_matchAt?_checkbox opened (itemReading?_of_longest bodied)
  obtain ⟨shape', found', shape_opener', shape_keyword', shape_body'⟩ :=
    exists_matchAt?_checkbox opened' (itemReading?_of_longest (by
      rw [Keyword.longest_toCrlf]
      exact bodied'))
  obtain ⟨cr, lines, trails⟩ := itemLines_toCrlf inner
  have same : shape' = shape.toCrlf cr := by
    apply shape_ext
    · rw [shape_opener', ← shape_opener]
      rfl
    · rw [shape_keyword', Keyword.longest_toCrlf, ← shape_keyword]
      rfl
    · rw [shape_body', lines, Shape.toCrlf, shape_body, Body.toCrlf, toCrlf_of_not_mem separated]
      rfl
  obtain ⟨rest', leads⟩ := (pieces_of_matchAt? found).leads
  refine ⟨cr, .of_some found found' same leads ?_⟩
  rw [shape_body]
  apply trails _ _ rfl
  rw [split, parts, tail, shape_opener, shape_keyword, shape_body, Body.chars] at leads
  simpa using leads

/-- An item is the same match in a text with carriage returns, unless its first line is hollow. -/
theorem exists_matchesAlike_checkbox {s : List Char}
    (solid : ∀ line behind, s = line ++ '\n' :: behind → '\n' ∉ line → isHollow line = false) :
    ∃ cr, checkbox.MatchesAlike true s cr := by
  cases opened : checkbox.opener? s with
  | none =>
    have opened' := opener?_toCrlf checkbox s
    rw [opened, Option.map_none] at opened'
    exact ⟨[], .of_none (matchAt?_checkbox_eq_none opened) (matchAt?_checkbox_eq_none opened')⟩
  | some q =>
    obtain ⟨opener, rest⟩ := q
    by_cases newline : '\n' ∈ rest
    · exact exists_matchesAlike_of_opener? opened newline solid
    · have split := opener?_eq_append opened
      have indent := newline_not_mem_checkbox_opener opened
      simp only at split indent
      refine ⟨[], .of_oneLine ?_⟩
      rw [split, List.mem_append, not_or]
      exact ⟨indent, newline⟩

end Markers.CommentForm
