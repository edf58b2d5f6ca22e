import Markers.Proofs.Comment.Item
import Markers.Proofs.Scan.LineEnding
import Markers.Proofs.Scan.Order

/-!
# A text on lines of a longer one

`Framed` says that a text stands in a longer one on lines of its own. A match of a line comment is
then one in both texts (`Framed.matches_shift`, `Framed.exists_matches`), and becomes the same marker
as many lines further down as stand in front (`Framed.accept?_shift`).
-/

namespace Markers
open Text

/-- The position some lines further down. -/
def Position.down (p : Position) (rows : Nat) : Position :=
  ⟨p.line + rows, p.column⟩

/-- The marker some lines further down. -/
def Marker.down (marker : Marker) (rows : Nat) : Marker :=
  { marker with start := marker.start.down rows, stop := marker.stop.down rows }

@[simp] theorem Marker.down_zero (marker : Marker) : marker.down 0 = marker := rfl

theorem Position.down_down (p : Position) (a b : Nat) : (p.down a).down b = p.down (a + b) := by
  simp only [Position.down, Nat.add_assoc]

theorem Position.advance_down (p : Position) (rows : Nat) (c : Char) :
    (p.down rows).advance c = (p.advance c).down rows := by
  unfold Position.advance
  split
  · simp only [Position.down, Position.mk.injEq, and_true]
    omega
  · rfl

theorem Position.after_down (p : Position) (rows : Nat) (s : List Char) :
    (p.down rows).after s = (p.after s).down rows := by
  induction s generalizing p with
  | nil => rfl
  | cons c s ih => rw [after_cons, advance_down, ih, after_cons]

/-! ## Pieces of a line comment -/

namespace CommentForm

/-- Only a checkbox has to stand at the start of a line. -/
theorem matchAt?_of_ne {form : CommentForm} (plain : form ≠ checkbox) (start start' : Bool)
    (s : List Char) : form.matchAt? start s = form.matchAt? start' s := by
  unfold matchAt?
  rw [if_neg (fun h => plain h.1), if_neg (fun h => plain h.1)]

theorem restOfLine_append_newline (s behind : List Char) :
    restOfLine (s ++ '\n' :: behind) = restOfLine s :=
  takeWhile_append_cons (by decide) s behind

theorem colonSpace_append_newline (s behind : List Char) :
    colonSpace (s ++ '\n' :: behind) =
      ((colonSpace s).1, (colonSpace s).2 ++ '\n' :: behind) := by
  match s with
  | [] => rfl
  | [c] =>
    by_cases colon : c = ':'
    · subst colon; rfl
    · by_cases space : c = ' '
      · subst space; rfl
      · simp [colonSpace, colon, space]
  | c :: d :: s =>
    by_cases colon : c = ':'
    · subst colon
      by_cases space : d = ' '
      · subst space; rfl
      · simp [colonSpace, space]
    · by_cases space : c = ' '
      · subst space; rfl
      · simp [colonSpace, colon, space]

/-- A newline behind a text puts no colon at its start. -/
theorem head?_append_newline_ne {s : List Char} (other : s.head? ≠ some ':') (behind : List Char) :
    (s ++ '\n' :: behind).head? ≠ some ':' := by
  cases s with
  | nil => simp
  | cons c s => simpa using other

theorem run_append_newline {p : Char → Bool} (stops : p '\n' = false) (s behind : List Char) :
    run p (s ++ '\n' :: behind) = ((run p s).1, (run p s).2 ++ '\n' :: behind) := by
  rw [run, takeWhile_append_cons stops, dropWhile_append_cons stops]
  rfl

/-- The body of a line comment ends at the newline. -/
theorem body?_append_newline {form : CommentForm} (line : form.style = .line)
    (plain : form ≠ checkbox) (s behind : List Char) :
    form.body? (s ++ '\n' :: behind) = form.body? s := by
  cases form with
  | checkbox => contradiction
  | starBlock | quoteBlock | angleBlock | markupBlock => cases line
  | line opener cut =>
    simp only [body?, colonSpace_append_newline, restOfLine_append_newline]
  | hashColon =>
    by_cases colon : s.head? = some ':'
    · obtain ⟨rest, rfl⟩ := List.head?_eq_some_iff.1 colon
      have spaces := run_append_newline (p := (· == ' ')) (by decide) rest behind
      simp only [List.cons_append, body?, spaces, restOfLine_append_newline]
    · rw [hashBody?_of_head?_ne colon,
        hashBody?_of_head?_ne (head?_append_newline_ne colon behind), restOfLine_append_newline]

theorem opener?_append_newline {form : CommentForm} (line : form.style = .line)
    (s behind : List Char) :
    form.opener? (s ++ '\n' :: behind) =
      (form.opener? s).map fun q => (q.1, q.2 ++ '\n' :: behind) := by
  cases form with
  | checkbox => exact checkbox_opener?_append s behind
  | starBlock | quoteBlock | angleBlock | markupBlock => cases line
  | line opener cut =>
    exact literalRun?_append_cons (by cases opener <;> decide) (by decide) s behind
  | hashColon => exact literalRun?_append_cons (by decide) (by decide) s behind

/-- A match of any form but the checkbox is an opener, a keyword and a body. -/
theorem matchAt?_eq_some_iff {form : CommentForm} (plain : form ≠ checkbox) {start : Bool}
    {s : List Char} {shape : Shape} :
    form.matchAt? start s = some shape ↔
      ∃ rest behind, form.opener? s = some (shape.opener, rest) ∧
        Keyword.read? rest = some (shape.keyword, behind) ∧
        form.body? behind = some shape.body := by
  constructor
  · exact matchAt?_eq_some plain
  · rintro ⟨rest, behind, opened, read, bodied⟩
    obtain ⟨shape', found, opener, keyword, body⟩ := exists_matchAt? start plain opened read bodied
    rw [found, shape_ext opener keyword body]

/-- A line comment is read alike whatever follows its line, and wherever it stands. -/
theorem matchAt?_append_newline {form : CommentForm} (line : form.style = .line)
    (plain : form ≠ checkbox) (start start' : Bool) (s behind : List Char) :
    form.matchAt? start (s ++ '\n' :: behind) = form.matchAt? start' s := by
  have apart : ∀ c ∈ ('\n' :: behind).head?, c.isAlphanum = false := by
    intro c first
    cases first
    rfl
  apply Option.ext
  intro shape
  rw [matchAt?_eq_some_iff plain, matchAt?_eq_some_iff plain, opener?_append_newline line]
  constructor
  · rintro ⟨_, _, opened, read, bodied⟩
    obtain ⟨⟨opener, rest⟩, opened', same⟩ := Option.map_eq_some_iff.1 opened
    cases same
    rw [Keyword.read?_append apart] at read
    obtain ⟨⟨keyword, behind'⟩, read', same⟩ := Option.map_eq_some_iff.1 read
    cases same
    rw [body?_append_newline line plain] at bodied
    exact ⟨rest, behind', opened', read', bodied⟩
  · rintro ⟨rest, behind, opened, read, bodied⟩
    refine ⟨_, _, by rw [opened]; rfl, by rw [Keyword.read?_append apart, read]; rfl, ?_⟩
    rw [body?_append_newline line plain, bodied]

end CommentForm

/-! ## Matches further back -/

/-- The match as many bytes further back. -/
def Match.shift (m : Match) (bytes : Nat) : Match :=
  ⟨bytes + m.start, m.shape⟩

namespace Match

@[simp] theorem shape_shift (m : Match) (bytes : Nat) : (m.shift bytes).shape = m.shape := rfl

theorem keywordStart_shift (m : Match) (bytes : Nat) :
    (m.shift bytes).keywordStart = bytes + m.keywordStart := by
  exact Nat.add_assoc ..

theorem keywordEnd_shift (m : Match) (bytes : Nat) :
    (m.shift bytes).keywordEnd = bytes + m.keywordEnd := by
  unfold keywordEnd
  rw [keywordStart_shift]
  show bytes + m.keywordStart + byteLength m.shape.keyword = _
  omega

theorem stop_shift (m : Match) (bytes : Nat) : (m.shift bytes).stop = bytes + m.stop := by
  unfold stop
  rw [keywordEnd_shift]
  show bytes + m.keywordEnd + byteLength m.shape.body.chars = _
  omega

theorem content?_shift (m : Match) (bytes : Nat) :
    (m.shift bytes).content? = m.content?.map fun (start, text) => (bytes + start, text) := by
  rw [content?, content?, keywordEnd_shift, shape_shift]
  cases m.shape.body with
  | content separator text closer => simp only [Option.map_some, Nat.add_assoc]
  | tail | absent => rfl

end Match

namespace Scan
open PositionIndex Position

/-- The reading as many bytes further back. -/
def Reading.shift (reading : Reading) (bytes : Nat) : Reading :=
  { reading with contentStart := bytes + reading.contentStart }

@[simp] theorem Reading.keyword_shift (reading : Reading) (bytes : Nat) :
    (reading.shift bytes).keyword = reading.keyword := rfl

/-- The outcome as many bytes further back and lines further down. -/
def Outcome.shift (o : Outcome) (bytes rows : Nat) : Outcome :=
  ⟨bytes + o.cursor, o.marker.map (·.down rows)⟩

theorem plainReading_shift (m : Match) (bytes : Nat) :
    plainReading (m.shift bytes) = (plainReading m).shift bytes := by
  unfold plainReading
  rw [m.content?_shift, m.keywordEnd_shift]
  cases m.content? <;> rfl

theorem Reading.next_shift (form : CommentForm) (cursor : Nat) (reading : Reading) (bytes : Nat) :
    (reading.shift bytes).next form (bytes + cursor) = bytes + reading.next form cursor := by
  have content : (reading.shift bytes).content = reading.content := rfl
  rw [Reading.next, Reading.next, content]
  cases form.stopIn reading.content with
  | none => rfl
  | some stop => exact Nat.add_assoc ..

/-- A text stands in a longer one on lines of its own. -/
structure Framed (text whole front back : List Char) : Prop where
  split : whole = front ++ (text ++ back)
  starts : lineStart front = true
  ends : ∀ c ∈ back.head?, c = '\n'

namespace Framed
variable {text whole front back : List Char} {form : CommentForm} {family : Family} {m : Match}

theorem not_isAlphanum (h : Framed text whole front back) :
    ∀ c ∈ back.head?, c.isAlphanum = false := by
  intro c first
  rw [h.ends c first]
  rfl

/-- A position in the text lies as many lines further down in the longer one. -/
theorem after_append (h : Framed text whole front back) (s : List Char) :
    origin.after (front ++ s) = (origin.after s).down (front.count '\n') := by
  have front' : origin.after front = origin.down (front.count '\n') := by
    rcases List.eq_nil_or_concat front with rfl | ⟨lines, c, rfl⟩
    · rfl
    · have starts := h.starts
      rw [List.concat_eq_append, lineStart, List.getLast?_concat, Option.getD_some,
        beq_iff_eq] at starts
      subst starts
      have line := line_after origin (lines ++ ['\n'])
      have column := column_after_newline origin lines (b := []) List.not_mem_nil
      rw [List.concat_eq_append]
      calc origin.after (lines ++ ['\n'])
          = ⟨(origin.after (lines ++ ['\n'])).line, (origin.after (lines ++ ['\n'])).column⟩ := rfl
        _ = origin.down ((lines ++ ['\n']).count '\n') := by
          rw [line, column]
          rfl
  rw [Position.after_append, front', after_down]

theorem locate?_shift (h : Framed text whole front back) {a b : List Char} (split : text = a ++ b) :
    (ofText whole).locate? (byteLength front + byteLength a) =
      ((ofText text).locate? (byteLength a)).map (·.down (front.count '\n')) := by
  have there := locate?_append (front ++ a) (b ++ back)
  rw [h.after_append, byteLength_append] at there
  have whole' : whole = front ++ a ++ (b ++ back) := by
    rw [h.split, split]
    simp only [List.append_assoc]
  rw [whole', there, split, locate?_append, Option.map_some]

theorem locateChar?_shift (h : Framed text whole front back) {a b : List Char} {c : Char}
    (split : text = a ++ c :: b) :
    (ofText whole).locateChar? (byteLength front + byteLength a) =
      ((ofText text).locateChar? (byteLength a)).map (·.down (front.count '\n')) := by
  have there := locateChar?_append (front ++ a) c (b ++ back)
  rw [h.after_append, byteLength_append, advance_down] at there
  have whole' : whole = front ++ a ++ c :: (b ++ back) := by
    rw [h.split, split]
    simp only [List.append_assoc, List.cons_append]
  rw [whole', there, split, locateChar?_append, Option.map_some]

theorem matchAt?_append (h : Framed text whole front back) (line : form.style = .line)
    (plain : form ≠ .checkbox) (start start' : Bool) (s : List Char) :
    form.matchAt? start (s ++ back) = form.matchAt? start' s := by
  cases back with
  | nil => rw [List.append_nil, CommentForm.matchAt?_of_ne plain start start']
  | cons c behind =>
    obtain rfl := h.ends c rfl
    exact CommentForm.matchAt?_append_newline line plain start start' s behind

/-- A line comment of the text is one of the longer text. -/
theorem matches_shift (h : Framed text whole front back) (line : form.style = .line)
    (plain : form ≠ .checkbox) (found : form.Matches text m) :
    form.Matches whole (m.shift (byteLength front)) := by
  obtain ⟨before, rest, rfl, start, matched⟩ := found
  refine ⟨front ++ before, rest ++ back, ?_, ?_, ?_⟩
  · rw [h.split]
    simp only [List.append_assoc]
  · rw [byteLength_append, start]
    rfl
  · exact (h.matchAt?_append line plain ..).trans matched

/-- A line comment of the longer text that starts inside the text is one of the text. -/
theorem exists_matches (h : Framed text whole front back) (line : form.style = .line)
    (plain : form ≠ .checkbox) (found : form.Matches whole m) (behind : byteLength front ≤ m.start)
    (inside : m.start < byteLength (front ++ text)) :
    ∃ m', form.Matches text m' ∧ m = m'.shift (byteLength front) := by
  obtain ⟨before, rest, split, start, matched⟩ := found
  obtain ⟨before', rfl, split'⟩ := append_of_le (h.split.symm.trans split) (by omega)
  rw [byteLength_append] at start inside
  obtain ⟨rest', rfl, rfl⟩ := append_of_le split'.symm (by omega)
  refine ⟨⟨byteLength before', m.shape⟩, ⟨before', rest', rfl, rfl, ?_⟩, ?_⟩
  · rw [← matched]
    exact (h.matchAt?_append line plain ..).symm
  · obtain ⟨start', shape⟩ := m
    simp only at start
    subst start
    rfl

/-- A match is read alike in the longer text. -/
theorem reading?_shift (h : Framed text whole front back) (kind : family.defaultKind? = none)
    (found : form.Matches text m) :
    reading? family whole (m.shift (byteLength front)) =
      (reading? family text m).map (Option.map (·.shift (byteLength front))) := by
  obtain ⟨before, rest, _, stop, split⟩ := exists_split found
  have ends : Keyword.endsAt? whole (m.shift (byteLength front)).keywordEnd =
      Keyword.endsAt? text m.keywordEnd := by
    have here := endsAt?_append (before ++ m.shape.keyword) (m.shape.body.chars ++ rest)
    have there := endsAt?_append (front ++ (before ++ m.shape.keyword))
      (m.shape.body.chars ++ rest ++ back)
    rw [byteLength_append, stop, Keyword.endsBefore_append _ h.not_isAlphanum] at there
    rw [m.keywordEnd_shift, h.split, split]
    rw [stop] at here
    rw [here, ← there]
    simp only [List.append_assoc]
  unfold reading?
  rw [ends, kind]
  show (if m.shape.keyword = [] then _ else _) = _
  split
  · rw [plainReading_shift]
    rfl
  · rw [plainReading_shift]
    cases Keyword.endsAt? text m.keywordEnd with
    | none => rfl
    | some whole => cases whole <;> rfl

/-- A keyword has the same marker in the longer text, further down. -/
theorem mark?_shift (h : Framed text whole front back) (kind : family.defaultKind? = none)
    {reading : Reading} (placed : reading.Placed family form text m) {body cut : List Char}
    (content : reading.content = body ++ cut) (k : Kind) :
    mark? (ofText whole) (m.shift (byteLength front)) (reading.shift (byteLength front)) k body =
      (mark? (ofText text) m reading k body).map (·.down (front.count '\n')) := by
  cases placed with
  | bare _ _ _ _ _ some => simp [kind] at some
  | keyword before separator content' rest split start reads =>
    obtain ⟨c, word, keyword, _⟩ := reads.initial
    simp only at content
    have first := h.locateChar?_shift (a := before) (c := c)
      (b := word ++ separator ++ content' ++ rest) (by rw [split, keyword]; simp)
    -- the marker ends behind the keyword or behind the body
    obtain ⟨front', behind, split', stop⟩ : ∃ front' behind, text = front' ++ behind ∧
        byteLength front' = if body = [] then m.keywordEnd
          else byteLength (before ++ m.shape.keyword ++ separator) + byteLength body := by
      split
      · refine ⟨before ++ m.shape.keyword, separator ++ content' ++ rest, by rw [split]; simp, ?_⟩
        rw [byteLength_append, start, Match.keywordEnd]
      · refine ⟨before ++ m.shape.keyword ++ separator ++ body, cut ++ rest, ?_,
          byteLength_append ..⟩
        rw [split, content]
        simp
    have last := h.locate?_shift split'
    rw [start] at first
    rw [stop] at last
    have bare : m.shape.keyword ≠ [] := reads.ne_nil
    have stop' : (if body = [] then byteLength front + m.keywordEnd
        else byteLength front + byteLength (before ++ m.shape.keyword ++ separator) +
          byteLength body) = byteLength front + if body = [] then m.keywordEnd
        else byteLength (before ++ m.shape.keyword ++ separator) + byteLength body := by
      split
      · rfl
      · exact Nat.add_assoc ..
    unfold mark?
    simp only [Reading.shift, bare, if_false, m.keywordStart_shift, m.keywordEnd_shift,
      stop', first, last]
    cases (ofText text).locateChar? m.keywordStart with
    | none => rfl
    | some p =>
      generalize PositionIndex.locate? _ _ = q
      cases q <;> rfl

/-- A reading is settled alike in the longer text. -/
theorem settle?_shift (h : Framed text whole front back) (kind : family.defaultKind? = none)
    {reading : Reading} (placed : reading.Placed family form text m) (cursor : Nat) :
    settle? family (ofText whole) form (m.shift (byteLength front)) (byteLength front + cursor)
        (reading.shift (byteLength front)) =
      (settle? family (ofText text) form m cursor reading).map
        (·.shift (byteLength front) (front.count '\n')) := by
  obtain ⟨kept, _, keeps, _⟩ := reading.exists_kept form
  obtain ⟨_, body⟩ := Reading.exists_body keeps
  obtain ⟨k, named, _⟩ := placed.exists_kind
  have named' : (reading.shift (byteLength front)).kind? family = some k := named
  have keeps' : (reading.shift (byteLength front)).kept? form = some kept := keeps
  unfold settle?
  simp only [named, named', keeps, keeps', Option.bind_some, reading.next_shift]
  rw [h.mark?_shift kind placed body k, reading.keyword_shift]
  split
  · rfl
  · cases mark? (ofText text) m reading k (trimEnd kept) <;> rfl

/-- A match of the text becomes the same marker in the longer text, further down. -/
theorem accept?_shift (h : Framed text whole front back) (kind : family.defaultKind? = none)
    (mem : form ∈ family.forms) (found : form.Matches text m) :
    accept? family (ofText whole) form (m.shift (byteLength front)) =
      (accept? family (ofText text) form m).map
        (·.shift (byteLength front) (front.count '\n')) := by
  unfold accept?
  rw [text_ofText, text_ofText, h.reading?_shift kind found]
  cases read : reading? family text m with
  | none => rfl
  | some reading? =>
    cases reading? with
    | none =>
      simp only [Option.map_some, Option.map_none, Option.bind_some, m.keywordEnd_shift]
      rfl
    | some reading =>
      have placed := placed_of_reading? mem found read
      simp only [Option.map_some, Option.bind_some, m.keywordEnd_shift, m.stop_shift,
        h.settle?_shift kind placed, Match.shape_shift]
      cases m.shape.body with
      | tail tail =>
        simp only
        split <;> rfl
      | content | absent => rfl

end Framed
end Scan
end Markers
