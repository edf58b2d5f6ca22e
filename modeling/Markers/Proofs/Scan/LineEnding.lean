import Markers.Proofs.Comment.ItemLineEnding
import Markers.Proofs.Scan.LineComment
import Markers.Proofs.Scan.Run
import Markers.Session

/-!
# Scanning a text with carriage returns

A text and the text with a carriage return in front of every newline have matches at the same
places (`exists_twin`, `exists_twin_of_matches`), and these become markers of the same kind at the
same positions (`Twin.accept?`). So both texts are scanned alike (`simulation_toCrlf`), and have the
same findings (`scanText_toCrlf`). This leaves out hollow items: they give up their keywords or
colons for bodies, but keep them with carriage returns.
-/

namespace Markers

/-- Whether a line that a newline ends is a hollow item. -/
def hasHollowItem (text : List Char) : Bool :=
  (text.splitOn '\n').dropLast.any CommentForm.isHollow

/-- A marker with carriage returns in its text. -/
def Marker.toCrlf (marker : Marker) : Marker :=
  { marker with text := String.ofList (Text.toCrlf marker.text.toList) }

namespace Scan
open Text PositionIndex Position

theorem lineStart_toCrlf (before : List Char) : lineStart (toCrlf before) = lineStart before := by
  rcases List.eq_nil_or_concat before with rfl | ⟨front, c, rfl⟩
  · rfl
  · rw [List.concat_eq_append, toCrlf_append]
    unfold lineStart
    by_cases newline : c = '\n'
    · subst newline
      simp
    · rw [toCrlf_cons newline]
      simp

/-- Where no item is hollow, a line that a newline ends is none. -/
theorem isHollow_eq_false {before line behind : List Char}
    (solid : hasHollowItem (before ++ (line ++ '\n' :: behind)) = false)
    (start : lineStart before = true) (oneLine : '\n' ∉ line) :
    CommentForm.isHollow line = false := by
  have ends : ((line ++ '\n' :: behind).splitOn '\n').dropLast =
      line :: (behind.splitOn '\n').dropLast := by
    rw [List.splitOn_append_cons_self_of_not_mem oneLine,
      List.dropLast_cons_of_ne_nil (List.splitOn_ne_nil _ _)]
  have among : line ∈ ((before ++ (line ++ '\n' :: behind)).splitOn '\n').dropLast := by
    rcases List.eq_nil_or_concat before with rfl | ⟨front, c, rfl⟩
    · rw [List.nil_append, ends]
      exact List.mem_cons_self ..
    · obtain rfl : c = '\n' := by simpa [lineStart] using start
      rw [List.concat_eq_append, List.append_assoc, List.singleton_append,
        List.splitOn_append_cons_self,
        List.dropLast_append_of_ne_nil (List.splitOn_ne_nil _ _), ends]
      exact List.mem_append_right _ (List.mem_cons_self ..)
  rw [hasHollowItem, List.any_eq_false] at solid
  exact Bool.eq_false_iff.2 (solid line among)

/-- A form has the same match at a place of both texts. -/
theorem exists_matchesAlike {form : CommentForm} {before s : List Char}
    (solid : form = .checkbox → hasHollowItem (before ++ s) = false) :
    ∃ cr, form.MatchesAlike (lineStart before) s cr := by
  by_cases plain : form = .checkbox
  · subst plain
    cases start : lineStart before with
    | false =>
      have never : ∀ t, CommentForm.checkbox.matchAt? false t = none := by
        intro t
        cases found : CommentForm.checkbox.matchAt? false t with
        | none => rfl
        | some shape =>
          have start := CommentForm.lineStart_of_matchAt?_checkbox found
          simp at start
      exact ⟨[], .of_none (never _) (never _)⟩
    | true =>
      apply CommentForm.exists_matchesAlike_checkbox
      rintro line behind rfl oneLine
      exact isHollow_eq_false (solid rfl) start oneLine
  · exact CommentForm.exists_matchesAlike_of_ne plain _ s

/-- No comment begins with a newline. -/
theorem matchAt?_newline (form : CommentForm) (start : Bool) (s : List Char) :
    form.matchAt? start ('\n' :: s) = none := by
  cases found : form.matchAt? start ('\n' :: s) with
  | none => rfl
  | some shape =>
    exfalso
    by_cases plain : form = .checkbox
    · subst plain
      obtain ⟨opener, rest, opened, _⟩ := CommentForm.matchAt?_checkbox found
      have split := CommentForm.opener?_eq_append opened
      have oneLine := CommentForm.newline_not_mem_checkbox_opener opened
      obtain ⟨c, opener, rfl⟩ := List.exists_cons_of_ne_nil (CommentForm.opener?_ne_nil opened)
      cases split
      simp at oneLine
    · have lead := CommentForm.lead_prefix_of_matchAt? found
      obtain ⟨c, l, same, _⟩ := CommentForm.exists_lead_head plain
      have other : ∀ opener : LineOpener, '\n' ∉ opener.chars := by
        intro opener
        cases opener <;> decide
      have none : '\n' ∉ form.lead := by
        cases form with
        | line opener _ => exact other opener
        | _ => decide
      rw [same, List.cons_prefix_cons] at lead
      rw [same, lead.1] at none
      simp at none

/-! ## Matches at one place -/

/-- A match of a text, and the one at that place of the text with carriage returns. `before` and
`rest` stand around the first one, and `cr` is what the body takes more in the second text. -/
structure Twin (form : CommentForm) (text : List Char) (m m' : Match)
    (before rest cr : List Char) : Prop where
  found : form.Matches text m
  found' : form.Matches (toCrlf text) m'
  split : text = before ++ (m.shape.opener ++ m.shape.keyword ++ m.shape.body.chars ++ rest)
  start : byteLength before = m.start
  start' : byteLength (toCrlf before) = m'.start
  shape : m'.shape = m.shape.toCrlf cr
  trails : m.shape.body.Trails rest cr

section
variable {form : CommentForm} {text : List Char}

/-- A match that is the same with carriage returns has a twin. -/
theorem exists_twin_of_matchesAlike {before s cr : List Char} {shape : Shape}
    (alike : form.MatchesAlike (lineStart before) s cr)
    (matched : form.matchAt? (lineStart before) s = some shape) :
    ∃ rest, Twin form (before ++ s) ⟨byteLength before, shape⟩
      ⟨byteLength (toCrlf before), shape.toCrlf cr⟩ before rest cr := by
  obtain ⟨rest, leads⟩ := (CommentForm.pieces_of_matchAt? matched).leads
  refine ⟨rest, ⟨before, s, rfl, rfl, matched⟩, ?_, ?_, rfl, rfl, rfl, ?_⟩
  · refine ⟨toCrlf before, toCrlf s, toCrlf_append before s, rfl, ?_⟩
    rw [lineStart_toCrlf, alike.same, matched, Option.map_some]
  · exact congrArg (before ++ ·) leads
  · exact alike.trails shape rest matched leads

/-- Every match of a text has one at its place of the text with carriage returns. -/
theorem exists_twin {m : Match} (solid : form = .checkbox → hasHollowItem text = false)
    (found : form.Matches text m) : ∃ m' before rest cr, Twin form text m m' before rest cr := by
  obtain ⟨before, s, rfl, start, matched⟩ := found
  obtain ⟨cr, alike⟩ := exists_matchesAlike solid
  obtain ⟨rest, twin⟩ := exists_twin_of_matchesAlike alike matched
  obtain ⟨_, shape⟩ := m
  cases start
  exact ⟨_, before, rest, cr, twin⟩

/-- Every match of the text with carriage returns comes from one of the text. -/
theorem exists_twin_of_matches {m' : Match} (solid : form = .checkbox → hasHollowItem text = false)
    (found' : form.Matches (toCrlf text) m') :
    ∃ m before rest cr, Twin form text m m' before rest cr := by
  obtain ⟨_, shape'⟩ := m'
  obtain ⟨x, y, split, rfl, matched'⟩ := found'
  rcases exists_of_toCrlf_eq_append split with ⟨before, s, rfl, rfl, rfl⟩ | ⟨_, _, _, _, rfl⟩
  · obtain ⟨cr, alike⟩ := exists_matchesAlike solid
    rw [lineStart_toCrlf, alike.same] at matched'
    obtain ⟨shape, matched, rfl⟩ := Option.map_eq_some_iff.1 matched'
    obtain ⟨rest, twin⟩ := exists_twin_of_matchesAlike alike matched
    exact ⟨_, before, rest, cr, twin⟩
  · rw [matchAt?_newline] at matched'
    simp at matched'

end

namespace Twin
variable {form : CommentForm} {text before rest cr : List Char} {m m' : Match}

theorem split_keyword (h : Twin form text m m' before rest cr) :
    text = before ++ m.shape.opener ++ m.shape.keyword ++ (m.shape.body.chars ++ rest) := by
  rw [h.split]
  simp

theorem toCrlf_keyword (h : Twin form text m m' before rest cr) :
    toCrlf m.shape.keyword = m.shape.keyword := by
  obtain ⟨_, pieces⟩ := pieces_of_matches h.found
  apply toCrlf_of_not_mem
  rcases pieces.keyword with ⟨none, _⟩ | reads
  · simp [none]
  · exact reads.newline_not_mem

theorem keyword (h : Twin form text m m' before rest cr) :
    m'.shape.keyword = m.shape.keyword := by
  rw [h.shape]
  rfl

theorem body (h : Twin form text m m' before rest cr) :
    m'.shape.body = m.shape.body.toCrlf cr := by
  rw [h.shape]
  rfl

theorem keywordStart (h : Twin form text m m' before rest cr) :
    byteLength (before ++ m.shape.opener) = m.keywordStart ∧
      byteLength (toCrlf (before ++ m.shape.opener)) = m'.keywordStart := by
  constructor
  · rw [byteLength_append, h.start, Match.keywordStart]
  · rw [toCrlf_append, byteLength_append, h.start', Match.keywordStart, h.shape]
    rfl

theorem keywordEnd (h : Twin form text m m' before rest cr) :
    byteLength (before ++ m.shape.opener ++ m.shape.keyword) = m.keywordEnd ∧
      byteLength (toCrlf (before ++ m.shape.opener ++ m.shape.keyword)) = m'.keywordEnd := by
  obtain ⟨start, start'⟩ := h.keywordStart
  constructor
  · rw [byteLength_append, start, Match.keywordEnd]
  · rw [toCrlf_append, byteLength_append, start', h.toCrlf_keyword, Match.keywordEnd, h.keyword]

theorem stop (h : Twin form text m m' before rest cr) :
    byteLength (before ++ m.shape.opener ++ m.shape.keyword ++ m.shape.body.chars) = m.stop ∧
      byteLength (toCrlf (before ++ m.shape.opener ++ m.shape.keyword ++ m.shape.body.chars)) +
        byteLength cr = m'.stop := by
  obtain ⟨ends, ends'⟩ := h.keywordEnd
  constructor
  · rw [byteLength_append, ends, Match.stop]
  · rw [toCrlf_append, byteLength_append, ends', Match.stop, h.shape, Nat.add_assoc]
    exact congrArg (m'.keywordEnd + ·) (Body.byteLength_chars_toCrlf cr m.shape.body).symm

end Twin

/-! ## Cursors -/

/-- A cursor in a text and one in the text with carriage returns: both stand in front of the same
character, or the second one may stand between a carriage return and its newline. -/
def Abreast (text : List Char) (cursor cursor' : Nat) : Prop :=
  ∃ passed ahead cr, text = passed ++ ahead ∧ byteLength passed = cursor ∧
    byteLength (toCrlf passed) + byteLength cr = cursor' ∧ CrBefore ahead cr

theorem abreast_append (passed ahead : List Char) :
    Abreast (passed ++ ahead) (byteLength passed) (byteLength (toCrlf passed)) :=
  ⟨passed, ahead, [], rfl, rfl, rfl, .nothing⟩

namespace Twin
variable {form : CommentForm} {text before rest cr : List Char} {m m' : Match}
  {cursor cursor' : Nat}

/-- Matches before one of the cursors start before the other one. -/
theorem start_lt_iff (h : Twin form text m m' before rest cr)
    (abreast : Abreast text cursor cursor') : m.start < cursor ↔ m'.start < cursor' := by
  obtain ⟨passed, ahead, cr', split, rfl, rfl, behind⟩ := abreast
  have same := h.split
  rw [split] at same
  rw [← h.start, ← h.start']
  constructor
  · intro lt
    have lt' := byteLength_toCrlf_lt same.symm lt
    omega
  · intro lt'
    by_contra le
    obtain ⟨x, rfl, rest'⟩ := append_of_le same (Nat.le_of_not_lt le)
    rw [toCrlf_append, byteLength_append] at lt'
    -- no match starts at the newline between the cursor and its carriage return
    cases behind with
    | nothing =>
      rw [byteLength_nil] at lt'
      omega
    | newline tail follows =>
      cases x with
      | nil =>
        have found := h.found
        rw [split, follows] at found
        have matched := found.matchAt?_eq (by rw [← h.start, List.append_nil])
        rw [matchAt?_newline] at matched
        simp at matched
      | cons c x =>
        rw [follows, List.cons_append, List.cons.injEq] at rest'
        rw [← rest'.1, toCrlf_newline, byteLength_cons] at lt'
        have cr : Char.utf8Size '\r' = 1 := rfl
        simp only [byteLength_cons, byteLength_nil, cr] at lt'
        omega

end Twin

namespace Twin
variable {form form₁ : CommentForm} {text before rest cr before₁ rest₁ cr₁ : List Char}
  {m m' m₁ m₁' : Match}

theorem start_lt (h : Twin form text m m' before rest cr)
    (h₁ : Twin form₁ text m₁ m₁' before₁ rest₁ cr₁) (lt : m.start < m₁.start) :
    m'.start < m₁'.start := by
  rw [← h.start, ← h₁.start] at lt
  rw [← h.start', ← h₁.start']
  exact byteLength_toCrlf_lt (h.split.symm.trans h₁.split) lt

theorem start_le (h : Twin form text m m' before rest cr)
    (h₁ : Twin form₁ text m₁ m₁' before₁ rest₁ cr₁) (le : m.start ≤ m₁.start) :
    m'.start ≤ m₁'.start := by
  rw [← h.start, ← h₁.start] at le
  rw [← h.start', ← h₁.start']
  exact byteLength_toCrlf_le (h.split.symm.trans h₁.split) le

end Twin

/-- The matches of a text and their twins stand in the same order. -/
theorem paired_toCrlf {family : Family} {text : List Char}
    (solid : ∀ form ∈ family.forms, form = .checkbox → hasHollowItem text = false) :
    Paired family text (toCrlf text)
      fun form m m' => ∃ before rest cr, Twin form text m m' before rest cr where
  found := fun ⟨_, _, _, twin⟩ => ⟨twin.found, twin.found'⟩
  right := fun mem found => exists_twin (solid _ mem) found
  left := fun mem found' => exists_twin_of_matches (solid _ mem) found'
  lt := by
    rintro _ _ m m' m₁ m₁' ⟨_, _, _, twin⟩ ⟨_, _, _, twin₁⟩
    refine ⟨twin.start_lt twin₁, fun lt' => ?_⟩
    by_contra behind
    have le := twin₁.start_le twin (Nat.le_of_not_lt behind)
    omega

/-! ## Readings at one place -/

/-- A reading in a text, and the one at that place of the text with carriage returns. -/
structure Reading.Twin (text : List Char) (reading reading' : Reading)
    (before rest cr : List Char) : Prop where
  split : text = before ++ reading.content ++ rest
  start : byteLength before = reading.contentStart
  start' : byteLength (toCrlf before) = reading'.contentStart
  keyword : reading'.keyword = reading.keyword
  content : reading'.content = toCrlf reading.content ++ cr
  trails : CrBefore rest cr

namespace Twin
variable {form : CommentForm} {text before rest cr : List Char} {m m' : Match}

/-- Plain readings are twins. -/
theorem plainReading (h : Twin form text m m' before rest cr) :
    ∃ before' rest' cr',
      Reading.Twin text (plainReading m) (plainReading m') before' rest' cr' := by
  obtain ⟨ends, ends'⟩ := h.keywordEnd
  have split := h.split
  have trails := h.trails.crBefore_closer
  have body' := h.body
  cases body : m.shape.body with
  | content separator content closer =>
    rw [body] at split trails body'
    have plain : Scan.plainReading m =
        ⟨m.shape.keyword, m.keywordEnd + byteLength separator, content⟩ := by
      rw [Scan.plainReading, Match.content?, body]
    have plain' : Scan.plainReading m' = ⟨m.shape.keyword,
        m'.keywordEnd + byteLength (toCrlf separator), toCrlf content ++ cr⟩ := by
      rw [Scan.plainReading, Match.content?, body', h.keyword]
      rfl
    rw [plain, plain']
    refine ⟨before ++ m.shape.opener ++ m.shape.keyword ++ separator, closer ++ rest, cr,
      ?_, ?_, ?_, rfl, rfl, trails⟩
    · rw [split]
      simp [Body.chars]
    · rw [byteLength_append, ends]
    · rw [toCrlf_append, byteLength_append, ends']
  | tail | absent =>
    rw [body] at body'
    have plain : Scan.plainReading m = ⟨m.shape.keyword, m.keywordEnd, []⟩ := by
      rw [Scan.plainReading, Match.content?, body]
    have plain' : Scan.plainReading m' = ⟨m.shape.keyword, m'.keywordEnd, []⟩ := by
      rw [Scan.plainReading, Match.content?, body', h.keyword]
      rfl
    rw [plain, plain']
    refine ⟨before ++ m.shape.opener ++ m.shape.keyword, m.shape.body.chars ++ rest, [], ?_, ends,
      ends', rfl, rfl, .nothing⟩
    rw [split]
    simp

/-- A keyword ends alike in both texts. -/
theorem exists_endsAt? (h : Twin form text m m' before rest cr) :
    ∃ whole, Keyword.endsAt? text m.keywordEnd = some whole ∧
      Keyword.endsAt? (toCrlf text) m'.keywordEnd = some whole := by
  obtain ⟨ends, ends'⟩ := h.keywordEnd
  have split := h.split_keyword
  refine ⟨Keyword.endsBefore (m.shape.body.chars ++ rest), ?_, ?_⟩
  · rw [← ends, split, endsAt?_append]
  · rw [← ends', split, toCrlf_append, endsAt?_append, Keyword.endsBefore_toCrlf]

/-- The words of items are twins. -/
theorem wordReading? (h : Twin form text m m' before rest cr) (item : form = .checkbox) :
    ∃ reading reading' before' rest' cr', Scan.wordReading? text m = some reading ∧
      Scan.wordReading? (toCrlf text) m' = some reading' ∧
      Reading.Twin text reading reading' before' rest' cr' := by
  obtain ⟨_, pieces⟩ := pieces_of_matches h.found
  obtain ⟨separator, inner, body, _⟩ := pieces.item item
  obtain ⟨start, start'⟩ := h.keywordStart
  have split := h.split
  have trails := h.trails.crBefore
  obtain ⟨rest', behind⟩ := trails.exists_toCrlf
  generalize CommentForm.itemLines inner = content at body
  have text₁ : text =
      before ++ m.shape.opener ++ (m.shape.keyword ++ separator ++ content) ++ rest := by
    rw [split, body]
    simp [Body.chars]
  have text₂ : toCrlf text = toCrlf (before ++ m.shape.opener) ++
      (toCrlf (m.shape.keyword ++ separator ++ content) ++ cr) ++ rest' := by
    rw [text₁, toCrlf_append, toCrlf_append _ (_ ++ content), behind]
    simp
  have piece := slice?_append (before ++ m.shape.opener)
    (m.shape.keyword ++ separator ++ content) rest
  have piece' := slice?_append (toCrlf (before ++ m.shape.opener))
    (toCrlf (m.shape.keyword ++ separator ++ content) ++ cr) rest'
  rw [← text₁, start] at piece
  rw [← text₂, start'] at piece'
  refine ⟨⟨[], m.keywordStart, m.shape.keyword ++ separator ++ content⟩,
    ⟨[], m'.keywordStart, toCrlf (m.shape.keyword ++ separator ++ content) ++ cr⟩,
    before ++ m.shape.opener, rest, cr, ?_, ?_, text₁, start, start', rfl, rfl, trails⟩
  · have last : m.keywordEnd + byteLength separator + byteLength content =
        m.keywordStart + byteLength (m.shape.keyword ++ separator ++ content) := by
      simp only [byteLength_append, Match.keywordEnd]
      omega
    unfold Scan.wordReading? Match.content?
    simp only [body, last, piece, Option.map_some]
  · have last : m'.keywordEnd + byteLength (toCrlf separator) + byteLength (toCrlf content ++ cr) =
        m'.keywordStart + byteLength (toCrlf (m.shape.keyword ++ separator ++ content) ++ cr) := by
      simp only [toCrlf_append, h.toCrlf_keyword, byteLength_append, Match.keywordEnd, h.keyword]
      omega
    have body' := h.body
    rw [body, Body.toCrlf] at body'
    unfold Scan.wordReading? Match.content?
    simp only [body', last, piece', Option.map_some]

/-- Both matches are read alike. -/
theorem reading? {family : Family} (h : Twin form text m m' before rest cr)
    (mem : form ∈ family.forms) :
    Scan.reading? family text m = some none ∧ Scan.reading? family (toCrlf text) m' = some none ∨
      ∃ reading reading' before' rest' cr', Scan.reading? family text m = some (some reading) ∧
        Scan.reading? family (toCrlf text) m' = some (some reading') ∧
        Reading.Twin text reading reading' before' rest' cr' := by
  obtain ⟨before', rest', cr', plain⟩ := h.plainReading
  obtain ⟨whole, ends, ends'⟩ := h.exists_endsAt?
  unfold Scan.reading?
  rw [h.keyword, ends, ends']
  by_cases none : m.shape.keyword = []
  · exact .inr ⟨_, _, before', rest', cr', if_pos none, if_pos none, plain⟩
  · rw [if_neg none, if_neg none]
    cases whole with
    | true => exact .inr ⟨_, _, before', rest', cr', rfl, rfl, plain⟩
    | false =>
      by_cases default : family.defaultKind?.isNone = true
      · exact .inl ⟨by simp [default], by simp [default]⟩
      · have kind : family.defaultKind?.isSome = true := by
          rw [Option.isSome_iff_ne_none]
          simpa using default
        obtain ⟨reading, reading', before', rest', cr', word, word', twin⟩ :=
          h.wordReading? (checkbox_of_defaultKind? mem kind)
        exact .inr ⟨reading, reading', before', rest', cr', by simp [default, word],
          by simp [default, word'], twin⟩

end Twin

/-! ## Markers at one place -/

/-- A carriage return at the end of a line leaves a keyword without a colon at its end. -/
theorem tailEnds_append_cr {rest cr : List Char} (form : CommentForm) (tail : List Char)
    (behind : CrBefore rest cr) : tailEnds form (tail ++ cr) = tailEnds form tail := by
  have blank : trimStart cr = [] := by
    cases behind <;> rfl
  have start : trimStart (tail ++ cr) =
      if trimStart tail = [] then [] else trimStart tail ++ cr := by
    unfold trimStart at blank ⊢
    simp only [List.dropWhile_append, blank, List.isEmpty_iff]
  unfold tailEnds
  rw [start]
  split
  · next none => rw [none]
  · rw [trimEnd_append_of_blank _ behind.isBlank, CommentForm.stopIn_append_cr form _ behind]

/-- What is kept of the contents is the same, up to the blanks at its end. -/
theorem Reading.Twin.kept? {form : CommentForm} {text before rest cr kept : List Char}
    {reading reading' : Reading} (twin : Reading.Twin text reading reading' before rest cr)
    (oneLine : form.cuts = true → '\n' ∉ reading.content)
    (keeps : reading.kept? form = some kept) :
    ∃ kept', reading'.kept? form = some kept' ∧ trimEnd kept' = toCrlf (trimEnd kept) := by
  have stops : form.stopIn reading'.content = form.stopIn reading.content := by
    rw [twin.content, CommentForm.stopIn_toCrlf oneLine twin.trails]
  unfold Reading.kept? at keeps ⊢
  rw [stops]
  cases stop : form.stopIn reading.content with
  | none =>
    rw [stop] at keeps
    cases keeps
    refine ⟨_, rfl, ?_⟩
    rw [twin.content, trimEnd_append_of_blank _ twin.trails.isBlank, trimEnd_toCrlf]
  | some n =>
    rw [stop] at keeps
    obtain ⟨front, behind, _, _, content, rfl, stopped, _⟩ := CommentForm.stopIn_eq_some stop
    have oneLine := oneLine (CommentForm.cuts_of_stopAt? stopped)
    simp only [content, takeBytes?_append] at keeps
    obtain rfl := Option.some.inj keeps
    have same : toCrlf front = front := by
      apply toCrlf_of_not_mem
      intro newline
      exact oneLine (content ▸ List.mem_append_left behind newline)
    refine ⟨front, ?_, by rw [← trimEnd_toCrlf, same]⟩
    simp only [twin.content, toCrlf_of_not_mem oneLine]
    rw [content, List.append_assoc, takeBytes?_append]

/-- Scanning goes on at one place behind both readings. -/
theorem Reading.Twin.next {form : CommentForm} {text before rest cr : List Char}
    {reading reading' : Reading} (twin : Reading.Twin text reading reading' before rest cr)
    (oneLine : form.cuts = true → '\n' ∉ reading.content) {cursor cursor' : Nat}
    (abreast : Abreast text cursor cursor') :
    Abreast text (reading.next form cursor) (reading'.next form cursor') := by
  have stops : form.stopIn reading'.content = form.stopIn reading.content := by
    rw [twin.content, CommentForm.stopIn_toCrlf oneLine twin.trails]
  unfold Reading.next
  rw [stops]
  cases stop : form.stopIn reading.content with
  | none => exact abreast
  | some n =>
    obtain ⟨front, behind, _, _, content, rfl, stopped, _⟩ := CommentForm.stopIn_eq_some stop
    have oneLine := oneLine (CommentForm.cuts_of_stopAt? stopped)
    have same : toCrlf front = front := by
      apply toCrlf_of_not_mem
      intro newline
      exact oneLine (content ▸ List.mem_append_left behind newline)
    have place := abreast_append (before ++ front) (behind ++ rest)
    rw [byteLength_append, twin.start, toCrlf_append, same, byteLength_append, twin.start'] at place
    rw [twin.split, content]
    simpa using place

/-- The marker of a keyword is the same one with carriage returns. -/
theorem mark?_toCrlf_of_keyword {text before keyword separator body rest : List Char}
    {m m' : Match} {content content' : List Char} {kind : Kind}
    (split : text = before ++ keyword ++ separator ++ body ++ rest) (reads : Keyword.Reads keyword)
    (start : byteLength before = m.keywordStart)
    (start' : byteLength (toCrlf before) = m'.keywordStart)
    (ends : byteLength (before ++ keyword) = m.keywordEnd)
    (ends' : byteLength (toCrlf (before ++ keyword)) = m'.keywordEnd) :
    mark? (ofText (toCrlf text)) m'
        ⟨keyword, byteLength (toCrlf (before ++ keyword ++ separator)), content'⟩ kind
        (toCrlf body) =
      (mark? (ofText text) m
        ⟨keyword, byteLength (before ++ keyword ++ separator), content⟩ kind body).map
        Marker.toCrlf := by
  have same : toCrlf keyword = keyword := toCrlf_of_not_mem reads.newline_not_mem
  obtain ⟨c, word, rfl, _⟩ := reads.initial
  have split' : toCrlf text =
      toCrlf before ++ c :: word ++ toCrlf separator ++ toCrlf body ++ toCrlf rest := by
    simp only [split, toCrlf_append, same]
  rw [toCrlf_append, same] at ends'
  rw [toCrlf_append _ separator, toCrlf_append before, same]
  by_cases empty : body = []
  · subst empty
    rw [List.append_nil, List.append_assoc] at split
    rw [toCrlf_nil, List.append_nil, List.append_assoc] at split'
    rw [toCrlf_nil, mark?_of_keyword_empty _ kind _ split start ends,
      mark?_of_keyword_empty _ kind _ split' start' ends', after_toCrlf, after_append, after_toCrlf,
      ← after_append]
    rfl
  · have last : origin.after (toCrlf before ++ c :: word ++ toCrlf separator ++ toCrlf body) =
        origin.after (before ++ c :: word ++ separator ++ body) := by
      simp only [after_append, after_toCrlf]
    rw [mark?_of_keyword _ kind split start empty,
      mark?_of_keyword _ kind split' start' (mt toCrlf_eq_nil_iff.1 empty), last, after_toCrlf,
      Option.map_some, Marker.toCrlf, String.toList_ofList]

/-- The marker of an item without a keyword is the same one with carriage returns. -/
theorem mark?_toCrlf_of_bare {text before body rest : List Char} {c : Char} {m m' : Match}
    {content content' : List Char} {kind : Kind} (split : text = before ++ c :: body ++ rest)
    (sameLine : c ≠ '\n') :
    mark? (ofText (toCrlf text)) m' ⟨[], byteLength (toCrlf before), content'⟩ kind
        (toCrlf (c :: body)) =
      (mark? (ofText text) m ⟨[], byteLength before, content⟩ kind (c :: body)).map
        Marker.toCrlf := by
  have split' : toCrlf text = toCrlf before ++ c :: toCrlf body ++ toCrlf rest := by
    rw [split, toCrlf_append, toCrlf_append, toCrlf_cons sameLine]
  have last : origin.after (toCrlf before ++ c :: toCrlf body) =
      origin.after (before ++ c :: body) := by
    rw [← toCrlf_cons sameLine, ← toCrlf_append, after_toCrlf]
  rw [toCrlf_cons sameLine, mark?_of_bare m kind split, mark?_of_bare m' kind split', last,
    after_toCrlf, Option.map_some, Marker.toCrlf, String.toList_ofList, toCrlf_cons sameLine]

namespace Twin
variable {family : Family} {form : CommentForm} {text before rest cr : List Char} {m m' : Match}

/-- Twin readings have markers of one kind at one place. -/
theorem mark? (h : Twin form text m m' before rest cr) {reading reading' : Reading}
    {before' rest' cr' body cut : List Char} (placed : reading.Placed family form text m)
    (twin : Reading.Twin text reading reading' before' rest' cr')
    (content : reading.content = body ++ cut) (solid : reading.keyword ≠ [] ∨ body ≠ [])
    (kind : Kind) :
    Scan.mark? (ofText (toCrlf text)) m' reading' kind (toCrlf body) =
      (Scan.mark? (ofText text) m reading kind body).map Marker.toCrlf := by
  obtain ⟨start, start'⟩ := h.keywordStart
  obtain ⟨ends, ends'⟩ := h.keywordEnd
  obtain ⟨keyword', contentStart', content'⟩ := reading'
  obtain ⟨split, place, place', rfl, rfl, _⟩ := twin
  simp only at place'
  subst place'
  cases placed with
  | keyword front separator inner behind parts opens reads _ _ =>
    simp only at content split place ⊢
    have parts₁ := h.split
    rw [parts] at parts₁
    obtain ⟨rfl, _⟩ : front = before ++ m.shape.opener ∧ _ = _ :=
      append_inj_of_byteLength (by simpa using parts₁) (opens.trans start.symm)
    obtain ⟨rfl, _⟩ : before' = before ++ m.shape.opener ++ m.shape.keyword ++ separator ∧ _ = _ :=
      append_inj_of_byteLength (by simpa using split.symm.trans parts) place
    rw [content, ← List.append_assoc, List.append_assoc _ cut] at parts
    exact mark?_toCrlf_of_keyword parts reads start start' ends ends'
  | bare front c inner behind parts _ sameLine _ =>
    simp only at content split place ⊢
    obtain ⟨rfl, _⟩ : before' = front ∧ _ = _ :=
      append_inj_of_byteLength (by simpa using split.symm.trans parts) place
    cases body with
    | nil => simp at solid
    | cons d body =>
      obtain ⟨rfl, rfl⟩ := List.cons.inj content
      exact mark?_toCrlf_of_bare (by simpa using parts) sameLine

/-- Twin readings are settled alike. -/
theorem settle? (h : Twin form text m m' before rest cr) {reading reading' : Reading}
    {before' rest' cr' : List Char} (placed : reading.Placed family form text m)
    (twin : Reading.Twin text reading reading' before' rest' cr')
    (oneLine : form.cuts = true → '\n' ∉ reading.content) {cursor cursor' : Nat}
    (abreast : Abreast text cursor cursor') {o : Outcome}
    (settled : Scan.settle? family (ofText text) form m cursor reading = some o) :
    ∃ o', Scan.settle? family (ofText (toCrlf text)) form m' cursor' reading' = some o' ∧
      o'.marker = o.marker.map Marker.toCrlf ∧ Abreast text o.cursor o'.cursor := by
  obtain ⟨kept, _, keeps, _⟩ := reading.exists_kept form
  obtain ⟨rest, body⟩ := Reading.exists_body keeps
  obtain ⟨kept', keeps', trimmed⟩ := twin.kept? oneLine keeps
  obtain ⟨kind, named, _⟩ := placed.exists_kind
  have behind := twin.next oneLine abreast
  have named' : reading'.kind? family = some kind := by
    rw [← named, Reading.kind?, Reading.kind?, twin.keyword]
  unfold Scan.settle? at settled ⊢
  simp only [named, named', keeps, keeps', Option.bind_some, twin.keyword, trimmed,
    toCrlf_eq_nil_iff] at settled ⊢
  split at settled
  · next blank =>
    cases settled
    exact ⟨_, if_pos blank, rfl, behind⟩
  · next some =>
    obtain ⟨marker, mark, rfl⟩ := Option.map_eq_some_iff.1 settled
    rw [if_neg some, h.mark? placed twin body (Decidable.not_and_iff_not_or_not.1 some), mark]
    exact ⟨_, rfl, rfl, behind⟩

/-- Twin matches are accepted alike. -/
theorem accept? (h : Twin form text m m' before rest cr) (mem : form ∈ family.forms) {o : Outcome}
    (accepted : Scan.accept? family (ofText text) form m = some o) :
    ∃ o', Scan.accept? family (ofText (toCrlf text)) form m' = some o' ∧
      o'.marker = o.marker.map Marker.toCrlf ∧ Abreast text o.cursor o'.cursor := by
  obtain ⟨ends, ends'⟩ := h.keywordEnd
  obtain ⟨stop, stop'⟩ := h.stop
  have text₁ := h.split_keyword
  have behindKeyword : Abreast text m.keywordEnd m'.keywordEnd := by
    rw [← ends, ← ends', text₁]
    exact abreast_append _ _
  have behindBody : Abreast text m.stop m'.stop :=
    ⟨_, rest, cr, by rw [h.split]; simp, stop, stop', h.trails.crBefore⟩
  unfold Scan.accept? at accepted ⊢
  rw [text_ofText] at accepted ⊢
  rcases h.reading? mem with ⟨read, read'⟩ |
      ⟨reading, reading', before', rest', cr', read, read', twin⟩
  · rw [read] at accepted
    rw [read']
    cases accepted
    exact ⟨_, rfl, rfl, behindKeyword⟩
  · have placed := placed_of_reading? mem h.found read
    have oneLine : form.cuts = true → '\n' ∉ reading.content := by
      intro cuts
      obtain ⟨rfl, _⟩ := reading?_of_defaultKind?_none (defaultKind?_of_cuts mem cuts) read
      exact newline_not_mem_content cuts h.found
    have body' := h.body
    rw [read, Option.bind_some] at accepted
    rw [read', Option.bind_some]
    cases body : m.shape.body with
    | tail tail =>
      rw [body, Body.toCrlf] at body'
      simp only [body, body'] at accepted ⊢
      obtain ⟨_, pieces⟩ := pieces_of_matches h.found
      have cuts : form.cuts = true := by
        rw [pieces.tail tail body]
        rfl
      have tailLine := newline_not_mem_of_cuts cuts h.found
      rw [body] at tailLine
      rw [toCrlf_of_not_mem (s := tail) tailLine, tailEnds_append_cr form tail h.trails.crBefore]
      split at accepted
      · next ends =>
        rw [if_pos ends]
        exact h.settle? placed twin oneLine behindKeyword accepted
      · next goesOn =>
        cases accepted
        exact ⟨_, if_neg goesOn, rfl, behindKeyword⟩
    | content | absent =>
      rw [body, Body.toCrlf] at body'
      simp only [body, body'] at accepted ⊢
      exact h.settle? placed twin oneLine behindBody accepted

end Twin

/-- A text is scanned alike with a carriage return in front of every newline. -/
theorem simulation_toCrlf {family : Family} {text : List Char}
    (solid : family = .markdown → hasHollowItem text = false) :
    Simulation family text (toCrlf text) Marker.toCrlf (Abreast text) := by
  have items : ∀ form ∈ family.forms, form = .checkbox → hasHollowItem text = false := by
    rintro form mem rfl
    exact solid (markdown_of_checkbox mem)
  refine (paired_toCrlf items).simulation ?_ ?_
  · rintro _ _ _ _ _ abreast ⟨_, _, _, twin⟩
    exact twin.start_lt_iff abreast
  · rintro _ _ _ _ mem ⟨_, _, _, twin⟩ accepted
    exact twin.accept? mem accepted

end Scan

open Text Scan

/-- The findings of a text are those of the text with a carriage return in front of every newline:
as many of the same kinds at the same positions, with the newlines in their texts replaced in the
same way. In Markdown this holds of texts in which no line has an open item with nothing behind the
keyword, the colon and spaces. -/
theorem scanText_toCrlf {path : Path} {family : Family} (known : Family.ofPath? path = some family)
    (text : String) (solid : family = .markdown → hasHollowItem text.toList = false) :
    ∃ findings, scanText path text = .ok ⟨path, findings⟩ ∧
      scanText path (String.ofList (toCrlf text.toList)) = .ok ⟨path, findings.map fun a =>
        { a with text := String.ofList (toCrlf a.text.toList) }⟩ := by
  obtain ⟨found, scanned, scanned'⟩ :=
    (simulation_toCrlf solid).scan?_eq (abreast_append [] text.toList)
  refine ⟨found.map (Finding.ofMarker path), scanText_of_scan? known scanned, ?_⟩
  rw [← String.toList_ofList (l := toCrlf text.toList)] at scanned'
  rw [scanText_of_scan? known scanned', List.map_map, List.map_map]
  rfl

theorem scanText_toCrlf_markdown :
    Family.ofPath? ⟨"R.md"⟩ = some .markdown ∧
      (Family.markdown = .markdown → hasHollowItem "- [ ] TODO: a\n  b\n- [ ] c\n".toList = false) ∧
      ∃ findings, scanText ⟨"R.md"⟩ "- [ ] TODO: a\n  b\n- [ ] c\n" = .ok ⟨⟨"R.md"⟩, findings⟩ ∧
        scanText ⟨"R.md"⟩ (String.ofList (toCrlf "- [ ] TODO: a\n  b\n- [ ] c\n".toList)) =
          .ok ⟨⟨"R.md"⟩, findings.map fun a =>
            { a with text := String.ofList (toCrlf a.text.toList) }⟩ :=
  have known : Family.ofPath? ⟨"R.md"⟩ = some .markdown := by decide
  have solid : hasHollowItem "- [ ] TODO: a\n  b\n- [ ] c\n".toList = false := by decide
  ⟨known, fun _ => solid, scanText_toCrlf known _ fun _ => solid⟩

/-- Hollow items give up their keywords for bodies, but keep them with carriage returns. -/
theorem scanText_toCrlf_hollow :
    '\r' ∉ "- [ ] TODO\n- [ ] BUG\n".toList ∧
      scanText ⟨"R.md"⟩ "- [ ] TODO\n- [ ] BUG\n" =
        .ok ⟨⟨"R.md"⟩, [⟨"TODO", .todo, ⟨"R.md"⟩, ⟨1, 7⟩, ⟨1, 10⟩⟩,
          ⟨"BUG", .todo, ⟨"R.md"⟩, ⟨2, 7⟩, ⟨2, 9⟩⟩]⟩ ∧
      scanText ⟨"R.md"⟩ (String.ofList (toCrlf "- [ ] TODO\n- [ ] BUG\n".toList)) =
        .ok ⟨⟨"R.md"⟩, [⟨"", .todo, ⟨"R.md"⟩, ⟨1, 7⟩, ⟨1, 10⟩⟩,
          ⟨"", .bug, ⟨"R.md"⟩, ⟨2, 7⟩, ⟨2, 9⟩⟩]⟩ := by
  have known : Family.ofPath? ⟨"R.md"⟩ = some .markdown := by decide
  have run : Run .markdown "- [ ] TODO\n- [ ] BUG\n".toList 0
      [⟨⟨.checkbox, ⟨0, ⟨"- [ ] ".toList, [], .content [] "TODO".toList [], by decide⟩⟩⟩,
          ⟨10, some ⟨.todo, "TODO", ⟨1, 7⟩, ⟨1, 10⟩⟩⟩⟩,
        ⟨⟨.checkbox, ⟨11, ⟨"- [ ] ".toList, [], .content [] "BUG".toList [], by decide⟩⟩⟩,
          ⟨20, some ⟨.todo, "BUG", ⟨2, 7⟩, ⟨2, 9⟩⟩⟩⟩] :=
    .of_nextMatch rfl rfl (.of_nextMatch rfl rfl (.done (nextMatch_eq_none_iff.1 rfl)))
  have run' : Run .markdown (toCrlf "- [ ] TODO\n- [ ] BUG\n".toList) 0
      [⟨⟨.checkbox, ⟨0, ⟨"- [ ] ".toList, "TODO".toList, .content [] ['\r'] [], by decide⟩⟩⟩,
          ⟨11, some ⟨.todo, "", ⟨1, 7⟩, ⟨1, 10⟩⟩⟩⟩,
        ⟨⟨.checkbox, ⟨12, ⟨"- [ ] ".toList, "BUG".toList, .content [] ['\r'] [], by decide⟩⟩⟩,
          ⟨22, some ⟨.bug, "", ⟨2, 7⟩, ⟨2, 9⟩⟩⟩⟩] :=
    .of_nextMatch rfl rfl (.of_nextMatch rfl rfl (.done (nextMatch_eq_none_iff.1 rfl)))
  rw [← String.toList_ofList (l := toCrlf _)] at run'
  exact ⟨by decide, scanText_of_scan? known run.scan?_eq, scanText_of_scan? known run'.scan?_eq⟩

end Markers
