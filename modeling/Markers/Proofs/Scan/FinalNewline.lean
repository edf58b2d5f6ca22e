import Markers.Proofs.Comment.FinalNewline
import Markers.Proofs.Scan.Boundary

/-!
# Scanning a text with a final newline

A text and the text with a newline behind it have matches at the same places, which differ at most
in the newline behind a block that is not closed (`paired_newline`). They are read alike, as that
newline is blank (`Prolonged.reading?`), become the same marker at the same positions
(`Prolonged.accept?`), and leave the same matches to scan (`Level`). So both texts have the same
findings (`scanText_finalNewline`).
-/

namespace Markers
open Text

namespace Scan
open PositionIndex

/-! ## Matches -/

/-- A match of a text, and the one at its place in the text with a newline behind it. -/
structure Prolonged (form : CommentForm) (text : List Char) (m m' : Match) : Prop where
  found : form.Matches text m
  found' : form.Matches (text ++ ['\n']) m'
  start : m'.start = m.start
  shape : ∃ before s, text = before ++ s ∧ byteLength before = m.start ∧
    m.shape.Prolonged form s m'.shape

theorem exists_prolonged {form : CommentForm} {text : List Char} {m : Match}
    (found : form.Matches text m) : ∃ m', Prolonged form text m m' := by
  obtain ⟨before, s, split, start, matched⟩ := found
  have shape := CommentForm.prolonged_matchAt? form (lineStart before) s
  rw [matched] at shape
  obtain ⟨shape', matched', prolonged⟩ := exists_right_of_rel shape
  refine ⟨⟨m.start, shape'⟩, ⟨before, s, split, start, matched⟩, ?_, rfl, before, s, split, start,
    prolonged⟩
  exact ⟨before, s ++ ['\n'], by rw [split, List.append_assoc], start, matched'⟩

theorem exists_prolonged_of_matches {form : CommentForm} {text : List Char} {m' : Match}
    (found' : form.Matches (text ++ ['\n']) m') : ∃ m, Prolonged form text m m' := by
  have inside := found'.start_lt
  obtain ⟨before, rest, split, start, matched'⟩ := found'
  -- no match starts behind the newline
  obtain ⟨s, rfl, rfl⟩ : ∃ s, text = before ++ s ∧ rest = s ++ ['\n'] := by
    rcases List.eq_nil_or_concat rest with rfl | ⟨s, c, rfl⟩
    · rw [split, List.append_nil] at inside
      omega
    · rw [List.concat_eq_append, ← List.append_assoc] at split
      obtain ⟨rfl, last⟩ := List.append_inj' split rfl
      exact ⟨s, rfl, by rw [List.concat_eq_append, ← last]⟩
  have shape := CommentForm.prolonged_matchAt? form (lineStart before) s
  rw [matched'] at shape
  obtain ⟨shape, matched, prolonged⟩ := exists_left_of_rel shape
  refine ⟨⟨m'.start, shape⟩, ⟨before, s, rfl, start, matched⟩, ?_, rfl, before, s, rfl, start,
    prolonged⟩
  exact ⟨before, s ++ ['\n'], by rw [List.append_assoc], start, matched'⟩

/-- A newline behind a text leaves its matches in order. -/
theorem paired_newline (family : Family) (text : List Char) :
    Paired family text (text ++ ['\n']) fun form m m' => Prolonged form text m m' where
  found := fun h => ⟨h.found, h.found'⟩
  right := fun _ found => exists_prolonged found
  left := fun _ found' => exists_prolonged_of_matches found'
  lt := fun h h₁ => by rw [h.start, h₁.start]

/-- Two cursors leave the same matches of a text to scan: they are equal, or both stand behind
everything. -/
def Level (text : List Char) (cursor cursor' : Nat) : Prop :=
  cursor' = cursor ∨ byteLength text ≤ cursor ∧ byteLength text ≤ cursor'

namespace Prolonged
variable {form : CommentForm} {text : List Char} {m m' : Match}

theorem start_lt_iff (h : Prolonged form text m m') {cursor cursor' : Nat}
    (level : Level text cursor cursor') : m.start < cursor ↔ m'.start < cursor' := by
  have inside := h.found.start_lt
  rw [h.start]
  rcases level with rfl | behind
  · rfl
  · omega

theorem keyword (h : Prolonged form text m m') : m'.shape.keyword = m.shape.keyword := by
  obtain ⟨_, _, _, _, shape⟩ := h.shape
  exact shape.keyword

theorem keywordStart (h : Prolonged form text m m') : m'.keywordStart = m.keywordStart := by
  obtain ⟨_, _, _, _, shape⟩ := h.shape
  rw [Match.keywordStart, Match.keywordStart, h.start, shape.opener]

theorem keywordEnd (h : Prolonged form text m m') : m'.keywordEnd = m.keywordEnd := by
  rw [Match.keywordEnd, Match.keywordEnd, h.keywordStart, h.keyword]

/-- What stands behind the keyword, and the bodies that begin there. -/
theorem exists_body (h : Prolonged form text m m') : ∃ front behind, text = front ++ behind ∧
    byteLength front = m.keywordEnd ∧ m.shape.body.Prolonged form behind m'.shape.body := by
  obtain ⟨before, s, split, start, shape⟩ := h.shape
  obtain ⟨behind, parts, body⟩ := shape.body
  refine ⟨before ++ m.shape.opener ++ m.shape.keyword, behind, ?_, ?_, body⟩
  · rw [split, parts]
    simp only [List.append_assoc]
  · simp only [byteLength_append, start, Match.keywordEnd, Match.keywordStart]

/-- Both matches end at one place, or at the end of the text. -/
theorem stop (h : Prolonged form text m m') : Level text m.stop m'.stop := by
  obtain ⟨front, behind, split, length, body⟩ := h.exists_body
  rw [Match.stop, Match.stop, h.keywordEnd, split, ← length]
  generalize m.shape.body = b at body
  generalize m'.shape.body = b' at body
  cases body with
  | same => exact .inl rfl
  | content _ separator content ends =>
    refine .inr ⟨?_, ?_⟩
    · simp only [ends, Body.chars, byteLength_append]
      omega
    · simp only [ends, Body.chars, byteLength_append]
      omega
  | absent =>
    refine .inr ⟨?_, ?_⟩
    · simp only [Body.chars, byteLength_append]
      omega
    · simp only [Body.chars, byteLength_append]
      omega

end Prolonged

/-! ## Readings -/

/-- A reading of a match, and the one with a newline behind the text: their contents are the same,
but for the newline in a block. -/
structure Reading.Prolonged (form : CommentForm) (reading reading' : Reading) : Prop where
  keyword : reading'.keyword = reading.keyword
  contentStart : reading'.contentStart = reading.contentStart
  content : reading'.content = reading.content ∨
    form.cuts ≠ true ∧ reading'.content = reading.content ++ ['\n']

namespace Prolonged
variable {family : Family} {form : CommentForm} {text : List Char} {m m' : Match}

theorem plainReading (h : Prolonged form text m m') :
    Reading.Prolonged form (plainReading m) (plainReading m') := by
  obtain ⟨_, _, _, _, body⟩ := h.exists_body
  have whole : form.style = .block → form.cuts ≠ true := by
    intro block cuts
    cases form <;> cases block <;> cases cuts
  unfold Scan.plainReading Match.content?
  rw [h.keywordEnd, h.keyword]
  generalize m.shape.body = b at body
  generalize m'.shape.body = b' at body
  cases body with
  | same => exact ⟨rfl, rfl, .inl rfl⟩
  | content block => exact ⟨rfl, rfl, .inr ⟨whole block, rfl⟩⟩
  | absent => exact ⟨rfl, rfl, .inl rfl⟩

theorem endsAt? (h : Prolonged form text m m') :
    Keyword.endsAt? (text ++ ['\n']) m'.keywordEnd = Keyword.endsAt? text m.keywordEnd := by
  obtain ⟨front, behind, rfl, length, _⟩ := h.exists_body
  rw [h.keywordEnd, ← length, List.append_assoc, endsAt?_append, endsAt?_append,
    Keyword.endsBefore_append behind CommentForm.not_isAlphanum_newline]

/-- An item is the same match, and its words are. -/
theorem wordReading? (h : Prolonged form text m m') (item : form = .checkbox) {reading : Reading}
    (word : wordReading? text m = some reading) :
    Scan.wordReading? (text ++ ['\n']) m' = some reading := by
  obtain ⟨_, _, _, _, body⟩ := h.exists_body
  have body' : m'.shape.body = m.shape.body := by
    generalize m.shape.body = b at body
    generalize m'.shape.body = b' at body
    subst item
    cases body with
    | same => rfl
    | content block | absent block => cases block
  have content : m'.content? = m.content? := by
    rw [Match.content?, Match.content?, body', h.keywordEnd]
  obtain ⟨piece, sliced, rfl⟩ := Option.map_eq_some_iff.1 word
  rw [Scan.wordReading?, content, h.keywordStart, h.keywordEnd]
  exact Option.map_eq_some_iff.2 ⟨piece, slice?_append_right sliced _, rfl⟩

/-- Both matches are read alike. -/
theorem reading? (h : Prolonged form text m m') (mem : form ∈ family.forms) :
    Scan.reading? family text m = some none ∧ Scan.reading? family (text ++ ['\n']) m' = some none ∨
      ∃ reading reading', Scan.reading? family text m = some (some reading) ∧
        Scan.reading? family (text ++ ['\n']) m' = some (some reading') ∧
        Reading.Prolonged form reading reading' := by
  have plain := h.plainReading
  rcases reading?_spec mem h.found with glued | ⟨reading, read, _⟩
  · refine .inl ⟨glued, ?_⟩
    rw [reading?_eq_none_iff] at glued ⊢
    rwa [h.keyword, h.endsAt?]
  · refine .inr ⟨reading, ?_⟩
    obtain ⟨reading', read', twin⟩ : ∃ reading',
        Scan.reading? family (text ++ ['\n']) m' = some (some reading') ∧
          Reading.Prolonged form reading reading' := by
      unfold Scan.reading? at read ⊢
      rw [h.keyword, h.endsAt?]
      split at read
      · next none =>
        cases read
        exact ⟨_, if_pos none, plain⟩
      · next some =>
        obtain ⟨whole, ends, read⟩ := Option.bind_eq_some_iff.1 read
        rw [if_neg some, ends, Option.bind_some]
        split at read
        · next whole =>
          cases read
          exact ⟨_, if_pos whole, plain⟩
        · next glued =>
          split at read
          · cases read
          · next default =>
            obtain ⟨word, sliced, same⟩ := Option.map_eq_some_iff.1 read
            cases same
            have kind : family.defaultKind?.isSome = true := by
              rw [Option.isSome_iff_ne_none]
              simpa using default
            have item := checkbox_of_defaultKind? mem kind
            refine ⟨reading, ?_, rfl, rfl, .inl rfl⟩
            rw [if_neg glued, if_neg default, h.wordReading? item sliced]
            rfl
    exact ⟨reading', read, read', twin⟩

end Prolonged

/-! ## Markers -/

/-- What stands behind a text makes no difference to the marker of a reading. -/
theorem Reading.Placed.mark?_append_right {family : Family} {form : CommentForm} {text : List Char}
    {m : Match} {reading : Reading} (placed : reading.Placed family form text m)
    (found : form.Matches text m) {body cut : List Char} (content : reading.content = body ++ cut)
    (kind : Kind) (t : List Char) :
    mark? (ofText (text ++ t)) m reading kind body = mark? (ofText text) m reading kind body := by
  have opens : IsBoundary text reading.contentStart := placed.isBoundary ⟨[], _, rfl, rfl⟩
  have closes : IsBoundary text (reading.contentStart + byteLength body) :=
    placed.isBoundary ⟨body, cut, content, rfl⟩
  have inside : (if reading.keyword = [] then reading.contentStart else m.keywordStart) <
      byteLength text := by
    cases placed with
    | keyword before separator content rest split start reads =>
      have length := byteLength_pos reads.ne_nil
      rw [if_neg reads.ne_nil, ← start, split]
      simp only [byteLength_append]
      omega
    | bare before c content rest split =>
      have length := c.utf8Size_pos
      rw [if_pos rfl, split]
      simp only [byteLength_append, byteLength_cons]
      omega
  have first : IsBoundary text
      (if reading.keyword = [] then reading.contentStart else m.keywordStart) := by
    split
    · exact opens
    · exact found.isBoundary_keywordStart
  have last : IsBoundary text (if body = [] then
      (if reading.keyword = [] then reading.contentStart else m.keywordEnd)
      else reading.contentStart + byteLength body) := by
    split
    · split
      · exact opens
      · exact found.isBoundary_keywordEnd
    · exact closes
  unfold mark?
  simp only [locateChar?_append_right first inside t, locate?_append_right last t]

namespace Reading.Prolonged
variable {form : CommentForm} {reading reading' : Reading}

/-- A newline cuts no content. -/
theorem stopIn (h : Reading.Prolonged form reading reading') :
    form.stopIn reading'.content = form.stopIn reading.content := by
  rcases h.content with same | ⟨whole, _⟩
  · rw [same]
  · rw [CommentForm.stopIn_eq_none whole, CommentForm.stopIn_eq_none whole]

/-- What is kept of both contents is the same, up to the blanks at its end. -/
theorem kept? (h : Reading.Prolonged form reading reading') {kept : List Char}
    (keeps : reading.kept? form = some kept) :
    ∃ kept', reading'.kept? form = some kept' ∧ trimEnd kept' = trimEnd kept := by
  rcases h.content with same | ⟨whole, longer⟩
  · refine ⟨kept, ?_, rfl⟩
    rw [← keeps, Reading.kept?, Reading.kept?, same]
  · rw [Reading.kept?, CommentForm.stopIn_eq_none whole] at keeps
    cases keeps
    refine ⟨reading'.content, ?_, ?_⟩
    · rw [Reading.kept?, CommentForm.stopIn_eq_none whole]
    · have newline : isBlank '\n' = true := rfl
      rw [longer, trimEnd_append_of_blank _ (by simp [newline])]

theorem next (h : Reading.Prolonged form reading reading') {text : List Char}
    {cursor cursor' : Nat} (level : Level text cursor cursor') :
    Level text (reading.next form cursor) (reading'.next form cursor') := by
  unfold Reading.next
  rw [h.stopIn, h.contentStart]
  cases form.stopIn reading.content with
  | none => exact level
  | some => exact .inl rfl

end Reading.Prolonged

namespace Prolonged
variable {family : Family} {form : CommentForm} {text : List Char} {m m' : Match}

/-- Both readings are settled alike. -/
theorem settle? (h : Prolonged form text m m') {reading reading' : Reading}
    (placed : reading.Placed family form text m) (twin : Reading.Prolonged form reading reading')
    {cursor cursor' : Nat} (level : Level text cursor cursor') {o : Outcome}
    (settled : Scan.settle? family (ofText text) form m cursor reading = some o) :
    ∃ o', Scan.settle? family (ofText (text ++ ['\n'])) form m' cursor' reading' = some o' ∧
      o'.marker = o.marker ∧ Level text o.cursor o'.cursor := by
  obtain ⟨kept, _, keeps, _⟩ := reading.exists_kept form
  obtain ⟨_, body⟩ := Reading.exists_body keeps
  obtain ⟨kept', keeps', trimmed⟩ := twin.kept? keeps
  obtain ⟨kind, named, _⟩ := placed.exists_kind
  have behind := twin.next level
  have named' : reading'.kind? family = some kind := by
    rw [← named, Reading.kind?, Reading.kind?, twin.keyword]
  have mark : mark? (ofText (text ++ ['\n'])) m' reading' kind (trimEnd kept) =
      mark? (ofText text) m reading kind (trimEnd kept) := by
    rw [← placed.mark?_append_right h.found body kind ['\n'], mark?, mark?, twin.keyword,
      twin.contentStart, h.keywordStart, h.keywordEnd]
  unfold Scan.settle? at settled ⊢
  simp only [named, named', keeps, keeps', Option.bind_some, twin.keyword, trimmed] at settled ⊢
  split at settled
  · next blank =>
    cases settled
    exact ⟨_, if_pos blank, rfl, behind⟩
  · next some =>
    obtain ⟨marker, marked, rfl⟩ := Option.map_eq_some_iff.1 settled
    rw [if_neg some, mark, marked]
    exact ⟨_, rfl, rfl, behind⟩

/-- Both matches are accepted alike. -/
theorem accept? (h : Prolonged form text m m') (mem : form ∈ family.forms) {o : Outcome}
    (accepted : Scan.accept? family (ofText text) form m = some o) :
    ∃ o', Scan.accept? family (ofText (text ++ ['\n'])) form m' = some o' ∧
      o'.marker = o.marker ∧ Level text o.cursor o'.cursor := by
  have behindKeyword : Level text m.keywordEnd m'.keywordEnd := .inl h.keywordEnd
  unfold Scan.accept? at accepted ⊢
  rw [text_ofText] at accepted ⊢
  rcases h.reading? mem with ⟨read, read'⟩ | ⟨reading, reading', read, read', twin⟩
  · rw [read] at accepted
    rw [read']
    cases accepted
    exact ⟨_, rfl, rfl, behindKeyword⟩
  · have placed := placed_of_reading? mem h.found read
    obtain ⟨_, _, _, _, body⟩ := h.exists_body
    rw [read, Option.bind_some] at accepted
    rw [read', Option.bind_some]
    generalize m.shape.body = b at body accepted
    generalize m'.shape.body = b' at body ⊢
    cases body with
    | same =>
      cases b with
      | tail tail =>
        simp only at accepted ⊢
        split at accepted
        · next ends =>
          rw [if_pos ends]
          exact h.settle? placed twin behindKeyword accepted
        · next goesOn =>
          cases accepted
          exact ⟨_, if_neg goesOn, rfl, behindKeyword⟩
      | content | absent => exact h.settle? placed twin h.stop accepted
    | content | absent => exact h.settle? placed twin h.stop accepted

end Prolonged

/-- A text is scanned alike with a newline behind it. -/
theorem simulation_newline (family : Family) (text : List Char) :
    Simulation family text (text ++ ['\n']) id (Level text) := by
  refine (paired_newline family text).simulation ?_ ?_
  · intro _ _ _ _ _ level h
    exact h.start_lt_iff level
  · intro _ _ _ o mem h accepted
    obtain ⟨o', accepted', marker, level⟩ := h.accept? mem accepted
    exact ⟨o', accepted', by rw [marker, Option.map_id_fun, id], level⟩

end Scan

open Scan

/-- The findings of a text are those of the text with one more newline behind it, whatever the text
ends in. -/
theorem scanText_finalNewline {path : Path} {family : Family}
    (known : Family.ofPath? path = some family) (text : String) :
    ∃ findings, scanText path text = .ok ⟨path, findings⟩ ∧
      scanText path (text ++ "\n") = .ok ⟨path, findings⟩ := by
  obtain ⟨found, scanned, scanned'⟩ :=
    (simulation_newline family text.toList).scan?_eq (.inl rfl)
  have toList : (text ++ "\n").toList = text.toList ++ ['\n'] := String.toList_append
  rw [List.map_id, ← toList] at scanned'
  exact ⟨_, scanText_of_scan? known scanned, scanText_of_scan? known scanned'⟩

theorem scanText_finalNewline_markup :
    Family.ofPath? ⟨"a.xml"⟩ = some .xml ∧
      ∃ findings, scanText ⟨"a.xml"⟩ "<!-- TODO: a" = .ok ⟨⟨"a.xml"⟩, findings⟩ ∧
        scanText ⟨"a.xml"⟩ ("<!-- TODO: a" ++ "\n") = .ok ⟨⟨"a.xml"⟩, findings⟩ :=
  have known : Family.ofPath? ⟨"a.xml"⟩ = some .xml := by decide
  ⟨known, scanText_finalNewline known _⟩

end Markers
