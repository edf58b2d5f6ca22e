import Markers.Proofs.Position
import Markers.Proofs.Scan.Search

/-!
# What a match says

`Reading.Placed` says where the keyword, the separator and the content of a reading stand in the
text. Every match of a family has a placed reading, or its keyword is glued to a word
(`reading?_spec`). `mark?_of_keyword` and `mark?_of_bare` give the marker of a placed reading.
-/

namespace Markers.Scan
open Text PositionIndex

/-- Where a reading stands in a text: a whole keyword, a separator of the form and the content in a
row, or the content of an item without a keyword. The latter is that of the match, or a word that a
keyword starts. -/
inductive Reading.Placed (family : Family) (form : CommentForm) (text : List Char) (m : Match) :
    Reading → Prop where
  | keyword (before separator content rest : List Char)
      (split : text = before ++ m.shape.keyword ++ separator ++ content ++ rest)
      (start : byteLength before = m.keywordStart)
      (reads : Keyword.Reads m.shape.keyword)
      (whole : Keyword.endsBefore (separator ++ content ++ rest) = true)
      (separated : form.Separates separator ∨ separator = [] ∧ content = []) :
      Placed family form text m
        ⟨m.shape.keyword, byteLength (before ++ m.shape.keyword ++ separator), content⟩
  | bare (before : List Char) (c : Char) (content rest : List Char)
      (split : text = before ++ c :: content ++ rest)
      (kind : family.defaultKind?.isSome = true) (sameLine : c ≠ '\n')
      (source : m.shape.keyword = [] ∧ m.content? = some (byteLength before, c :: content) ∨
        Keyword.isInitial c = true) :
      Placed family form text m ⟨[], byteLength before, c :: content⟩

theorem endsAt?_append (a b : List Char) :
    Keyword.endsAt? (a ++ b) (byteLength a) = some (Keyword.endsBefore b) := by
  rw [Keyword.endsAt?, dropBytes?_append, Option.map_some]

/-- Only Markdown has items. -/
theorem markdown_of_checkbox {family : Family} (mem : CommentForm.checkbox ∈ family.forms) :
    family = .markdown := by
  cases family with
  | markdown => rfl
  | _ => simp [Family.forms] at mem

/-- Only a family whose markers may lack a keyword has items. -/
theorem defaultKind?_of_checkbox {family : Family} (mem : CommentForm.checkbox ∈ family.forms) :
    family.defaultKind?.isSome = true := by
  rw [markdown_of_checkbox mem]
  rfl

theorem checkbox_of_defaultKind? {family : Family} {form : CommentForm} (mem : form ∈ family.forms)
    (kind : family.defaultKind?.isSome = true) : form = .checkbox := by
  cases family with
  | markdown => exact List.mem_singleton.1 mem
  | _ => simp [Family.defaultKind?] at kind

theorem defaultKind?_of_ne_checkbox {family : Family} {form : CommentForm}
    (mem : form ∈ family.forms) (plain : form ≠ .checkbox) : family.defaultKind? = none := by
  rw [← Option.not_isSome_iff_eq_none]
  exact fun kind => plain (checkbox_of_defaultKind? mem kind)

/-- The content of an item begins on the line of its checkbox. -/
theorem itemLines_cons {inner : List Char} (some : CommentForm.restOfLine inner ≠ []) :
    ∃ c content, CommentForm.itemLines inner = c :: content ∧ c ≠ '\n' := by
  obtain ⟨lines, _, item, _, _⟩ := CommentForm.itemLines_spec inner
  have sameLine := CommentForm.newline_not_mem_restOfLine inner
  cases line : CommentForm.restOfLine inner with
  | nil => contradiction
  | cons c line' =>
    rw [line] at item sameLine
    exact ⟨c, _, item, fun same => sameLine (same ▸ List.mem_cons_self ..)⟩

/-- The parts of a match: what stands before its keyword, and what follows it. -/
theorem exists_split {form : CommentForm} {text : List Char} {m : Match}
    (found : form.Matches text m) :
    ∃ before rest, byteLength before = m.keywordStart ∧
      byteLength (before ++ m.shape.keyword) = m.keywordEnd ∧
      text = before ++ m.shape.keyword ++ (m.shape.body.chars ++ rest) := by
  obtain ⟨before, rest, length, split⟩ := found.pieces
  refine ⟨before ++ m.shape.opener, rest, ?_, ?_, ?_⟩
  · rw [byteLength_append, length, Match.keywordStart]
  · rw [byteLength_append, byteLength_append, length, Match.keywordEnd, Match.keywordStart]
  · rw [split]
    simp

theorem pieces_of_matches {form : CommentForm} {text : List Char} {m : Match}
    (found : form.Matches text m) : ∃ s, form.Pieces s m.shape := by
  obtain ⟨_, rest, _, _, matched⟩ := found
  exact ⟨rest, CommentForm.pieces_of_matchAt? matched⟩

/-- A whole keyword is read with the content behind it. -/
theorem placed_plainReading {family : Family} {form : CommentForm} {text : List Char} {m : Match}
    {before rest : List Char} (found : form.Matches text m) (reads : Keyword.Reads m.shape.keyword)
    (start : byteLength before = m.keywordStart)
    (stop : byteLength (before ++ m.shape.keyword) = m.keywordEnd)
    (split : text = before ++ m.shape.keyword ++ (m.shape.body.chars ++ rest))
    (whole : Keyword.endsBefore (m.shape.body.chars ++ rest) = true) :
    (plainReading m).Placed family form text m := by
  obtain ⟨_, pieces⟩ := pieces_of_matches found
  unfold plainReading Match.content?
  rw [← stop]
  cases body : m.shape.body with
  | content separator content closer =>
    rw [body] at split whole
    simp only [← byteLength_append]
    refine .keyword before separator content (closer ++ rest) ?_ start reads ?_
      (.inl (pieces.separated _ _ _ body))
    · simpa [Body.chars] using split
    · simpa [Body.chars] using whole
  | tail | absent =>
    have placed : Reading.Placed family form text m
        ⟨m.shape.keyword, byteLength (before ++ m.shape.keyword ++ []), []⟩ :=
      .keyword before [] [] (m.shape.body.chars ++ rest) (by simpa using split) start reads
        (by simpa using whole) (.inr ⟨rfl, rfl⟩)
    simpa using placed

/-- An item without a keyword is read as its content. -/
theorem placed_plainReading_item {family : Family} {text : List Char} {m : Match}
    {before rest : List Char} (found : CommentForm.checkbox.Matches text m)
    (kind : family.defaultKind?.isSome = true) (none : m.shape.keyword = [])
    (stop : byteLength (before ++ m.shape.keyword) = m.keywordEnd)
    (split : text = before ++ m.shape.keyword ++ (m.shape.body.chars ++ rest)) :
    (plainReading m).Placed family .checkbox text m := by
  obtain ⟨_, pieces⟩ := pieces_of_matches found
  obtain ⟨separator, inner, body, solid⟩ := pieces.item rfl
  obtain ⟨c, content, item, sameLine⟩ := itemLines_cons solid
  rw [item] at body
  have content? : m.content? = some (byteLength (before ++ separator), c :: content) := by
    unfold Match.content?
    rw [← stop, body, none, List.append_nil, byteLength_append]
  rw [body, none, List.append_nil] at split
  unfold plainReading
  rw [content?, none]
  exact .bare (before ++ separator) c content rest (by simpa [Body.chars] using split) kind sameLine
    (.inl ⟨none, content?⟩)

/-- The whole word that a glued keyword starts is read as content. -/
theorem wordReading?_placed {family : Family} {text : List Char} {m : Match}
    {before rest : List Char} (found : CommentForm.checkbox.Matches text m)
    (kind : family.defaultKind?.isSome = true) (reads : Keyword.Reads m.shape.keyword)
    (start : byteLength before = m.keywordStart)
    (split : text = before ++ m.shape.keyword ++ (m.shape.body.chars ++ rest)) :
    ∃ reading, wordReading? text m = some reading ∧
      reading.Placed family .checkbox text m := by
  obtain ⟨_, pieces⟩ := pieces_of_matches found
  obtain ⟨separator, inner, body, _⟩ := pieces.item rfl
  obtain ⟨c, word, keyword, initial⟩ := reads.initial
  obtain ⟨all, same⟩ : ∃ all, all = m.shape.keyword ++ separator ++ CommentForm.itemLines inner :=
    ⟨_, rfl⟩
  have text' : text = before ++ all ++ rest := by
    rw [split, body, same]
    simp [Body.chars]
  have piece := slice?_append before all rest
  rw [← text', start] at piece
  refine ⟨⟨[], m.keywordStart, all⟩, ?_, ?_⟩
  · have last : m.keywordEnd + byteLength separator + byteLength (CommentForm.itemLines inner) =
        m.keywordStart + byteLength all := by
      rw [same]
      simp only [byteLength_append, Match.keywordEnd]
      omega
    unfold wordReading? Match.content?
    simp only [body, last, piece, Option.map_some]
  · have sameLine : c ≠ '\n' := by
      rintro rfl
      simp [Keyword.isInitial] at initial
    rw [← start, same, keyword, List.append_assoc, List.cons_append]
    refine .bare before c _ rest ?_ kind sameLine (.inr initial)
    rw [text', same, keyword]
    simp

/-- A keyword is glued to a word where no family takes it as content. -/
theorem reading?_eq_none_iff {family : Family} {text : List Char} {m : Match} :
    reading? family text m = some none ↔ m.shape.keyword ≠ [] ∧
      Keyword.endsAt? text m.keywordEnd = some false ∧ family.defaultKind? = none := by
  unfold reading?
  by_cases none : m.shape.keyword = []
  · simp [none]
  · rw [if_neg none]
    cases Keyword.endsAt? text m.keywordEnd with
    | none => simp
    | some whole =>
      cases whole with
      | true => simp
      | false => cases family.defaultKind? <;> simp [none]

/-- Without a default kind a match is read as it stands, and its keyword is whole. -/
theorem reading?_of_defaultKind?_none {family : Family} {text : List Char} {m : Match}
    {reading : Reading} (kind : family.defaultKind? = none)
    (read : reading? family text m = some (some reading)) :
    reading = plainReading m ∧
      (m.shape.keyword ≠ [] → Keyword.endsAt? text m.keywordEnd = some true) := by
  unfold reading? at read
  split at read
  · next bare =>
    cases read
    exact ⟨rfl, fun some => absurd bare some⟩
  · obtain ⟨whole, ends, read⟩ := Option.bind_eq_some_iff.1 read
    split at read
    · next yes =>
      cases read
      refine ⟨rfl, fun _ => ?_⟩
      rw [ends, yes]
    · rw [if_pos (by rw [kind]; rfl)] at read
      simp at read

/-- A match is read, unless its keyword is glued to a word. -/
theorem reading?_spec {family : Family} {form : CommentForm} {text : List Char} {m : Match}
    (mem : form ∈ family.forms) (found : form.Matches text m) :
    reading? family text m = some none ∨
      ∃ reading, reading? family text m = some (some reading) ∧
        reading.Placed family form text m := by
  obtain ⟨before, rest, start, stop, split⟩ := exists_split found
  obtain ⟨_, pieces⟩ := pieces_of_matches found
  rcases pieces.keyword with ⟨none, rfl⟩ | reads
  · refine .inr ⟨plainReading m, if_pos none, ?_⟩
    exact placed_plainReading_item found (defaultKind?_of_checkbox mem) none stop split
  · have ends : Keyword.endsAt? text m.keywordEnd =
        some (Keyword.endsBefore (m.shape.body.chars ++ rest)) := by
      rw [← stop, split, endsAt?_append]
    have read : reading? family text m =
        if Keyword.endsBefore (m.shape.body.chars ++ rest) then some (some (plainReading m))
        else if family.defaultKind?.isNone then some none
        else (wordReading? text m).map some := by
      rw [reading?, if_neg reads.ne_nil, ends, Option.bind_some]
    rw [read]
    split
    · next whole => exact .inr ⟨_, rfl, placed_plainReading found reads start stop split whole⟩
    · split
      · exact .inl rfl
      · next kind =>
        have kind : family.defaultKind?.isSome = true := by
          rw [Option.isSome_iff_ne_none]
          simpa using kind
        cases checkbox_of_defaultKind? mem kind
        obtain ⟨reading, word, placed⟩ := wordReading?_placed found kind reads start split
        exact .inr ⟨reading, by rw [word]; rfl, placed⟩

/-- The reading of a match is placed in it. -/
theorem placed_of_reading? {family : Family} {form : CommentForm} {text : List Char} {m : Match}
    {reading : Reading} (mem : form ∈ family.forms) (found : form.Matches text m)
    (read : reading? family text m = some (some reading)) :
    reading.Placed family form text m := by
  rcases reading?_spec mem found with glued | ⟨reading', read', placed⟩
  · rw [read] at glued
    simp at glued
  · cases read.symm.trans read'
    exact placed

namespace Reading.Placed
variable {family : Family} {form : CommentForm} {text : List Char} {m : Match} {reading : Reading}

/-- A placed reading names a kind. -/
theorem exists_kind (placed : reading.Placed family form text m) :
    ∃ kind, reading.kind? family = some kind ∧
      (reading.keyword ≠ [] → kind.token = reading.keyword) := by
  cases placed with
  | keyword _ _ _ _ _ _ reads _ _ =>
    obtain ⟨kind, named, token⟩ := reads.exists_token
    exact ⟨kind, by rw [Reading.kind?, if_neg reads.ne_nil, named], fun _ => token⟩
  | bare _ _ _ _ _ kind _ _ =>
    obtain ⟨kind, default⟩ := Option.isSome_iff_exists.1 kind
    exact ⟨kind, by rw [Reading.kind?, if_pos rfl, default], fun some => absurd rfl some⟩

end Reading.Placed

/-- A marker of a keyword goes from the keyword to its end when the body is empty. -/
theorem mark?_of_keyword_empty {text before rest : List Char} {m : Match} {c : Char}
    {word : List Char} (content : List Char) (kind : Kind) (contentStart : Nat)
    (split : text = before ++ (c :: word) ++ rest) (start : byteLength before = m.keywordStart)
    (stop : byteLength (before ++ c :: word) = m.keywordEnd) :
    mark? (ofText text) m ⟨c :: word, contentStart, content⟩ kind [] =
      some ⟨kind, "", (Position.origin.after before).advance c,
        Position.origin.after (before ++ c :: word)⟩ := by
  have first := locateChar?_append before c (word ++ rest)
  have last := locate?_append (before ++ c :: word) rest
  have text' : before ++ c :: (word ++ rest) = text := by simp [split]
  rw [text', start] at first
  rw [← split, stop] at last
  simp [mark?, first, last]

/-- A marker of a keyword goes from the keyword to the end of the body. -/
theorem mark?_of_keyword {text before separator body rest : List Char} {m : Match} {c : Char}
    {word : List Char} (content : List Char) (kind : Kind)
    (split : text = before ++ (c :: word) ++ separator ++ body ++ rest)
    (start : byteLength before = m.keywordStart) (solid : body ≠ []) :
    mark? (ofText text) m ⟨c :: word, byteLength (before ++ (c :: word) ++ separator), content⟩ kind
        body =
      some ⟨kind, String.ofList body, (Position.origin.after before).advance c,
        Position.origin.after (before ++ (c :: word) ++ separator ++ body)⟩ := by
  have first := locateChar?_append before c (word ++ separator ++ body ++ rest)
  have last := locate?_append (before ++ (c :: word) ++ separator ++ body) rest
  have text' : before ++ c :: (word ++ separator ++ body ++ rest) = text := by simp [split]
  rw [text', start] at first
  rw [← split, byteLength_append _ body] at last
  generalize byteLength (before ++ (c :: word) ++ separator) = contentStart at last ⊢
  simp [mark?, first, last, solid]

/-- A marker without a keyword goes from the start to the end of the body. -/
theorem mark?_of_bare {text before body rest : List Char} {c : Char} {content : List Char}
    (m : Match) (kind : Kind) (split : text = before ++ (c :: body) ++ rest) :
    mark? (ofText text) m ⟨[], byteLength before, content⟩ kind (c :: body) =
      some ⟨kind, String.ofList (c :: body), (Position.origin.after before).advance c,
        Position.origin.after (before ++ c :: body)⟩ := by
  have first := locateChar?_append before c (body ++ rest)
  have last := locate?_append (before ++ c :: body) rest
  have text' : before ++ c :: (body ++ rest) = text := by simp [split]
  rw [text'] at first
  rw [← split, byteLength_append, byteLength_cons] at last
  simp [mark?, first, last]

end Markers.Scan
