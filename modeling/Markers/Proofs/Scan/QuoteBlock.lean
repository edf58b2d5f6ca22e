import Markers.Proofs.Scan.Block
import Markers.Proofs.Scan.Coverage
import Markers.Proofs.Text.TripleQuote
import Markers.Session
import Mathlib.Algebra.Group.Nat.Even

/-!
# Blocks between triple quotes

In Python the delimiter that opens a block is the one that closes it, and a block without a marker
is passed over. `HeadsBlock` says where a block with a marker may start: at three quotes with a
keyword behind them, whether they open a block or close one, or are no delimiter at all
(`getElem?_delimiters_start_iff`). A match passes one delimiter up to its keyword and inside, and
two up to its end (`delimitersBefore_keyword`, `delimitersBefore_inside`,
`delimitersBefore_behind`); so of the places that may start a block exactly those do that are not
the next delimiter behind another start (`Run.markedAt_iff`). `scanText_quoteBlocks` says when all
keywords stand inside blocks.
-/

namespace Markers
open Text Position

/-- At an offset of the text stand three quotes, behind them nothing but blanks and stars, and then
the keyword of `kind`, which is a whole word and the longest one there. Its first character has the
position `start`. -/
def HeadsBlock (text : List Char) (offset : Nat) (kind : Kind) (start : Position) : Prop :=
  ∃ before gap rest, text = before ++ ['"', '"', '"'] ++ gap ++ kind.token ++ rest ∧
    byteLength before = offset ∧ (∀ c ∈ gap, isBlank c = true ∨ c = '*') ∧
    Keyword.IsLongest kind.token (kind.token ++ rest) ∧ Keyword.endsBefore rest = true ∧
    start = ⟨(origin.after (before ++ ['"', '"', '"'] ++ gap)).line,
      (origin.after (before ++ ['"', '"', '"'] ++ gap)).column + 1⟩

namespace CommentForm

/-- What may stand between three quotes and a keyword. -/
theorem gap_quoteBlock {c : Char} : quoteBlock.gap c = true ↔ isBlank c = true ∨ c = '*' := by
  rw [gap, Bool.or_eq_true, beq_iff_eq]

/-- No quote is part of a gap, a keyword or a separator. -/
theorem quote_not_mem_of_gap {gap : List Char} (gaps : ∀ c ∈ gap, quoteBlock.gap c = true) :
    '"' ∉ gap := by
  intro mem
  exact absurd (gaps _ mem) (by decide)

theorem quote_not_mem_colonSpace (s : List Char) : '"' ∉ (colonSpace s).1 := by
  rcases colonSpace_separates s with h | h | h | h <;> simp [h]

end CommentForm

theorem Keyword.Reads.quote_not_mem {keyword : List Char} (h : Reads keyword) : '"' ∉ keyword := by
  intro mem
  exact absurd (h.word _ mem) (by decide)

namespace Scan
open PositionIndex

/-! ## Matches -/

/-- In Python, a text without a hash has matches of blocks only. -/
theorem quoteBlock_of_matches {text : List Char} {form : CommentForm} {m : Match}
    (noHash : '#' ∉ text) (mem : form ∈ Family.python.forms) (found : form.Matches text m) :
    form = .quoteBlock := by
  rcases List.mem_cons.1 mem with rfl | mem
  · rfl
  · cases List.mem_singleton.1 mem
    obtain ⟨before, rest, rfl, _, matched⟩ := found
    obtain ⟨behind, rfl⟩ := CommentForm.lead_prefix_of_matchAt? matched
    exact absurd (by simp [CommentForm.lead, LineOpener.chars]) noHash

/-- What a match between triple quotes begins with: three quotes, a gap and the keyword. -/
structure Headed (text : List Char) (m : Match) (before gap tail : List Char) : Prop where
  split : text = before ++ ['"', '"', '"'] ++ gap ++ m.shape.keyword ++ tail
  start : byteLength before = m.start
  keywordStart : byteLength (before ++ ['"', '"', '"'] ++ gap) = m.keywordStart
  gaps : ∀ c ∈ gap, CommentForm.quoteBlock.gap c = true
  read : Keyword.read? (m.shape.keyword ++ tail) = some (m.shape.keyword, tail)
  body : CommentForm.quoteBlock.body? tail = some m.shape.body

theorem exists_headed {text : List Char} {m : Match}
    (found : CommentForm.quoteBlock.Matches text m) :
    ∃ before gap tail, Headed text m before gap tail := by
  obtain ⟨before, _, rfl, place, matched⟩ := found
  obtain ⟨rest, tail, opened, read, body⟩ := CommentForm.matchAt?_eq_some (by simp) matched
  obtain ⟨gap, opener, gaps⟩ := CommentForm.opener?_eq_lead (by simp) opened
  obtain ⟨_, rfl⟩ := Keyword.read?_spec read
  obtain rfl := CommentForm.opener?_eq_append opened
  change m.shape.opener = _ at opener
  refine ⟨before, gap, tail, ?_, place, ?_, gaps, read, body⟩
  · simp [opener, CommentForm.lead]
  · simp only [Match.keywordStart, opener, CommentForm.lead, byteLength_append, place]
    omega

/-- A match between triple quotes: three quotes, other characters, and the content up to the next
delimiter, behind which `behind` follows. -/
structure Quoted (text : List Char) (m : Match)
    (before plain inner content behind : List Char) : Prop where
  split : text = before ++ ['"', '"', '"'] ++ plain ++ inner
  start : byteLength before = m.start
  keyword : byteLength (before ++ ['"', '"', '"']) ≤ m.keywordEnd
  some : plain ≠ []
  others : '"' ∉ plain
  upToFirst : CommentForm.UpToFirst ['"', '"', '"'] inner content behind
  stop : m.stop + byteLength behind = byteLength text

/-- Every block has content. -/
theorem exists_content_of_quoteBlock {text : List Char} {m : Match}
    (found : CommentForm.quoteBlock.Matches text m) :
    ∃ separator content close, m.shape.body = .content separator content close ∧
      m.content? = some (m.keywordEnd + byteLength separator, content) := by
  obtain ⟨_, _, _, h⟩ := exists_headed found
  have body := Option.some.inj h.body
  exact ⟨_, _, _, body.symm, by rw [Match.content?, ← body]; rfl⟩

theorem exists_quoted {text : List Char} {m : Match}
    (found : CommentForm.quoteBlock.Matches text m) :
    ∃ before plain inner content behind, Quoted text m before plain inner content behind := by
  obtain ⟨separator, content, close, body, _⟩ := exists_content_of_quoteBlock found
  obtain ⟨before, gap, tail, h⟩ := exists_headed found
  have bodied := h.body
  rw [body] at bodied
  have separated : '"' ∉ separator := by
    rw [← (Body.content.inj (Option.some.inj bodied)).1]
    exact CommentForm.quote_not_mem_colonSpace tail
  obtain ⟨inner, behind, rfl, whole, upToFirst⟩ :=
    CommentForm.exists_upToFirst_of_block rfl bodied
  obtain ⟨reads, _⟩ := Keyword.read?_spec h.read
  refine ⟨before, gap ++ m.shape.keyword ++ separator, inner, content, behind, ?_, h.start, ?_, ?_,
    ?_, upToFirst, ?_⟩
  · rw [h.split]
    simp
  · have place := h.keywordStart
    rw [byteLength_append] at place
    rw [Match.keywordEnd]
    omega
  · simp [reads.ne_nil]
  · simp [CommentForm.quote_not_mem_of_gap h.gaps, reads.quote_not_mem, separated]
  · rw [h.split]
    simp only [Match.stop, Match.keywordEnd, ← h.keywordStart, body, Body.chars, whole,
      byteLength_append]
    omega

namespace Quoted
variable {text before plain inner content behind before' plain' inner' content' behind' : List Char}
  {m m' : Match}

/-- One delimiter stands in front of the content. -/
theorem delimitersBefore_append (h : Quoted text m before plain inner content behind)
    {x rest : List Char} (split : inner = x ++ rest) :
    delimitersBefore text (byteLength (before ++ ['"', '"', '"'] ++ plain ++ x)) =
      delimitersBefore text m.start + 1 + tripleQuotes x := by
  have first : before <+: text := by simp [h.split]
  have here : before ++ ['"', '"', '"'] ++ plain ++ x <+: text := by simp [h.split, split]
  rw [← h.start, delimitersBefore_of_prefix first, delimitersBefore_of_prefix here,
    tripleQuotes_append_plain _ h.some fun c mem same => h.others (same ▸ mem),
    tripleQuotes_append_quotes]

/-- A block that starts behind another one starts in its content, or behind that. -/
theorem exists_of_lt (h : Quoted text m before plain inner content behind)
    (h' : Quoted text m' before' plain' inner' content' behind')
    (found : CommentForm.quoteBlock.Matches text m)
    (found' : CommentForm.quoteBlock.Matches text m') (later : m.start < m'.start) :
    ∃ x, inner = x ++ ['"', '"', '"'] ++ (plain' ++ inner') ∧
      byteLength (before ++ ['"', '"', '"'] ++ plain ++ x) = m'.start := by
  have keyword : m.keywordEnd ≤ m'.start := by
    by_contra within
    have mem : CommentForm.quoteBlock ∈ Family.python.forms := by simp [Family.forms]
    obtain ⟨angle, _⟩ := keywordEnd_of_overlap mem mem (by simp) found found' later (by omega)
    simp at angle
  have same : before ++ ['"', '"', '"'] ++ plain ++ inner =
      before' ++ '"' :: ('"' :: '"' :: (plain' ++ inner')) := by
    rw [← h.split, h'.split]
    simp
  have passed : byteLength (before ++ ['"', '"', '"'] ++ plain) ≤ byteLength before' := by
    refine byteLength_le_of_not_mem same ?_ h.others
    rw [h'.start]
    exact Nat.le_trans h.keyword keyword
  obtain ⟨x, rfl, here⟩ := append_of_le same passed
  exact ⟨x, by simpa using here, h'.start⟩

end Quoted

/-- Between the start of a match and its keyword stands one delimiter. -/
theorem delimitersBefore_keyword {text : List Char} {m : Match}
    (found : CommentForm.quoteBlock.Matches text m) :
    delimitersBefore text m.keywordStart = delimitersBefore text m.start + 1 := by
  obtain ⟨before, gap, tail, h⟩ := exists_headed found
  have others : ∀ c ∈ gap, c ≠ '"' := fun c mem same =>
    CommentForm.quote_not_mem_of_gap h.gaps (same ▸ mem)
  have first : before <+: text := by simp [h.split]
  have here : before ++ ['"', '"', '"'] ++ gap <+: text := by simp [h.split]
  rw [← h.start, ← h.keywordStart, delimitersBefore_of_prefix first,
    delimitersBefore_of_prefix here, tripleQuotes_append_others _ others,
    tripleQuotes_append_quotes]

/-- A match starts at a delimiter exactly if the quotes directly in front of it come in threes. -/
theorem getElem?_delimiters_start_iff {text : List Char} {m : Match}
    (found : CommentForm.quoteBlock.Matches text m) (number : Nat) :
    (delimiters 0 text)[number]? = some m.start ↔
      number = delimitersBefore text m.start ∧ 3 ∣ quotesBefore text m.start := by
  obtain ⟨before, gap, tail, h⟩ := exists_headed found
  have first : before <+: text := by simp [h.split]
  have three := getElem?_delimiters_iff before (gap ++ m.shape.keyword ++ tail) number
  rwa [← delimitersBefore_of_prefix first, ← quotesBefore_of_prefix first, h.start,
    ← List.append_assoc, ← List.append_assoc, ← h.split] at three

/-- A block that starts inside another one starts at its closing delimiter, which is the next one. -/
theorem delimitersBefore_inside {text : List Char} {m m' : Match}
    (found : CommentForm.quoteBlock.Matches text m)
    (found' : CommentForm.quoteBlock.Matches text m') (later : m.start < m'.start)
    (inside : m'.start < m.stop) :
    delimitersBefore text m'.start = delimitersBefore text m.start + 1 := by
  obtain ⟨before, plain, inner, content, behind, h⟩ := exists_quoted found
  obtain ⟨before', plain', inner', content', behind', h'⟩ := exists_quoted found'
  obtain ⟨x, here, place⟩ := h.exists_of_lt h' found found' later
  obtain ⟨t, rfl⟩ := h.upToFirst.leads here
  have short : t.length < 3 := by
    have stop := h.stop
    have bytes := length_le_byteLength t
    have upToFirst := h.upToFirst
    rw [h.split] at stop
    cases upToFirst with
    | closed _ _ split _ =>
      rw [split] at stop
      have three : byteLength ['"', '"', '"'] = 3 := rfl
      simp only [byteLength_append] at stop place
      omega
    | unclosed absent => exact absurd ⟨_, _, here.symm⟩ absent
  have count := h.delimitersBefore_append (x := content ++ t) (by rw [here, List.append_assoc])
  have none := tripleQuotes_eq_zero_of_upToFirst h.upToFirst
    ⟨['"', '"', '"'] ++ (plain' ++ inner'), by rw [here]; simp⟩ short
  rw [place, none] at count
  exact count

/-- A block that starts behind another one has both delimiters of that in front of it. -/
theorem delimitersBefore_behind {text : List Char} {m m' : Match}
    (found : CommentForm.quoteBlock.Matches text m)
    (found' : CommentForm.quoteBlock.Matches text m') (later : m.stop ≤ m'.start) :
    delimitersBefore text m.start + 2 ≤ delimitersBefore text m'.start := by
  obtain ⟨before, plain, inner, content, behind, h⟩ := exists_quoted found
  obtain ⟨before', plain', inner', content', behind', h'⟩ := exists_quoted found'
  obtain ⟨x, here, place⟩ :=
    h.exists_of_lt h' found found' (Nat.lt_of_lt_of_le m.start_lt_stop later)
  have stop := h.stop
  have upToFirst := h.upToFirst
  rw [h.split] at stop
  cases upToFirst with
  | closed _ _ split _ =>
    -- the closing delimiter is part of `x`
    have closes : content ++ ['"', '"', '"'] <+: x := by
      have split' := split
      rw [here, List.append_assoc] at split'
      obtain ⟨y, rfl, _⟩ := append_of_le split'.symm (by
        rw [split] at stop
        simp only [byteLength_append] at stop place ⊢
        omega)
      exact List.prefix_append _ _
    obtain ⟨y, rfl⟩ := closes
    have count := h.delimitersBefore_append (x := content ++ ['"', '"', '"'] ++ y)
      (by rw [here, List.append_assoc])
    have more := tripleQuotes_le_append (content ++ ['"', '"', '"']) y
    rw [tripleQuotes_append_quotes] at more
    rw [place] at count
    omega
  | unclosed absent => exact absurd ⟨_, _, here.symm⟩ absent

/-! ## Steps -/

namespace Step.Possible
variable {text : List Char} {step step' : Step} {marker : Marker}

/-- The match of a block with a marker starts at three quotes with its keyword behind them. -/
theorem headsBlock (h : step.Possible .python text) (block : step.candidate.form = .quoteBlock)
    (some : step.outcome.marker = some marker) :
    HeadsBlock text step.candidate.place.start marker.kind marker.start := by
  have found := h.found
  rw [block] at found
  obtain ⟨_, _, _, _, has⟩ := exists_content_of_quoteBlock found
  have style : step.candidate.form.style = .block := by rw [block]; rfl
  have whole := (h.isSome_marker_iff_of_block style has).1 (by rw [some]; rfl)
  obtain ⟨reading, kept, front, separator, behind, marked⟩ := h.exists_marked some
  have kind := defaultKind?_of_ne_checkbox h.form_mem (by simp [block])
  obtain ⟨rfl, _⟩ := reading?_of_defaultKind?_none kind marked.read
  have keyword : (plainReading step.candidate.place).keyword =
      step.candidate.place.shape.keyword := by
    rw [plainReading, has]
  obtain ⟨before, gap, tail, h'⟩ := exists_headed found
  obtain ⟨reads, _⟩ := Keyword.read?_spec h'.read
  have token : marker.kind.token = step.candidate.place.shape.keyword := by
    obtain ⟨kind', named, token⟩ := marked.placed.exists_kind
    cases marked.named.symm.trans named
    rw [token (by rw [keyword]; exact reads.ne_nil), keyword]
  have text' : text = before ++ ['"', '"', '"'] ++ gap ++ marker.kind.token ++ tail := by
    rw [h'.split, token]
  refine ⟨before, gap, tail, text', h'.start,
    fun c mem => CommentForm.gap_quoteBlock.1 (h'.gaps c mem), ?_, ?_, ?_⟩
  · rw [token]
    exact Keyword.isLongest_of_read? h'.read
  · have ends := endsAt?_append (before ++ ['"', '"', '"'] ++ gap ++ marker.kind.token) tail
    rw [← text', byteLength_append, h'.keywordStart, token] at ends
    exact Option.some.inj (ends.symm.trans whole)
  · obtain ⟨c, span, _, sameLine, start, _⟩ := marked.spans.first
    have opens := marked.spans.opens
    rw [if_neg (by rw [keyword]; exact reads.ne_nil), ← h'.keywordStart] at opens
    have parts := marked.spans.split
    rw [List.append_assoc, text', List.append_assoc _ marker.kind.token] at parts
    obtain ⟨same, _⟩ := append_inj_of_byteLength parts opens.symm
    rw [start, ← same, advance, if_neg sameLine]

/-- Scanning goes on behind a block with a marker. -/
theorem cursor_of_quoteBlock (h : step.Possible .python text)
    (block : step.candidate.form = .quoteBlock) (some : step.outcome.marker = some marker) :
    step.outcome.cursor = step.candidate.place.stop := by
  have found := h.found
  rw [block] at found
  obtain ⟨_, _, _, body, has⟩ := exists_content_of_quoteBlock found
  obtain ⟨_, goesOn⟩ := h.body_of_block (by rw [block]; rfl) has some
  rw [goesOn, resume, body]

end Step.Possible

/-- Where a block may start there is a match, and it has a marker. -/
theorem exists_step_of_headsBlock {text : List Char} {offset : Nat} {kind : Kind} {start : Position}
    (h : HeadsBlock text offset kind start) :
    ∃ step : Step, step.Possible .python text ∧ step.candidate.form = .quoteBlock ∧
      step.candidate.place.start = offset ∧ step.outcome.marker.isSome = true := by
  obtain ⟨before, gap, rest, rfl, rfl, gaps, longest, whole, rfl⟩ := h
  have read := Keyword.read?_of_isLongest longest
  obtain ⟨reads, _⟩ := Keyword.read?_spec read
  obtain ⟨c, word, initial, capital⟩ := reads.initial
  have opened : CommentForm.quoteBlock.opener?
      (['"', '"', '"'] ++ (gap ++ (kind.token ++ rest))) =
        some (['"', '"', '"'] ++ gap, kind.token ++ rest) := by
    have all : ∀ c ∈ gap, (isBlank c || c == '*') = true := fun c mem =>
      CommentForm.gap_quoteBlock.2 (gaps c mem)
    have other : (isBlank c || c == '*') = false := by
      apply Bool.eq_false_iff.2
      intro inGap
      have gap : CommentForm.quoteBlock.gap c = true := inGap
      have none := CommentForm.not_isInitial_of_gap gap
      rw [capital] at none
      cases none
    have run : CommentForm.run (fun c => isBlank c || c == '*') (gap ++ (kind.token ++ rest)) =
        (gap, kind.token ++ rest) := by
      rw [CommentForm.run, List.takeWhile_append_of_pos all, List.dropWhile_append_of_pos all,
        initial, List.cons_append, List.takeWhile_cons, List.dropWhile_cons, other]
      simp
    have front : ['"', '"', '"'].isPrefixOf? (['"', '"', '"'] ++ (gap ++ (kind.token ++ rest))) =
        some (gap ++ (kind.token ++ rest)) := List.isPrefixOf?_eq_some_iff_append_eq.2 rfl
    show CommentForm.literalRun? _ _ _ = _
    rw [CommentForm.literalRun?, front, Option.map_some, run]
  obtain ⟨shape, matched, opener, keyword, body⟩ :=
    CommentForm.exists_matchAt? (lineStart before) (by simp) opened read rfl
  have mem : CommentForm.quoteBlock ∈ Family.python.forms := by simp [Family.forms]
  have found : CommentForm.quoteBlock.Matches
      (before ++ ['"', '"', '"'] ++ gap ++ kind.token ++ rest)
      ⟨byteLength before, shape⟩ :=
    ⟨before, _, by simp, rfl, matched⟩
  obtain ⟨o, accepted, _⟩ := accept?_spec mem found
  refine ⟨⟨⟨.quoteBlock, ⟨byteLength before, shape⟩⟩, o⟩, ⟨mem, found, accepted⟩, rfl, rfl, ?_⟩
  obtain ⟨_, _, _, _, has⟩ := exists_content_of_quoteBlock found
  have possible : Step.Possible .python _ ⟨⟨.quoteBlock, ⟨byteLength before, shape⟩⟩, o⟩ :=
    ⟨mem, found, accepted⟩
  refine (possible.isSome_marker_iff_of_block rfl has).2 ?_
  have ends := endsAt?_append (before ++ ['"', '"', '"'] ++ gap ++ kind.token) rest
  rw [whole] at ends
  rw [← ends]
  simp only [Match.keywordEnd, Match.keywordStart, opener, keyword, byteLength_append, Nat.add_assoc]

/-! ## Runs -/

/-- A marker of the run was found in a match that starts at the offset. -/
def MarkedAt (steps : List Step) (offset : Nat) : Prop :=
  ∃ step ∈ steps, step.outcome.marker.isSome = true ∧ step.candidate.place.start = offset

namespace Run
variable {text : List Char} {steps : List Step}

theorem quoteBlock_of_mem (run : Run .python text 0 steps) (noHash : '#' ∉ text) {step : Step}
    (mem : step ∈ steps) : step.candidate.form = .quoteBlock :=
  have possible := run.possible_of_mem mem
  quoteBlock_of_matches noHash possible.form_mem possible.found

/-- Of two blocks with markers the later one has both delimiters of the other in front of it. -/
theorem delimitersBefore_ne (run : Run .python text 0 steps) (noHash : '#' ∉ text)
    {step step' : Step} (mem : step ∈ steps) (mem' : step' ∈ steps)
    (marked : step.outcome.marker.isSome = true) (marked' : step'.outcome.marker.isSome = true) :
    delimitersBefore text step.candidate.place.start + 1 ≠
      delimitersBefore text step'.candidate.place.start := by
  have apart : ∀ {a b : Step}, a ∈ steps → b ∈ steps → a.outcome.marker.isSome = true →
      a.outcome.cursor ≤ b.candidate.place.start →
        delimitersBefore text a.candidate.place.start + 2 ≤
          delimitersBefore text b.candidate.place.start := by
    intro a b mem mem' marked behind
    have possible := run.possible_of_mem mem
    have block := run.quoteBlock_of_mem noHash mem
    obtain ⟨marker, some⟩ := Option.isSome_iff_exists.1 marked
    rw [possible.cursor_of_quoteBlock block some] at behind
    have found := possible.found
    have found' := (run.possible_of_mem mem').found
    rw [block] at found
    rw [run.quoteBlock_of_mem noHash mem'] at found'
    exact delimitersBefore_behind found found' behind
  by_cases same : step = step'
  · rw [same]
    omega
  · rcases run.le_start_or_le_start mem mem' same with behind | behind
    · have count := apart mem mem' marked behind
      omega
    · have count := apart mem' mem marked' behind
      omega

/-- A place that may start a block starts one exactly if none starts at the delimiter in front. -/
theorem markedAt_iff (run : Run .python text 0 steps) (noHash : '#' ∉ text) {offset : Nat}
    {kind : Kind} {start : Position} (h : HeadsBlock text offset kind start) :
    MarkedAt steps offset ↔ ¬ ∃ opener, MarkedAt steps opener ∧
      delimitersBefore text opener + 1 = delimitersBefore text offset := by
  constructor
  · rintro ⟨step, mem, marked, rfl⟩ ⟨_, ⟨step', mem', marked', rfl⟩, next⟩
    exact run.delimitersBefore_ne noHash mem' mem marked' marked next
  · intro free
    obtain ⟨step, possible, block, rfl, marked⟩ := exists_step_of_headsBlock h
    rcases run.covers possible marked (Nat.zero_le _) with
      mem | ⟨taken, mem, marked', before, inside⟩
    · exact ⟨step, mem, marked, rfl⟩
    · refine absurd ⟨_, ⟨taken, mem, marked', rfl⟩, ?_⟩ free
      have possible' := run.possible_of_mem mem
      have block' := run.quoteBlock_of_mem noHash mem
      obtain ⟨marker, some⟩ := Option.isSome_iff_exists.1 marked'
      rw [possible'.cursor_of_quoteBlock block' some] at inside
      have found := possible.found
      have found' := possible'.found
      rw [block] at found
      rw [block'] at found'
      exact (delimitersBefore_inside found' found before inside).symm

theorem exists_headsBlock (run : Run .python text 0 steps) (noHash : '#' ∉ text) {offset : Nat}
    (marked : MarkedAt steps offset) : ∃ kind start, HeadsBlock text offset kind start := by
  obtain ⟨step, mem, marked, rfl⟩ := marked
  obtain ⟨marker, some⟩ := Option.isSome_iff_exists.1 marked
  exact ⟨_, _, (run.possible_of_mem mem).headsBlock (run.quoteBlock_of_mem noHash mem) some⟩

/-- Blocks with markers start at opening delimiters, which have an even number of others in front of
them, exactly if each block whose closing delimiter has a keyword behind it begins with one as
well. -/
theorem even_iff (run : Run .python text 0 steps) (noHash : '#' ∉ text) :
    (∀ offset, MarkedAt steps offset → Even (delimitersBefore text offset)) ↔
      ∀ offset kind start, HeadsBlock text offset kind start →
        ¬ Even (delimitersBefore text offset) → ∃ opener kind' start',
          HeadsBlock text opener kind' start' ∧
            delimitersBefore text opener + 1 = delimitersBefore text offset := by
  constructor
  · intro even offset kind start head odd
    have free : ¬ MarkedAt steps offset := fun taken => odd (even offset taken)
    rw [run.markedAt_iff noHash head, not_not] at free
    obtain ⟨opener, taken, next⟩ := free
    obtain ⟨kind', start', head'⟩ := run.exists_headsBlock noHash taken
    exact ⟨opener, kind', start', head', next⟩
  · intro headed offset marked
    induction number : delimitersBefore text offset using Nat.strongRecOn generalizing offset with
    | _ n ih =>
      subst number
      obtain ⟨kind, start, head⟩ := run.exists_headsBlock noHash marked
      by_contra odd
      obtain ⟨opener, kind', start', head', next⟩ := headed offset kind start head odd
      -- the block in front is not taken, so the one in front of that is, and it is at an odd number
      have free := (run.markedAt_iff noHash head).1 marked
      have passed : ¬ MarkedAt steps opener := fun taken => free ⟨opener, taken, next⟩
      rw [run.markedAt_iff noHash head', not_not] at passed
      obtain ⟨first, taken, before⟩ := passed
      have even := ih _ (by omega) first taken rfl
      rw [← next, ← before] at odd
      exact odd (by simpa [Nat.even_add_one] using even)

end Run

/-- How the blocks with markers lie among the delimiters of a text. -/
structure QuoteBlocks (text : List Char) (steps : List Step) : Prop where
  /-- The match of a marker starts at three quotes in front of its keyword. -/
  heads : ∀ step ∈ steps, ∀ marker, step.outcome.marker = some marker →
    step.candidate.form = .quoteBlock ∧
      HeadsBlock text step.candidate.place.start marker.kind marker.start
  /-- Between the start of a match and its keyword stands one delimiter. So the keyword is inside a
  block, behind an odd number of delimiters, exactly if the match starts behind an even number. -/
  inside : ∀ step ∈ steps, delimitersBefore text step.candidate.place.keywordStart =
    delimitersBefore text step.candidate.place.start + 1
  /-- A match starts at a delimiter, the next one behind those in front of it, exactly if the quotes
  directly in front of it come in threes. -/
  numbered : ∀ step ∈ steps, ∀ number,
    (delimiters 0 text)[number]? = some step.candidate.place.start ↔
      number = delimitersBefore text step.candidate.place.start ∧
        3 ∣ quotesBefore text step.candidate.place.start
  /-- Of the places that may start a block those do that are not the next delimiter behind the start
  of another one. -/
  taken : ∀ offset kind start, HeadsBlock text offset kind start →
    (MarkedAt steps offset ↔ ¬ ∃ opener, MarkedAt steps opener ∧
      delimitersBefore text opener + 1 = delimitersBefore text offset)
  /-- No marker is found behind a closing delimiter exactly if each block whose closing delimiter
  may start one may start as well. -/
  opening : (∀ offset, MarkedAt steps offset → Even (delimitersBefore text offset)) ↔
    ∀ offset kind start, HeadsBlock text offset kind start →
      ¬ Even (delimitersBefore text offset) → ∃ opener kind' start',
        HeadsBlock text opener kind' start' ∧
          delimitersBefore text opener + 1 = delimitersBefore text offset

end Scan

open Scan in
/-- **Blocks and their delimiters.** In a Python file without a hash the match of a finding starts
at three quotes in front of its keyword, with nothing but blanks and stars between them. These three
are one of the delimiters, counted from the left, exactly if the quotes directly in front of them
come in threes, and the keyword is inside a block exactly if an even number of delimiters is in
front of them. Of all such places exactly those start a finding at which no finding starts one
delimiter further left. So all keywords are inside blocks exactly if each such place behind an odd
number of delimiters has another one with one delimiter fewer in front of it. -/
theorem scanText_quoteBlocks {path : Path} (known : Family.ofPath? path = some .python)
    (text : String) (noHash : '#' ∉ text.toList) :
    ∃ steps, Run .python text.toList 0 steps ∧
      scanText path text = .ok ⟨path, (markers steps).map (Finding.ofMarker path)⟩ ∧
      QuoteBlocks text.toList steps := by
  obtain ⟨steps, run, found⟩ := exists_scan? .python text.toList
  have matched : ∀ step ∈ steps,
      CommentForm.quoteBlock.Matches text.toList step.candidate.place := by
    intro step mem
    rw [← run.quoteBlock_of_mem noHash mem]
    exact (run.possible_of_mem mem).found
  refine ⟨steps, run, scanText_of_scan? known found, ?_, ?_, ?_, ?_, run.even_iff noHash⟩
  · intro step mem marker some
    have block := run.quoteBlock_of_mem noHash mem
    exact ⟨block, (run.possible_of_mem mem).headsBlock block some⟩
  · exact fun step mem => delimitersBefore_keyword (matched step mem)
  · exact fun step mem => getElem?_delimiters_start_iff (matched step mem)
  · intro offset kind start head
    exact run.markedAt_iff noHash head

open Scan in
theorem scanText_quoteBlocks_closed :
    Family.ofPath? ⟨"a.py"⟩ = some .python ∧
      '#' ∉ "\"\"\"TODO: a\"\"\" BUG: b \"\"\"\n* NOTE c\"\"\"".toList ∧
      ∃ steps,
        Run .python "\"\"\"TODO: a\"\"\" BUG: b \"\"\"\n* NOTE c\"\"\"".toList 0 steps ∧
        scanText ⟨"a.py"⟩ "\"\"\"TODO: a\"\"\" BUG: b \"\"\"\n* NOTE c\"\"\"" =
          .ok ⟨⟨"a.py"⟩, (markers steps).map (Finding.ofMarker ⟨"a.py"⟩)⟩ ∧
        QuoteBlocks "\"\"\"TODO: a\"\"\" BUG: b \"\"\"\n* NOTE c\"\"\"".toList steps :=
  have noHash : '#' ∉ "\"\"\"TODO: a\"\"\" BUG: b \"\"\"\n* NOTE c\"\"\"".toList := by decide
  ⟨by decide, noHash, scanText_quoteBlocks (by decide) _ noHash⟩

open Scan in
/-- A block without a keyword is passed over, and its closing delimiter, the second one, starts a
finding. -/
theorem scanText_quoteBlocks_passed :
    '#' ∉ "\"\"\"a\"\"\" TODO: x".toList ∧
      scanText ⟨"a.py"⟩ "\"\"\"a\"\"\" TODO: x" =
        .ok ⟨⟨"a.py"⟩, [⟨"x", .todo, ⟨"a.py"⟩, ⟨1, 9⟩, ⟨1, 15⟩⟩]⟩ ∧
      ∃ step, Run .python "\"\"\"a\"\"\" TODO: x".toList 0 [step] ∧
        step.outcome.marker = some ⟨.todo, "x", ⟨1, 9⟩, ⟨1, 15⟩⟩ ∧
        step.candidate.form = .quoteBlock ∧
        (delimiters 0 "\"\"\"a\"\"\" TODO: x".toList)[1]? = some step.candidate.place.start := by
  have known : Family.ofPath? ⟨"a.py"⟩ = some .python := by decide
  have run : Run .python "\"\"\"a\"\"\" TODO: x".toList 0
      [⟨⟨.quoteBlock, ⟨4, ⟨['"', '"', '"', ' '], "TODO".toList, .content [':', ' '] ['x'] [],
          by decide⟩⟩⟩,
        ⟨15, some ⟨.todo, "x", ⟨1, 9⟩, ⟨1, 15⟩⟩⟩⟩] :=
    .of_nextMatch rfl rfl (.done (nextMatch_eq_none_iff.1 rfl))
  exact ⟨by decide, scanText_of_scan? known run.scan?_eq, _, run, rfl, rfl, by decide⟩

end Markers
