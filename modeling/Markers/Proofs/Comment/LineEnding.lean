import Markers.Proofs.Comment.Stop
import Markers.Proofs.Text.LineEnding

/-!
# Comments in a text with carriage returns

No opener, keyword or separator tells a carriage return from a newline, so a form reads the same
pieces with or without them (`MatchesAlike`). A body that goes to the end of its line takes the
carriage return in front of the newline as its last character (`Body.Trails`), which neither adds a
stop nor removes one (`stopIn_toCrlf`).
-/

namespace Markers

namespace Keyword
open Text

theorem not_isAlphanum_toCrlf {s : List Char} (apart : ∀ c ∈ s.head?, c.isAlphanum = false) :
    ∀ c ∈ (toCrlf s).head?, c.isAlphanum = false := by
  intro c first
  rcases head?_toCrlf first with same | ⟨rfl, _⟩
  · exact apart c same
  · rfl

/-- A keyword is read alike in a text with carriage returns. -/
theorem read?_toCrlf (s : List Char) :
    read? (toCrlf s) = (read? s).map fun q => (q.1, toCrlf q.2) := by
  obtain ⟨word, rest, rfl, oneLine, apart⟩ := exists_word s
  rw [toCrlf_append, toCrlf_of_not_mem oneLine, read?_append (not_isAlphanum_toCrlf apart),
    read?_append apart]
  cases read : read? word with
  | none => rfl
  | some q =>
    obtain ⟨_, split⟩ := read?_spec read
    have behind : '\n' ∉ q.2 := by
      intro newline
      exact oneLine (split ▸ List.mem_append_right _ newline)
    simp [toCrlf_of_not_mem behind]

/-- A keyword ends alike in a text with carriage returns. -/
theorem endsBefore_toCrlf (s : List Char) : endsBefore (toCrlf s) = endsBefore s := by
  cases s with
  | nil => rfl
  | cons c s =>
    by_cases newline : c = '\n'
    · subst newline
      rfl
    · rw [toCrlf_cons newline]
      rfl

theorem longest_toCrlf (s : List Char) :
    longest (toCrlf s) = ((longest s).1, toCrlf (longest s).2) := by
  unfold longest
  rw [read?_toCrlf]
  cases read? s with
  | none => rfl
  | some q => rfl

end Keyword

/-! ## Pieces -/

namespace Body

/-- The delimiter that closes a body. -/
def closer : Body → List Char
  | content _ _ closer => closer
  | tail _ | absent _ => []

/-- A body in a text with carriage returns, with those that stand behind it as well. -/
def toCrlf (cr : List Char) : Body → Body
  | content separator text closer =>
    content (Text.toCrlf separator) (Text.toCrlf text ++ cr) (Text.toCrlf closer)
  | tail text => tail (Text.toCrlf text ++ cr)
  | absent closer => absent (Text.toCrlf closer ++ cr)

/-- The carriage return that stands behind a body if the newline does that ends its line. -/
inductive Trails (body : Body) (rest : List Char) : List Char → Prop where
  | nothing : Trails body rest []
  | newline (behind : List Char) (follows : rest = '\n' :: behind) (unclosed : body.closer = []) :
    Trails body rest ['\r']

theorem Trails.crBefore {body : Body} {rest cr : List Char} (h : body.Trails rest cr) :
    Text.CrBefore rest cr := by
  cases h with
  | nothing => exact .nothing
  | newline behind follows _ => exact .newline behind follows

theorem Trails.crBefore_closer {body : Body} {rest cr : List Char} (h : body.Trails rest cr) :
    Text.CrBefore (body.closer ++ rest) cr := by
  cases h with
  | nothing => exact .nothing
  | newline behind follows unclosed =>
    rw [unclosed]
    exact .newline behind follows

theorem byteLength_chars_toCrlf (cr : List Char) (body : Body) :
    Text.byteLength (body.toCrlf cr).chars =
      Text.byteLength (Text.toCrlf body.chars) + Text.byteLength cr := by
  cases body with
  | content separator text closer =>
    simp only [toCrlf, chars, Text.toCrlf_append, Text.byteLength_append]
    omega
  | tail text | absent closer => exact Text.byteLength_append _ _

end Body

/-- The pieces of a marker in a text with carriage returns. -/
def Shape.toCrlf (cr : List Char) (shape : Shape) : Shape where
  opener := Text.toCrlf shape.opener
  keyword := shape.keyword
  body := shape.body.toCrlf cr
  opener_ne_nil := mt Text.toCrlf_eq_nil_iff.1 shape.opener_ne_nil

namespace CommentForm
open Text

theorem run_toCrlf {p : Char → Bool} (alike : p '\r' = p '\n') (s : List Char) :
    run p (toCrlf s) = (toCrlf (run p s).1, toCrlf (run p s).2) := by
  rw [run, takeWhile_toCrlf alike, dropWhile_toCrlf alike]
  rfl

theorem toCrlf_run_spaces (s : List Char) :
    toCrlf (run (· == ' ') s).1 = (run (· == ' ') s).1 := by
  rw [run_spaces]
  exact toCrlf_of_not_mem (by simp)

theorem literalRun?_toCrlf {literal : List Char} {p : Char → Bool}
    (plain : '\n' ∉ literal ∧ '\r' ∉ literal) (alike : p '\r' = p '\n') (s : List Char) :
    literalRun? literal p (toCrlf s) =
      (literalRun? literal p s).map fun q => (toCrlf q.1, toCrlf q.2) := by
  have same : toCrlf literal = literal := toCrlf_of_not_mem plain.1
  rw [literalRun?, isPrefixOf?_toCrlf plain, literalRun?, Option.map_map, Option.map_map]
  congr 1
  funext rest
  simp only [Function.comp_apply, run_toCrlf alike, toCrlf_append, same]

theorem hashSpaces_toCrlf (s : List Char) :
    hashSpaces (toCrlf s) = (toCrlf (hashSpaces s).1, toCrlf (hashSpaces s).2) := by
  have plain : ∀ s : List Char, s.head? ≠ some '#' → hashSpaces s = run (· == ' ') s := by
    intro s other
    unfold hashSpaces
    split
    · simp at other
    · rfl
  by_cases hash : s.head? = some '#'
  · obtain ⟨s, rfl⟩ := List.head?_eq_some_iff.1 hash
    rw [toCrlf_cons (by decide)]
    show ('#' :: _, _) = (toCrlf ('#' :: _), _)
    rw [run_toCrlf (by decide), toCrlf_cons (by decide)]
    rfl
  · have hash' := mt (head?_toCrlf_iff (by decide) (by decide)).1 hash
    rw [plain s hash, plain _ hash', run_toCrlf (by decide)]

/-- An opener is read alike in a text with carriage returns. -/
theorem opener?_toCrlf (form : CommentForm) (s : List Char) :
    form.opener? (toCrlf s) = (form.opener? s).map fun q => (toCrlf q.1, toCrlf q.2) := by
  cases form with
  | starBlock | quoteBlock | markupBlock | hashColon =>
    exact literalRun?_toCrlf (by decide) (by decide) s
  | line opener _ => exact literalRun?_toCrlf (by cases opener <;> decide) (by decide) s
  | angleBlock =>
    simp only [opener?]
    rw [literalRun?_toCrlf (by decide) (by decide), Option.map_map, Option.map_map]
    congr 1
    funext q
    simp only [Function.comp_apply, hashSpaces_toCrlf, toCrlf_append]
  | checkbox =>
    simp only [opener?]
    rw [dropWhile_toCrlf (by decide), takeWhile_toCrlf (by decide),
      literalRun?_toCrlf (by decide) (by decide), Option.map_map, Option.map_map]
    congr 1
    funext q
    simp only [Function.comp_apply, toCrlf_append]

theorem colonSpace_toCrlf (s : List Char) :
    colonSpace (toCrlf s) = ((colonSpace s).1, toCrlf (colonSpace s).2) := by
  have other : ∀ {c : Char} (s : List Char), c ≠ ':' → c ≠ ' ' →
      colonSpace (c :: s) = ([], c :: s) := by
    intro c s colon space
    simp [colonSpace, colon, space]
  have colon : ∀ {c : Char} (s : List Char), c ≠ ' ' →
      colonSpace (':' :: c :: s) = ([':'], c :: s) := by
    intro c s space
    simp [colonSpace, space]
  match s with
  | [] => rfl
  | c :: s =>
    by_cases newline : c = '\n'
    · subst newline
      rfl
    by_cases isColon : c = ':'
    · subst isColon
      cases s with
      | nil => rfl
      | cons d s =>
        by_cases newline : d = '\n'
        · subst newline
          rfl
        by_cases isSpace : d = ' '
        · subst isSpace
          rfl
        rw [toCrlf_cons (by decide), toCrlf_cons newline, colon _ isSpace, colon _ isSpace,
          toCrlf_cons newline]
    by_cases isSpace : c = ' '
    · subst isSpace
      rfl
    rw [toCrlf_cons newline, other _ isColon isSpace, other _ isColon isSpace, toCrlf_cons newline]

/-- Text up to a delimiter goes up to it in a text with carriage returns. -/
theorem upTo_toCrlf {close : List Char} (some : close ≠ [])
    (plain : '\n' ∉ close ∧ '\r' ∉ close) (s : List Char) :
    upTo close (toCrlf s) = (toCrlf (upTo close s).1, (upTo close s).2) := by
  have outside : ∀ d t, d = '\n' ∨ d = '\r' → close.isPrefixOf (d :: t) = false := by
    intro d t other
    obtain ⟨c, close, rfl⟩ := List.exists_cons_of_ne_nil some
    have first : '\n' ≠ c ∧ '\r' ≠ c :=
      ⟨List.ne_of_not_mem_cons plain.1, List.ne_of_not_mem_cons plain.2⟩
    rcases other with rfl | rfl
    · simp [List.isPrefixOf, first.1.symm]
    · simp [List.isPrefixOf, first.2.symm]
  induction s with
  | nil => rfl
  | cons c s ih =>
    by_cases newline : c = '\n'
    · subst newline
      rw [toCrlf_newline, upTo, upTo, upTo, outside _ _ (.inr rfl), outside _ _ (.inl rfl),
        outside _ _ (.inl rfl), ih]
      rfl
    · have same : close.isPrefixOf (c :: toCrlf s) = close.isPrefixOf (c :: s) := by
        rw [← toCrlf_cons newline, isPrefixOf_toCrlf plain]
      rw [toCrlf_cons newline, upTo, upTo, same, ih]
      split
      · rfl
      · simp only [toCrlf_cons newline]

/-! ## Bodies -/

/-- The carriage return that the rest of a line gets when a newline ends it. -/
def lineCr (s : List Char) : List Char :=
  if '\n' ∈ s then ['\r'] else []

theorem restOfLine_toCrlf (s : List Char) :
    restOfLine (toCrlf s) = toCrlf (restOfLine s) ++ lineCr s := by
  induction s with
  | nil => rfl
  | cons c s ih =>
    by_cases newline : c = '\n'
    · subst newline
      rw [lineCr, if_pos (List.mem_cons_self ..)]
      rfl
    · have more : restOfLine (c :: s) = c :: restOfLine s := by simp [restOfLine, newline]
      have more' : restOfLine (c :: toCrlf s) = c :: restOfLine (toCrlf s) := by
        simp [restOfLine, newline]
      have same : lineCr (c :: s) = lineCr s := by simp [lineCr, Ne.symm newline]
      rw [toCrlf_cons newline, more, more', ih, same, toCrlf_cons newline, List.cons_append]

/-- A body that is the rest of a line ends before the carriage return of that line. -/
theorem trails_lineCr {body : Body} {s rest : List Char} (unclosed : body.closer = [])
    (split : s = restOfLine s ++ rest) : body.Trails rest (lineCr s) := by
  obtain ⟨rest', split', newline⟩ := exists_restOfLine s
  obtain rfl := List.append_cancel_left (split.symm.trans split')
  unfold lineCr
  split
  · next mem =>
    rw [split, List.mem_append] at mem
    have behind := mem.resolve_left (newline_not_mem_restOfLine s)
    obtain ⟨c, rest, rfl⟩ := List.exists_cons_of_ne_nil (List.ne_nil_of_mem behind)
    exact .newline rest (by rw [newline c rfl]) unclosed
  · exact .nothing

theorem upTo_snd (close s : List Char) : (upTo close s).2 = [] ∨ (upTo close s).2 = close := by
  induction s with
  | nil => exact .inl rfl
  | cons c s ih =>
    unfold upTo
    split
    · exact .inr rfl
    · exact ih

theorem toCrlf_upTo_snd {close : List Char} (plain : '\n' ∉ close ∧ '\r' ∉ close)
    (s : List Char) : toCrlf (upTo close s).2 = (upTo close s).2 := by
  apply toCrlf_of_not_mem
  intro newline
  rcases upTo_snd close s with none | same
  · simp [none] at newline
  · exact plain.1 (same ▸ newline)

theorem blockBody_toCrlf {close : List Char} (some : close ≠ [])
    (plain : '\n' ∉ close ∧ '\r' ∉ close) (s : List Char) :
    body?.blockBody close (toCrlf s) = (body?.blockBody close s).toCrlf [] := by
  simp only [body?.blockBody, colonSpace_toCrlf, upTo_toCrlf some plain, Body.toCrlf,
    toCrlf_of_not_mem (newline_not_mem_colonSpace s), toCrlf_upTo_snd plain, List.append_nil]

/-- A body in markup is read alike in a text with carriage returns. -/
theorem markupBody?_toCrlf (s : List Char) :
    markupBlock.body? (toCrlf s) = (markupBlock.body? s).map (Body.toCrlf []) := by
  have plain : '\n' ∉ ['-', '-', '>'] ∧ '\r' ∉ ['-', '-', '>'] := by decide
  have spaces := run_toCrlf (p := (· == ' ')) (by decide) s
  rw [toCrlf_run_spaces] at spaces
  by_cases colon : (run (· == ' ') s).2.head? = some ':'
  · obtain ⟨rest, colon⟩ := List.head?_eq_some_iff.1 colon
    rw [colon, toCrlf_cons (by decide)] at spaces
    rw [markupBody?_of_colon spaces, markupBody?_of_colon (Prod.ext rfl colon),
      run_toCrlf (by decide), toCrlf_run_spaces, upTo_toCrlf (by simp) plain]
    simp only [Option.map_some, Body.toCrlf, List.append_nil, toCrlf_append, toCrlf_run_spaces,
      toCrlf_cons (show ':' ≠ '\n' by decide), toCrlf_upTo_snd plain]
  · have colon' : (run (· == ' ') (toCrlf s)).2.head? ≠ some ':' := by
      rw [spaces]
      exact mt (head?_toCrlf_iff (by decide) (by decide)).1 colon
    have close : toCrlf ['-', '-', '>'] = ['-', '-', '>'] := rfl
    rw [markupBody?_of_head?_ne colon, markupBody?_of_head?_ne colon', run_toCrlf (by decide)]
    simp only [toCrlf_eq_nil_iff, isPrefixOf_toCrlf plain]
    split
    · simp only [Option.map_some, Body.toCrlf, List.append_nil]
    · split
      · simp only [Option.map_some, Body.toCrlf, toCrlf_append, close, List.append_nil]
      · rfl

/-- Without a colon the rest of the line follows a keyword behind a hash. -/
theorem hashBody?_of_head?_ne {s : List Char} (other : s.head? ≠ some ':') :
    hashColon.body? s = some (.tail (restOfLine s)) := by
  unfold body?
  simp only
  split
  · simp at other
  · rfl

/-- A body is read alike in a text with carriage returns, and if it goes to the end of its line
takes the one of that line. -/
theorem body?_toCrlf {form : CommentForm} (plain : form ≠ checkbox) (s : List Char) :
    ∃ cr, form.body? (toCrlf s) = (form.body? s).map (Body.toCrlf cr) ∧
      ∀ body rest, form.body? s = some body → s = body.chars ++ rest → body.Trails rest cr := by
  cases form with
  | checkbox => contradiction
  | starBlock | quoteBlock | angleBlock =>
    refine ⟨[], ?_, fun _ _ _ _ => .nothing⟩
    exact congrArg some (blockBody_toCrlf (by simp) (by decide) s)
  | markupBlock => exact ⟨[], markupBody?_toCrlf s, fun _ _ _ _ => .nothing⟩
  | line opener cut =>
    refine ⟨lineCr (colonSpace s).2, ?_, ?_⟩
    · show some (Body.content _ _ _) = some (Body.content _ _ _)
      rw [colonSpace_toCrlf, restOfLine_toCrlf, toCrlf_of_not_mem (newline_not_mem_colonSpace s)]
      rfl
    · rintro body rest found split
      cases found
      apply trails_lineCr rfl
      rw [Body.chars, List.append_nil, List.append_assoc] at split
      exact List.append_cancel_left ((colonSpace_append s).trans split)
  | hashColon =>
    by_cases colon : s.head? = some ':'
    · obtain ⟨s, rfl⟩ := List.head?_eq_some_iff.1 colon
      refine ⟨lineCr (run (· == ' ') s).2, ?_, ?_⟩
      · rw [toCrlf_cons (by decide)]
        show some (Body.content _ _ _) = some (Body.content _ _ _)
        rw [run_toCrlf (by decide), toCrlf_run_spaces, restOfLine_toCrlf, toCrlf_cons (by decide),
          toCrlf_run_spaces]
        rfl
      · rintro body rest found split
        cases found
        apply trails_lineCr rfl
        rw [Body.chars, List.append_nil, List.append_assoc, List.cons_append,
          List.cons.injEq] at split
        exact List.append_cancel_left ((run_append _ s).trans split.2)
    · have colon' := mt (head?_toCrlf_iff (by decide) (by decide)).1 colon
      refine ⟨lineCr s, ?_, ?_⟩
      · rw [hashBody?_of_head?_ne colon, hashBody?_of_head?_ne colon', restOfLine_toCrlf]
        rfl
      · rintro body rest found split
        rw [hashBody?_of_head?_ne colon] at found
        cases found
        exact trails_lineCr rfl split

/-! ## Stops -/

theorem stops_append_cr (form : CommentForm) (offset skip : Nat) (s : List Char) :
    form.stops offset skip (s ++ ['\r']) =
      (form.stops offset skip s).map fun stop => (stop.1, stop.2 ++ ['\r']) := by
  have breaks : Breaks ['\r'] := by
    intro c first
    exact .inr (Option.some.inj first).symm
  induction s generalizing offset skip with
  | nil =>
    have none : form.stopAt? ([] ++ ['\r']) = none := by
      rw [stopAt?_append _ breaks, stopAt?_nil, Option.map_none]
    rw [List.nil_append] at none ⊢
    unfold stops
    rw [none]
    cases skip <;> rfl
  | cons c s ih =>
    rw [List.cons_append]
    unfold stops
    rw [← List.cons_append, stopAt?_append _ breaks]
    cases skip with
    | zero =>
      cases form.stopAt? (c :: s) with
      | none => exact ih _ _
      | some q => exact congrArg ((offset, q.2 ++ ['\r']) :: ·) (ih _ _)
    | succ skip => exact ih _ _

/-- A carriage return at the end of a body neither adds a stop nor removes one. -/
theorem stopIn_append_cr {rest cr : List Char} (form : CommentForm) (body : List Char)
    (behind : CrBefore rest cr) : form.stopIn (body ++ cr) = form.stopIn body := by
  cases behind with
  | nothing => rw [List.append_nil]
  | newline =>
    have ends : ∀ s, Keyword.endsBefore (s ++ ['\r']) = Keyword.endsBefore s := by
      intro s
      apply Keyword.endsBefore_append
      intro c first
      cases first
      rfl
    rw [stopIn, stopIn, stops_append_cr, List.find?_map, Option.map_map]
    simp only [Function.comp_def, ends]

/-- A body is cut alike in a text with carriage returns. -/
theorem stopIn_toCrlf {form : CommentForm} {body rest cr : List Char}
    (oneLine : form.cuts = true → '\n' ∉ body) (behind : CrBefore rest cr) :
    form.stopIn (toCrlf body ++ cr) = form.stopIn body := by
  by_cases cuts : form.cuts = true
  · rw [toCrlf_of_not_mem (oneLine cuts), stopIn_append_cr form body behind]
  · rw [stopIn_eq_none cuts, stopIn_eq_none cuts]

/-! ## Matches -/

theorem toCrlf_shape {shape : Shape}
    (oneLine : '\n' ∉ shape.opener ++ shape.keyword ++ shape.body.chars) :
    shape.toCrlf [] = shape := by
  obtain ⟨opener, keyword, body, some⟩ := shape
  simp only [List.mem_append, not_or] at oneLine
  obtain ⟨⟨opener', _⟩, body'⟩ := oneLine
  have same : body.toCrlf [] = body := by
    cases body with
    | content separator text closer =>
      simp only [Body.chars, List.mem_append, not_or] at body'
      rw [Body.toCrlf, toCrlf_of_not_mem body'.1.1, toCrlf_of_not_mem body'.1.2,
        toCrlf_of_not_mem body'.2, List.append_nil]
    | tail text => rw [Body.toCrlf, toCrlf_of_not_mem (s := text) body', List.append_nil]
    | absent closer => rw [Body.toCrlf, toCrlf_of_not_mem (s := closer) body', List.append_nil]
  simp only [Shape.toCrlf, same, toCrlf_of_not_mem opener']

/-- A form has the same match at the start of a text and of that text with carriage returns, but
for `cr` behind its body. -/
structure MatchesAlike (form : CommentForm) (start : Bool) (s cr : List Char) : Prop where
  same : form.matchAt? start (toCrlf s) = (form.matchAt? start s).map (Shape.toCrlf cr)
  trails : ∀ shape rest, form.matchAt? start s = some shape →
    s = shape.opener ++ shape.keyword ++ shape.body.chars ++ rest → shape.body.Trails rest cr

namespace MatchesAlike
variable {form : CommentForm} {start : Bool} {s : List Char}

theorem of_none (found : form.matchAt? start s = none)
    (found' : form.matchAt? start (toCrlf s) = none) : form.MatchesAlike start s [] where
  same := by rw [found, found', Option.map_none]
  trails := fun _ _ _ _ => .nothing

theorem of_some {shape shape' : Shape} {rest cr : List Char}
    (found : form.matchAt? start s = some shape)
    (found' : form.matchAt? start (toCrlf s) = some shape') (same : shape' = shape.toCrlf cr)
    (split : s = shape.opener ++ shape.keyword ++ shape.body.chars ++ rest)
    (trails : shape.body.Trails rest cr) : form.MatchesAlike start s cr where
  same := by rw [found, found', same, Option.map_some]
  trails := by
    intro _ _ again split'
    cases found.symm.trans again
    obtain rfl := List.append_cancel_left (split.symm.trans split')
    exact trails

/-- A text on one line has no carriage returns. -/
theorem of_oneLine (oneLine : '\n' ∉ s) : form.MatchesAlike start s [] where
  same := by
    rw [toCrlf_of_not_mem oneLine]
    cases found : form.matchAt? start s with
    | none => rfl
    | some shape =>
      obtain ⟨_, leads⟩ := (pieces_of_matchAt? found).leads
      rw [leads] at oneLine
      rw [Option.map_some, toCrlf_shape fun mem => oneLine (List.mem_append_left _ mem)]
  trails := fun _ _ _ _ => .nothing

end MatchesAlike

/-- A comment other than an item is the same match in a text with carriage returns. -/
theorem exists_matchesAlike_of_ne {form : CommentForm} (plain : form ≠ checkbox) (start : Bool)
    (s : List Char) : ∃ cr, form.MatchesAlike start s cr := by
  have opened := opener?_toCrlf form s
  cases found : form.matchAt? start s with
  | some shape =>
    obtain ⟨tail, behind, open', read, bodied⟩ := matchAt?_eq_some plain found
    obtain ⟨rest, leads⟩ := (pieces_of_matchAt? found).leads
    obtain ⟨cr, body, trails⟩ := body?_toCrlf plain behind
    have read' := Keyword.read?_toCrlf tail
    rw [open'] at opened
    rw [read] at read'
    rw [bodied] at body
    obtain ⟨shape', found', opener', keyword', body'⟩ :=
      exists_matchAt? start plain opened read' body
    refine ⟨cr, .of_some found found' (shape_ext opener' keyword' body') leads ?_⟩
    apply trails _ rest bodied
    have opener := opener?_eq_append open'
    have keyword := (Keyword.read?_spec read).2
    simp only at opener keyword
    rw [opener, keyword, ← List.append_assoc, List.append_assoc _ _ rest] at leads
    exact List.append_cancel_left leads
  | none =>
    refine ⟨[], .of_none found ?_⟩
    cases found' : form.matchAt? start (toCrlf s) with
    | none => rfl
    | some shape =>
      obtain ⟨tail, behind, open', read, bodied⟩ := matchAt?_eq_some plain found'
      rw [opened] at open'
      obtain ⟨q, openedAt, same⟩ := Option.map_eq_some_iff.1 open'
      obtain ⟨_, rfl⟩ := Prod.mk.inj same
      rw [Keyword.read?_toCrlf] at read
      obtain ⟨r, readAt, same⟩ := Option.map_eq_some_iff.1 read
      obtain ⟨_, rfl⟩ := Prod.mk.inj same
      obtain ⟨cr, body, _⟩ := body?_toCrlf plain r.2
      rw [body] at bodied
      obtain ⟨b, bodiedAt, _⟩ := Option.map_eq_some_iff.1 bodied
      obtain ⟨_, matched, _⟩ := exists_matchAt? start plain openedAt readAt bodiedAt
      rw [found] at matched
      simp at matched

end CommentForm
end Markers
