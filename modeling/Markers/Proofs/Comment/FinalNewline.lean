import Markers.Proofs.Comment.Item
import Markers.Proofs.Scan.Shift

/-!
# Comments in front of a final newline

A form has a match in a text exactly if it has one in the text with a newline behind it
(`prolonged_matchAt?`). The opener and the keyword are the same ones
(`opener?_read?_append_newline`), and so is the body, unless a block is not closed, whose body goes on
up to the end of the text (`prolonged_body?`).
-/

namespace Markers

/-- A body in a text, and the one that is read there when a newline follows the text: the same, but
for the newline if a block is not closed. -/
inductive Body.Prolonged (form : CommentForm) (s : List Char) : Body → Body → Prop where
  | same (body : Body) : Prolonged form s body body
  | content (block : form.style = .block) (separator text : List Char)
      (ends : s = separator ++ text) :
      Prolonged form s (.content separator text []) (.content separator (text ++ ['\n']) [])
  | absent (block : form.style = .block) : Prolonged form s (.absent s) (.absent (s ++ ['\n']))

/-- A shape in a text, and the one that is read there when a newline follows the text. -/
structure Shape.Prolonged (form : CommentForm) (s : List Char) (shape shape' : Shape) : Prop where
  opener : shape'.opener = shape.opener
  keyword : shape'.keyword = shape.keyword
  body : ∃ behind, s = shape.opener ++ shape.keyword ++ behind ∧
    shape.body.Prolonged form behind shape'.body

theorem exists_right_of_rel {α β : Type} {R : α → β → Prop} {a : α} {b? : Option β}
    (h : Option.Rel R (some a) b?) : ∃ b, b? = some b ∧ R a b := by
  cases h with
  | some related => exact ⟨_, rfl, related⟩

theorem exists_left_of_rel {α β : Type} {R : α → β → Prop} {a? : Option α} {b : β}
    (h : Option.Rel R a? (some b)) : ∃ a, a? = some a ∧ R a b := by
  cases h with
  | some related => exact ⟨_, rfl, related⟩

namespace CommentForm
open Text

/-! ## Openers -/

/-- A run goes up to the first character that it does not take. -/
theorem run_eq_iff {p : Char → Bool} {s front rest : List Char} :
    run p s = (front, rest) ↔ s = front ++ rest ∧ (∀ c ∈ front, p c = true) ∧
      ∀ c ∈ rest.head?, p c = false := by
  constructor
  · intro h
    have split := run_append p s
    have stays := List.head?_dropWhile_not p s
    have all : ∀ c ∈ (run p s).1, p c = true := fun c mem => of_mem_run mem
    have last : s.dropWhile p = rest := congrArg Prod.snd h
    rw [h] at split all
    refine ⟨split.symm, all, fun c first => ?_⟩
    rw [last, Option.mem_def.1 first] at stays
    simpa using stays
  · rintro ⟨rfl, all, stops⟩
    rw [run, List.takeWhile_append_of_pos all, List.dropWhile_append_of_pos all]
    cases rest with
    | nil => simp
    | cons c rest => simp [stops c rfl]

/-- What stands behind the rest of a text makes no difference to a run in front of it. -/
theorem run_append_iff {p : Char → Bool} {s t front rest : List Char} (some : rest ≠ []) :
    run p (s ++ t) = (front, rest ++ t) ↔ run p s = (front, rest) := by
  rw [run_eq_iff, run_eq_iff, List.head?_append_of_ne_nil _ some, ← List.append_assoc,
    List.append_cancel_right_eq]

theorem hashSpaces_append_iff {s t front rest : List Char} (some : rest ≠ []) :
    hashSpaces (s ++ t) = (front, rest ++ t) ↔ hashSpaces s = (front, rest) := by
  cases s with
  | nil =>
    constructor
    · intro h
      have split := congrArg List.length (hashSpaces_append ([] ++ t))
      have length := List.length_pos_iff.2 some
      rw [h] at split
      simp only [List.length_append, List.length_nil] at split
      omega
    · rintro h
      cases h
      contradiction
  | cons c s =>
    by_cases hash : c = '#'
    · subst hash
      constructor
      · intro h
        obtain ⟨rfl, last⟩ := Prod.mk.inj h
        have spaces := (run_append_iff some).1 (Prod.ext rfl last)
        exact congrArg (fun q : List Char × List Char => ('#' :: q.1, q.2)) spaces
      · intro h
        obtain ⟨rfl, last⟩ := Prod.mk.inj h
        have spaces := (run_append_iff (t := t) some).2 (Prod.ext rfl last)
        exact congrArg (fun q : List Char × List Char => ('#' :: q.1, q.2)) spaces
    · have plain : ∀ x, hashSpaces (c :: x) = run (· == ' ') (c :: x) := by
        intro x
        unfold hashSpaces
        split
        · next same => exact absurd (List.cons.inj same).1 hash
        · rfl
      rw [List.cons_append, plain, plain, ← List.cons_append, run_append_iff some]

theorem literalRun?_eq_some_iff {literal s front rest : List Char} {p : Char → Bool} :
    literalRun? literal p s = Option.some (front, rest) ↔ ∃ between,
      s = literal ++ between ∧ ∃ gap, front = literal ++ gap ∧ run p between = (gap, rest) := by
  rw [literalRun?, Option.map_eq_some_iff]
  constructor
  · rintro ⟨between, leads, same⟩
    obtain ⟨rfl, rfl⟩ := Prod.mk.inj same
    exact ⟨between, (List.isPrefixOf?_eq_some_iff_append_eq.1 leads).symm, _, rfl, rfl⟩
  · rintro ⟨between, rfl, gap, rfl, runs⟩
    exact ⟨between, List.isPrefixOf?_eq_some_iff_append_eq.2 rfl, by rw [runs]⟩

theorem literalRun?_append_iff {literal s t front rest : List Char} {p : Char → Bool}
    (some : rest ≠ []) : literalRun? literal p (s ++ t) = Option.some (front, rest ++ t) ↔
      literalRun? literal p s = Option.some (front, rest) := by
  rw [literalRun?_eq_some_iff, literalRun?_eq_some_iff]
  constructor
  · rintro ⟨between, split, gap, rfl, runs⟩
    obtain ⟨parts, _⟩ := run_eq_iff.1 runs
    rw [parts, ← List.append_assoc, ← List.append_assoc, List.append_cancel_right_eq,
      List.append_assoc] at split
    refine ⟨_, split, gap, rfl, ?_⟩
    rw [parts, ← List.append_assoc, run_append_iff some] at runs
    exact runs
  · rintro ⟨between, rfl, gap, rfl, runs⟩
    exact ⟨between ++ t, by simp, gap, rfl, (run_append_iff some).2 runs⟩

/-- An opener of an angle block is `<#` with blanks, and what `hashSpaces` takes. -/
theorem angle_opener?_eq_some_iff {s opener rest : List Char} :
    angleBlock.opener? s = some (opener, rest) ↔
      ∃ start behind, literalRun? ['<', '#'] isBlank s = some (start, behind) ∧
        ∃ hash, opener = start ++ hash ∧ hashSpaces behind = (hash, rest) := by
  rw [opener?, Option.map_eq_some_iff]
  constructor
  · rintro ⟨⟨start, behind⟩, found, same⟩
    obtain ⟨rfl, rfl⟩ := Prod.mk.inj same
    exact ⟨start, behind, found, _, rfl, rfl⟩
  · rintro ⟨start, behind, found, hash, rfl, spaces⟩
    exact ⟨(start, behind), found, by simp only [spaces]⟩

/-- An opener is read up to the keyword, whatever stands behind that. -/
theorem opener?_append_iff {form : CommentForm} (plain : form ≠ checkbox)
    {s t opener rest : List Char} (some : rest ≠ []) :
    form.opener? (s ++ t) = Option.some (opener, rest ++ t) ↔
      form.opener? s = Option.some (opener, rest) := by
  cases form with
  | checkbox => contradiction
  | starBlock | quoteBlock | markupBlock | line | hashColon => exact literalRun?_append_iff some
  | angleBlock =>
    have solid : ∀ {hash behind : List Char}, behind = hash ++ rest → behind ≠ [] := by
      rintro hash _ rfl
      simp [some]
    rw [angle_opener?_eq_some_iff, angle_opener?_eq_some_iff]
    constructor
    · rintro ⟨start, behind, found, hash, rfl, spaces⟩
      have split := hashSpaces_append behind
      rw [spaces] at split
      simp only [← List.append_assoc] at split
      rw [← split, literalRun?_append_iff (solid rfl)] at found
      rw [← split, hashSpaces_append_iff some] at spaces
      exact ⟨start, _, found, hash, rfl, spaces⟩
    · rintro ⟨start, behind, found, hash, rfl, spaces⟩
      have split := hashSpaces_append behind
      rw [spaces] at split
      exact ⟨start, behind ++ t, (literalRun?_append_iff (solid split.symm)).2 found, hash, rfl,
        (hashSpaces_append_iff some).2 spaces⟩

/-- A newline is no letter or digit, so no keyword goes on with it. -/
theorem not_isAlphanum_newline : ∀ c ∈ ['\n'].head?, c.isAlphanum = false := by
  rintro c ⟨⟩
  rfl

/-- An opener and a keyword are read alike in front of a newline. -/
theorem opener?_read?_append_newline {form : CommentForm} (plain : form ≠ checkbox)
    {s opener keyword tail : List Char} :
    (∃ rest, form.opener? (s ++ ['\n']) = some (opener, rest) ∧
      Keyword.read? rest = some (keyword, tail)) ↔
    ∃ rest behind, form.opener? s = some (opener, rest) ∧
      Keyword.read? rest = some (keyword, behind) ∧ tail = behind ++ ['\n'] := by
  constructor
  · rintro ⟨rest, opened, read⟩
    obtain ⟨reads, rfl⟩ := Keyword.read?_spec read
    have split := opener?_eq_append opened
    -- the newline stands behind the keyword
    obtain ⟨behind, rfl⟩ : ∃ behind, tail = behind ++ ['\n'] := by
      rcases List.eq_nil_or_concat tail with rfl | ⟨behind, c, rfl⟩
      · have last := congrArg List.getLast? split
        rw [List.append_nil, List.getLast?_concat,
          List.getLast?_append_of_ne_nil _ reads.ne_nil] at last
        exact absurd (List.mem_of_getLast? last.symm) reads.newline_not_mem
      · have last := congrArg List.getLast? split
        rw [List.concat_eq_append, ← List.append_assoc, ← List.append_assoc, List.getLast?_concat,
          List.getLast?_concat] at last
        cases last
        exact ⟨behind, List.concat_eq_append⟩
    have some : keyword ++ behind ≠ [] := by simp [reads.ne_nil]
    rw [← List.append_assoc] at opened read
    rw [Keyword.read?_append not_isAlphanum_newline] at read
    obtain ⟨q, read', same⟩ := Option.map_eq_some_iff.1 read
    obtain ⟨front, last⟩ := Prod.mk.inj same
    refine ⟨keyword ++ behind, behind, (opener?_append_iff plain some).1 opened, ?_, rfl⟩
    rw [read', ← front, ← List.append_cancel_right last]
  · rintro ⟨rest, behind, opened, read, rfl⟩
    have some : rest ≠ [] := by
      obtain ⟨c, rest', rfl, _⟩ := exists_initial read
      exact List.cons_ne_nil c rest'
    refine ⟨rest ++ ['\n'], (opener?_append_iff plain some).2 opened, ?_⟩
    rw [Keyword.read?_append not_isAlphanum_newline, read, Option.map_some]

/-! ## Bodies -/

theorem isPrefixOf_append_newline {close : List Char} (other : '\n' ∉ close) (s : List Char) :
    close.isPrefixOf (s ++ ['\n']) = close.isPrefixOf s := by
  rw [← List.isSome_isPrefixOf?_eq_isPrefixOf, isPrefixOf?_append_cons other, Option.isSome_map,
    List.isSome_isPrefixOf?_eq_isPrefixOf]

/-- A newline behind the text is read as well where nothing closes the text. -/
theorem upTo_append_newline {close : List Char} (some : close ≠ []) (other : '\n' ∉ close)
    (s : List Char) : upTo close (s ++ ['\n']) = upTo close s ∨
      upTo close s = (s, []) ∧ upTo close (s ++ ['\n']) = (s ++ ['\n'], []) := by
  induction s with
  | nil =>
    have none := isPrefixOf_append_newline other []
    rw [List.nil_append] at none
    have closed : close.isPrefixOf [] = false := by
      cases close with
      | nil => contradiction
      | cons => rfl
    exact .inr ⟨rfl, by simp [upTo, none, closed]⟩
  | cons c s ih =>
    rw [List.cons_append, upTo, upTo, ← List.cons_append, isPrefixOf_append_newline other]
    split
    · exact .inl rfl
    · rcases ih with same | ⟨all, all'⟩
      · exact .inl (by rw [same])
      · exact .inr ⟨by rw [all], by rw [all']; rfl⟩

/-- What goes up to a closing delimiter behind a separator. -/
theorem prolonged_upTo {form : CommentForm} {close : List Char} (block : form.style = .block)
    (some : close ≠ []) (other : '\n' ∉ close) (separator s : List Char) :
    Body.Prolonged form (separator ++ s)
      (.content separator (upTo close s).1 (upTo close s).2)
      (.content separator (upTo close (s ++ ['\n'])).1 (upTo close (s ++ ['\n'])).2) := by
  rcases upTo_append_newline some other s with same | ⟨all, all'⟩
  · rw [same]
    exact .same _
  · rw [all, all']
    exact .content block separator s rfl

theorem prolonged_blockBody {form : CommentForm} {close : List Char} (block : form.style = .block)
    (some : close ≠ []) (other : '\n' ∉ close) (s : List Char) :
    (body?.blockBody close s).Prolonged form s (body?.blockBody close (s ++ ['\n'])) := by
  have parts := prolonged_upTo block some other (colonSpace s).1 (colonSpace s).2
  have behind := colonSpace_append_newline s []
  rw [colonSpace_append] at parts
  have body : ∀ t, body?.blockBody close t = .content (colonSpace t).1
      (upTo close (colonSpace t).2).1 (upTo close (colonSpace t).2).2 := fun _ => rfl
  rw [body, body, behind]
  exact parts

/-- Nothing but blanks up to the end of the text are read, and so is a newline. -/
theorem prolonged_markupBody? (s : List Char) :
    Option.Rel (Body.Prolonged markupBlock s) (markupBlock.body? s)
      (markupBlock.body? (s ++ ['\n'])) := by
  have spaces := run_append_newline (p := (· == ' ')) (by decide) s []
  by_cases colon : (run (· == ' ') s).2.head? = some ':'
  · obtain ⟨rest, colon⟩ := List.head?_eq_some_iff.1 colon
    have split := run_append (· == ' ') s
    have split' := run_append (· == ' ') rest
    have spaces' := run_append_newline (p := (· == ' ')) (by decide) rest []
    rw [colon, List.cons_append] at spaces
    rw [colon] at split
    rw [markupBody?_of_colon (Prod.ext rfl colon), markupBody?_of_colon spaces, spaces']
    have parts : Body.Prolonged markupBlock _ _ _ := prolonged_upTo rfl (List.cons_ne_nil '-' _)
      (by decide : '\n' ∉ ['-', '-', '>'])
      ((run (· == ' ') s).1 ++ ':' :: (run (· == ' ') rest).1) (run (· == ' ') rest).2
    rw [List.append_assoc, List.cons_append, split', split] at parts
    exact .some parts
  · have colon' : (run (· == ' ') (s ++ ['\n'])).2.head? ≠ some ':' := by
      rw [spaces]
      exact head?_append_newline_ne colon []
    have split := run_append isBlank s
    rw [markupBody?_of_head?_ne colon, markupBody?_of_head?_ne colon']
    by_cases none : (run isBlank s).2 = []
    · have all : (run isBlank s).1 = s := by
        rw [none, List.append_nil] at split
        exact split
      have all' : run isBlank (s ++ ['\n']) = (s ++ ['\n'], []) := by
        refine run_eq_iff.2 ⟨by simp, fun c mem => ?_, by simp⟩
        rcases List.mem_append.1 mem with mem | mem
        · exact of_mem_run (all.symm ▸ mem)
        · rw [List.mem_singleton.1 mem]
          rfl
      rw [if_pos none, all', if_pos rfl, all]
      exact .some (.absent rfl)
    · have same := (run_append_iff (t := ['\n']) none).2 (Prod.ext rfl rfl)
      rw [same, if_neg none, if_neg (List.append_ne_nil_of_left_ne_nil none _),
        isPrefixOf_append_newline (by decide)]
      split
      · exact .some (Body.Prolonged.same _)
      · exact .none

/-- A body is read alike in front of a newline, or takes it where a block is not closed. -/
theorem prolonged_body? {form : CommentForm} (plain : form ≠ checkbox) (s : List Char) :
    Option.Rel (Body.Prolonged form s) (form.body? s) (form.body? (s ++ ['\n'])) := by
  cases form with
  | checkbox => contradiction
  | starBlock => exact .some (prolonged_blockBody rfl (by simp) (by decide) s)
  | quoteBlock => exact .some (prolonged_blockBody rfl (by simp) (by decide) s)
  | angleBlock => exact .some (prolonged_blockBody rfl (by simp) (by decide) s)
  | markupBlock => exact prolonged_markupBody? s
  | line opener cut =>
    rw [body?_append_newline rfl plain]
    exact .some (.same _)
  | hashColon =>
    rw [body?_append_newline rfl plain]
    cases hashColon.body? s with
    | none => exact .none
    | some body => exact .some (.same body)

/-! ## Items -/

/-- An empty line continues no item. -/
theorem itemLines_append_newline (s : List Char) : itemLines (s ++ ['\n']) = itemLines s := by
  induction s with
  | nil => rfl
  | cons c s ih =>
    by_cases newline : c = '\n'
    · subst newline
      rw [List.cons_append, itemLines_newline, itemLines_newline, restOfLine_append_newline, ih]
    · rw [List.cons_append, itemLines_cons_of_ne newline, itemLines_cons_of_ne newline, ih]

theorem itemBody?_append_newline (s : List Char) : itemBody? (s ++ ['\n']) = itemBody? s := by
  obtain ⟨colon, afterColon, rfl, one⟩ := exists_colon s
  have one' : colon = [':'] ∨ colon = [] ∧ (afterColon ++ ['\n']).head? ≠ some ':' :=
    one.imp_right fun none => ⟨none.1, head?_append_newline_ne none.2 []⟩
  have spaces := run_append_newline (p := (· == ' ')) (by decide) afterColon []
  rw [List.append_assoc, itemBody?_append one', itemBody?_append one, spaces,
    restOfLine_append_newline, itemLines_append_newline, ← List.cons_append,
    itemLines_append_newline, ← List.append_assoc, itemLines_append_newline]

theorem itemReading?_append_newline (s : List Char) :
    itemReading? (s ++ ['\n']) = itemReading? s := by
  have all : Keyword.readings (s ++ ['\n']) ++ [([], s ++ ['\n'])] =
      (Keyword.readings s ++ [([], s)]).map
        fun q : List Char × List Char => (q.1, q.2 ++ ['\n']) := by
    rw [Keyword.readings_append not_isAlphanum_newline, List.map_append]
    rfl
  rw [itemReading?, itemReading?, all, List.findSome?_map]
  simp only [Function.comp_def, itemBody?_append_newline]

theorem matchAt?_checkbox_append_newline (start : Bool) (s : List Char) :
    checkbox.matchAt? start (s ++ ['\n']) = checkbox.matchAt? start s := by
  apply Option.ext
  intro shape
  rw [matchAt?_checkbox_eq_some_iff, matchAt?_checkbox_eq_some_iff, checkbox_opener?_append]
  refine and_congr_right fun _ => exists_congr fun opener => ?_
  constructor
  · rintro ⟨_, opened, item⟩
    obtain ⟨⟨_, rest⟩, opened', same⟩ := Option.map_eq_some_iff.1 opened
    cases same
    rw [itemReading?_append_newline, ← List.cons_append, itemBody?_append_newline] at item
    exact ⟨rest, opened', item⟩
  · rintro ⟨rest, opened, item⟩
    refine ⟨rest ++ ['\n'], by rw [opened]; rfl, ?_⟩
    rw [itemReading?_append_newline, ← List.cons_append, itemBody?_append_newline]
    exact item

/-! ## Matches -/

/-- A match is there with a newline behind the text exactly if it is there without. -/
theorem prolonged_matchAt? (form : CommentForm) (start : Bool) (s : List Char) :
    Option.Rel (Shape.Prolonged form s) (form.matchAt? start s)
      (form.matchAt? start (s ++ ['\n'])) := by
  by_cases plain : form = checkbox
  · subst plain
    rw [matchAt?_checkbox_append_newline]
    cases found : checkbox.matchAt? start s with
    | none => exact .none
    | some shape =>
      obtain ⟨rest, leads⟩ := (pieces_of_matchAt? found).leads
      rw [List.append_assoc] at leads
      exact .some ⟨rfl, rfl, _, leads, .same _⟩
  · cases found : form.matchAt? start s with
    | some shape =>
      obtain ⟨rest, behind, opened, read, bodied⟩ := matchAt?_eq_some plain found
      obtain ⟨rest', opened', read'⟩ :=
        (opener?_read?_append_newline plain).2 ⟨rest, behind, opened, read, rfl⟩
      have body := prolonged_body? plain behind
      rw [bodied] at body
      obtain ⟨body', bodied', body⟩ := exists_right_of_rel body
      obtain ⟨shape', found', opener, keyword, same⟩ :=
        exists_matchAt? start plain opened' read' bodied'
      rw [found']
      refine .some ⟨opener, keyword, behind, ?_, same ▸ body⟩
      rw [opener?_eq_append opened, (Keyword.read?_spec read).2, List.append_assoc]
    | none =>
      cases found' : form.matchAt? start (s ++ ['\n']) with
      | none => exact .none
      | some shape' =>
        obtain ⟨rest', tail, opened', read', bodied'⟩ := matchAt?_eq_some plain found'
        obtain ⟨rest, behind, opened, read, rfl⟩ :=
          (opener?_read?_append_newline plain).1 ⟨rest', opened', read'⟩
        have body := prolonged_body? plain behind
        rw [bodied'] at body
        obtain ⟨_, bodied, _⟩ := exists_left_of_rel body
        obtain ⟨_, there, _⟩ := exists_matchAt? start plain opened read bodied
        rw [found] at there
        cases there

end CommentForm
end Markers
