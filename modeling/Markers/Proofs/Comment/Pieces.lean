import Markers.Comment.Form
import Markers.Proofs.Keyword
import Markers.Proofs.Text
import Mathlib.Data.List.Basic

/-!
# The pieces of a match

Each reader of a comment form splits a text into what it takes and the rest, so the pieces of a
match stand one behind the other at the start of its text (`pieces_of_matchAt?`).
`matchAt?_eq_some` and `matchAt?_checkbox_eq_some_iff` say how a match is put together; all later
facts about matches come from these two.
-/

namespace Markers.CommentForm
open Text

theorem run_append (p : Char → Bool) (s : List Char) : (run p s).1 ++ (run p s).2 = s :=
  List.takeWhile_append_dropWhile

theorem of_mem_run {p : Char → Bool} {s : List Char} {c : Char} (mem : c ∈ (run p s).1) :
    p c = true :=
  List.mem_takeWhile_imp mem

/-- A run of spaces is so many spaces. -/
theorem run_spaces (s : List Char) :
    (run (· == ' ') s).1 = List.replicate (run (· == ' ') s).1.length ' ' :=
  List.eq_replicate_of_mem fun _ mem => eq_of_beq (of_mem_run (p := (· == ' ')) mem)

theorem restOfLine_leads (s : List Char) : restOfLine s <+: s :=
  List.takeWhile_prefix _

/-- What follows the rest of a line begins with the newline. -/
theorem exists_restOfLine (s : List Char) :
    ∃ rest, s = restOfLine s ++ rest ∧ ∀ c ∈ rest.head?, c = '\n' := by
  refine ⟨s.dropWhile (· ≠ '\n'), List.takeWhile_append_dropWhile.symm, ?_⟩
  intro c first
  have stays := List.head?_dropWhile_not (fun c => decide (c ≠ '\n')) s
  rw [Option.mem_def.1 first] at stays
  simpa using stays

theorem newline_not_mem_restOfLine (s : List Char) : '\n' ∉ restOfLine s := by
  intro mem
  have other := List.mem_takeWhile_imp (p := fun c => decide (c ≠ '\n')) mem
  simp at other

theorem colonSpace_append (s : List Char) : (colonSpace s).1 ++ (colonSpace s).2 = s := by
  unfold colonSpace
  split <;> rfl

theorem hashSpaces_append (s : List Char) : (hashSpaces s).1 ++ (hashSpaces s).2 = s := by
  unfold hashSpaces
  split
  · rw [List.cons_append, run_append]
  · exact run_append _ s

/-- A text up to the first place where a delimiter stands, behind which `behind` follows, or all of
it when the delimiter stands nowhere. -/
inductive UpToFirst (close s : List Char) : List Char → List Char → Prop where
  | closed (body behind : List Char) (split : s = body ++ close ++ behind)
      (first : ∀ before rest, s = before ++ close ++ rest → body.length ≤ before.length) :
      UpToFirst close s body behind
  | unclosed (absent : ¬ close <:+: s) : UpToFirst close s s []

/-- A character in front puts the first delimiter one further, unless one starts there. -/
theorem UpToFirst.cons {close s body behind : List Char} {c : Char}
    (open_ : ¬ close <+: c :: s) (h : UpToFirst close s body behind) :
    UpToFirst close (c :: s) (c :: body) behind := by
  cases h with
  | closed _ _ split first =>
    refine .closed _ behind (by rw [split]; rfl) fun before rest same => ?_
    cases before with
    | nil => exact absurd ⟨rest, same.symm⟩ open_
    | cons d before =>
      have := first before rest (List.cons.inj same).2
      simp only [List.length_cons]
      omega
  | unclosed absent =>
    refine .unclosed fun inside => ?_
    exact (List.infix_cons_iff.1 inside).elim open_ absent

/-- No delimiter stands in front of the first one. -/
theorem UpToFirst.not_infix {close s body behind : List Char} (some : close ≠ [])
    (h : UpToFirst close s body behind) : ¬ close <:+: body := by
  cases h with
  | closed _ _ split first =>
    rintro ⟨before, rest, rfl⟩
    have early := first before (rest ++ close ++ behind) (by rw [split]; simp)
    have length := List.length_pos_iff.2 some
    simp only [List.length_append] at early
    omega
  | unclosed absent => exact absent

/-- The first delimiter stands in front of every other one. -/
theorem UpToFirst.leads {close s body behind x rest : List Char}
    (h : UpToFirst close s body behind) (split : s = x ++ close ++ rest) : body <+: x := by
  cases h with
  | closed _ _ whole first =>
    rw [whole, List.append_assoc] at split
    refine List.prefix_of_prefix_length_le ⟨_, split⟩ ?_ (first x rest (by rw [whole, ← split]; simp))
    exact ⟨close ++ rest, by simp⟩
  | unclosed absent => exact absurd ⟨x, rest, split.symm⟩ absent

/-- Text goes up to the first delimiter; that delimiter, if it is there, and the rest follow. -/
theorem upTo_spec (close s : List Char) :
    ∃ behind, UpToFirst close s (upTo close s).1 behind ∧
      s = (upTo close s).1 ++ (upTo close s).2 ++ behind := by
  induction s with
  | nil =>
    by_cases empty : close = []
    · exact ⟨[], .closed [] [] (by rw [empty]; rfl) (by simp), rfl⟩
    · exact ⟨[], .unclosed fun inside => empty (List.infix_nil.1 inside), rfl⟩
  | cons c s ih =>
    unfold upTo
    split
    · next closes =>
      obtain ⟨behind, split⟩ := List.isPrefixOf_iff_prefix.1 closes
      exact ⟨behind, .closed [] behind split.symm (by simp), split.symm⟩
    · next goesOn =>
      obtain ⟨behind, upTo, split⟩ := ih
      refine ⟨behind, upTo.cons fun closes => ?_, by simpa using split⟩
      exact goesOn (List.isPrefixOf_iff_prefix.2 closes)

/-- Text up to a delimiter, the delimiter if it is there, and what follows it. -/
theorem upTo_append (close s : List Char) :
    ∃ rest, s = (upTo close s).1 ++ (upTo close s).2 ++ rest := by
  obtain ⟨behind, _, split⟩ := upTo_spec close s
  exact ⟨behind, split⟩

/-! ## Openers -/

/-- A literal with a run behind it. -/
theorem literalRun?_spec {literal s : List Char} {p : Char → Bool} {q : List Char × List Char}
    (h : literalRun? literal p s = some q) :
    ∃ between, q.1 = literal ++ between ∧ (∀ c ∈ between, p c = true) ∧ s = q.1 ++ q.2 := by
  obtain ⟨rest, found, rfl⟩ := Option.map_eq_some_iff.1 h
  refine ⟨(run p rest).1, rfl, fun c mem => of_mem_run mem, ?_⟩
  rw [List.append_assoc, run_append, List.isPrefixOf?_eq_some_iff_append_eq.1 found]

/-- A text with an opener is the opener and the rest. -/
theorem opener?_eq_append {form : CommentForm} {s : List Char} {q : List Char × List Char}
    (h : form.opener? s = some q) : s = q.1 ++ q.2 := by
  cases form with
  | angleBlock =>
    obtain ⟨item, found, rfl⟩ := Option.map_eq_some_iff.1 h
    obtain ⟨_, _, _, split⟩ := literalRun?_spec found
    rw [split, List.append_assoc, hashSpaces_append]
  | checkbox =>
    obtain ⟨item, found, rfl⟩ := Option.map_eq_some_iff.1 h
    obtain ⟨_, _, _, split⟩ := literalRun?_spec found
    rw [List.append_assoc, ← split, List.takeWhile_append_dropWhile]
  | starBlock | quoteBlock | markupBlock | line | hashColon =>
    obtain ⟨_, _, _, split⟩ := literalRun?_spec h
    exact split

/-- The characters that a comment of this form starts with. -/
def lead : CommentForm → List Char
  | starBlock => ['/', '*']
  | quoteBlock => ['"', '"', '"']
  | angleBlock => ['<', '#']
  | markupBlock => ['<', '!', '-', '-']
  | line opener _ => opener.chars
  | hashColon => ['#']
  | checkbox => []

theorem lead_prefix_of_opener? {form : CommentForm} {s : List Char} {q : List Char × List Char}
    (h : form.opener? s = some q) : form.lead <+: s := by
  cases form with
  | angleBlock =>
    obtain ⟨item, found, _⟩ := Option.map_eq_some_iff.1 h
    obtain ⟨between, front, _, split⟩ := literalRun?_spec found
    exact ⟨between ++ item.2, by rw [split, front, List.append_assoc]; rfl⟩
  | checkbox => exact List.nil_prefix
  | starBlock | quoteBlock | markupBlock | line | hashColon =>
    obtain ⟨between, front, _, split⟩ := literalRun?_spec h
    exact ⟨between ++ q.2, by rw [split, front, List.append_assoc]; rfl⟩

/-! ## Bodies -/

/-- What may stand between the keyword of a form and its body. -/
def Separates : CommentForm → List Char → Prop
  | markupBlock, s => ∃ m n, s = List.replicate m ' ' ++ ':' :: List.replicate n ' '
  | hashColon, s => ∃ n, s = ':' :: List.replicate n ' '
  | checkbox, s => ∃ n, s = List.replicate n ' ' ∨ s = ':' :: List.replicate n ' '
  | _, s => s = [] ∨ s = [':'] ∨ s = [' '] ∨ s = [':', ' ']

/-- What a body is that starts a text: a leading part of it, with a separator of the form. Only
`hashColon` has bodies that no separator stands in front of. -/
structure Bodies (form : CommentForm) (s : List Char) (body : Body) : Prop where
  leads : ∃ rest, s = body.chars ++ rest
  separated : ∀ separator text closer, body = .content separator text closer →
    form.Separates separator
  tail : ∀ text, body = .tail text → form = hashColon

theorem colonSpace_separates (s : List Char) :
    (colonSpace s).1 = [] ∨ (colonSpace s).1 = [':'] ∨ (colonSpace s).1 = [' '] ∨
      (colonSpace s).1 = [':', ' '] := by
  unfold colonSpace
  split <;> simp

theorem newline_not_mem_colonSpace (s : List Char) : '\n' ∉ (colonSpace s).1 := by
  rcases colonSpace_separates s with h | h | h | h <;> simp [h]

theorem bodies_blockBody {form : CommentForm} (s close : List Char)
    (separated : form.Separates (colonSpace s).1) : form.Bodies s (body?.blockBody close s) where
  leads := by
    obtain ⟨rest, split⟩ := upTo_append close (colonSpace s).2
    refine ⟨rest, ?_⟩
    conv => lhs; rw [← colonSpace_append s, split]
    simp [body?.blockBody, Body.chars]
  separated := by
    rintro separator text closer same
    cases same
    exact separated
  tail := by
    rintro _ same
    cases same

theorem intercalate_newline (line : List Char) (lines : List (List Char)) :
    List.intercalate ['\n'] (line :: lines) = line ++ lines.flatMap ('\n' :: ·) := by
  induction lines generalizing line with
  | nil => simp
  | cons next lines ih => simp [List.intercalate_cons_cons, ih]

/-- The first line of a text is the rest of its line. -/
theorem splitOn_newline (s : List Char) : ∃ lines, s.splitOn '\n' = restOfLine s :: lines := by
  by_cases newline : '\n' ∈ s
  · obtain ⟨line, rest, rfl, oneLine⟩ := List.eq_append_cons_of_mem newline
    have before : ∀ c ∈ line, decide (c ≠ '\n') = true :=
      fun c mem => decide_eq_true fun same => oneLine (same ▸ mem)
    refine ⟨rest.splitOn '\n', ?_⟩
    rw [List.splitOn_append_cons_self_of_not_mem oneLine, restOfLine,
      List.takeWhile_append_of_pos before]
    simp
  · have all : ∀ c ∈ s, decide (c ≠ '\n') = true :=
      fun c mem => decide_eq_true fun same => newline (same ▸ mem)
    refine ⟨[], ?_⟩
    rw [List.splitOn_eq_singleton newline, restOfLine, List.takeWhile_eq_self_iff.2 all]

/-- The lines of an item are the rest of its line and the lines that continue it, and lead its
text. -/
theorem itemLines_spec (s : List Char) :
    ∃ (lines : List (List Char)) (rest : List Char),
      itemLines s = restOfLine s ++ lines.flatMap ('\n' :: ·) ∧
        (∀ line ∈ lines, continues line = true) ∧ s = itemLines s ++ rest := by
  obtain ⟨lines, split⟩ := splitOn_newline s
  have whole : s = restOfLine s ++ lines.flatMap ('\n' :: ·) := by
    rw [← intercalate_newline, ← split, List.intercalate_splitOn]
  have item : itemLines s = restOfLine s ++ (lines.takeWhile continues).flatMap ('\n' :: ·) := by
    rw [itemLines, split, ← intercalate_newline]
  refine ⟨lines.takeWhile continues, (lines.dropWhile continues).flatMap ('\n' :: ·), item,
    fun line mem => List.mem_takeWhile_imp (p := continues) mem, ?_⟩
  rw [item, List.append_assoc, ← List.flatMap_append, List.takeWhile_append_dropWhile]
  exact whole

theorem restOfLine_cons_ne_nil {c : Char} (s : List Char) (other : c ≠ '\n') :
    restOfLine (c :: s) ≠ [] := by
  rw [restOfLine, List.takeWhile_cons, if_pos (decide_eq_true other)]
  exact List.cons_ne_nil c _

theorem separates_colon_spaces {colon : List Char} (n : Nat) (one : colon = [] ∨ colon = [':']) :
    checkbox.Separates (colon ++ List.replicate n ' ') := by
  rcases one with rfl | rfl
  · exact ⟨n, .inl rfl⟩
  · exact ⟨n, .inr rfl⟩

/-- The body of an item is the rest of its line, which is not empty, with the lines that continue
it, behind an optional colon and spaces. -/
theorem itemBody?_spec {s : List Char} {body : Body} (h : itemBody? s = some body) :
    ∃ separator inner, s = separator ++ inner ∧ body = .content separator (itemLines inner) [] ∧
      restOfLine inner ≠ [] ∧ checkbox.Separates separator := by
  unfold itemBody? at h
  split at h
  next colon afterColon parts =>
    have one : (colon = [] ∨ colon = [':']) ∧ s = colon ++ afterColon := by
      split at parts
      · cases parts
        exact ⟨.inr rfl, rfl⟩
      · cases parts
        exact ⟨.inl rfl, rfl⟩
    obtain ⟨one, split⟩ := one
    have all := run_append (· == ' ') afterColon
    have spaces := run_spaces afterColon
    generalize run (· == ' ') afterColon = q at h all spaces
    obtain ⟨blanks, rest⟩ := q
    generalize blanks.length = n at spaces
    simp only at h all spaces
    subst spaces all
    split at h
    · next body =>
      cases h
      exact ⟨_, rest, by simp [split], rfl, body, separates_colon_spaces n one⟩
    · split at h
      · next some =>
        cases h
        have last : List.replicate n ' ' = List.replicate (n - 1) ' ' ++ [' '] := by
          rw [← List.replicate_succ', Nat.sub_add_cancel]
          exact Nat.pos_of_ne_zero fun zero => some (by simp [zero])
        refine ⟨_, ' ' :: rest, ?_, rfl, restOfLine_cons_ne_nil rest (by decide), ?_⟩
        · rw [split, last]
          simp
        · rw [List.dropLast_replicate]
          exact separates_colon_spaces (n - 1) one
      · split at h
        · next colon =>
          cases h
          have colon : s = ':' :: (List.replicate n ' ' ++ rest) := by
            rw [split, one.resolve_left colon, List.singleton_append]
          refine ⟨[], s, rfl, rfl, ?_, ⟨0, .inl rfl⟩⟩
          rw [colon]
          exact restOfLine_cons_ne_nil _ (by decide)
        · simp at h

theorem bodies_itemBody? {s : List Char} {body : Body} (h : itemBody? s = some body) :
    checkbox.Bodies s body := by
  obtain ⟨separator, inner, rfl, rfl, _, separates⟩ := itemBody?_spec h
  obtain ⟨_, rest, _, _, split⟩ := itemLines_spec inner
  refine ⟨⟨rest, ?_⟩, ?_, fun _ same => by cases same⟩
  · conv => lhs; rw [split]
    simp [Body.chars]
  · rintro _ _ _ same
    cases same
    exact separates

/-- Behind a colon among spaces a body in markup goes up to the closing delimiter. -/
theorem markupBody?_of_colon {s before rest : List Char}
    (colon : run (· == ' ') s = (before, ':' :: rest)) :
    markupBlock.body? s =
      some (.content (before ++ ':' :: (run (· == ' ') rest).1)
        (upTo ['-', '-', '>'] (run (· == ' ') rest).2).1
        (upTo ['-', '-', '>'] (run (· == ' ') rest).2).2) := by
  unfold body?
  simp only [colon]

/-- Without a colon only blanks and the closing delimiter may follow a keyword in markup. -/
theorem markupBody?_of_head?_ne {s : List Char} (other : (run (· == ' ') s).2.head? ≠ some ':') :
    markupBlock.body? s =
      if (run isBlank s).2 = [] then some (.absent (run isBlank s).1)
      else if ['-', '-', '>'].isPrefixOf (run isBlank s).2 then
        some (.absent ((run isBlank s).1 ++ ['-', '-', '>']))
      else none := by
  unfold body?
  simp only
  split
  · next colon => simp [colon] at other
  · split
    · next none => simp [none]
    · next blanks rest some parts =>
      have some : rest ≠ [] := by
        rintro rfl
        exact some rfl
      simp [parts, some]

/-- A body in markup is text behind a colon among spaces, or blanks with the delimiter. -/
theorem markupBody?_spec {s : List Char} {body : Body} (h : markupBlock.body? s = some body) :
    (∃ separator inner, s = separator ++ inner ∧ markupBlock.Separates separator ∧
      body = .content separator (upTo ['-', '-', '>'] inner).1 (upTo ['-', '-', '>'] inner).2) ∨
    ∃ closer rest, s = closer ++ rest ∧ body = .absent closer := by
  by_cases colon : (run (· == ' ') s).2.head? = some ':'
  · obtain ⟨rest, colon⟩ := List.head?_eq_some_iff.1 colon
    have start := run_append (· == ' ') s
    rw [colon] at start
    rw [markupBody?_of_colon (Prod.ext rfl colon)] at h
    cases h
    refine .inl ⟨_, (run (· == ' ') rest).2, ?_, ?_, rfl⟩
    · rw [List.append_assoc, List.cons_append, run_append, start]
    · refine ⟨(run (· == ' ') s).1.length, (run (· == ' ') rest).1.length, ?_⟩
      rw [← run_spaces, ← run_spaces]
  · have blank := run_append isBlank s
    rw [markupBody?_of_head?_ne colon] at h
    split at h
    · next none =>
      cases h
      exact .inr ⟨_, _, blank.symm, rfl⟩
    · split at h
      · next closed =>
        obtain ⟨more, split⟩ := List.isPrefixOf_iff_prefix.1 closed
        cases h
        refine .inr ⟨_, more, ?_, rfl⟩
        rw [List.append_assoc, split, blank]
      · cases h

theorem bodies_markup {s : List Char} {body : Body} (h : markupBlock.body? s = some body) :
    markupBlock.Bodies s body := by
  rcases markupBody?_spec h with ⟨separator, inner, rfl, separates, rfl⟩ | ⟨closer, rest, rfl, rfl⟩
  · obtain ⟨more, split⟩ := upTo_append ['-', '-', '>'] inner
    refine ⟨⟨more, ?_⟩, ?_, fun _ same => by cases same⟩
    · conv => lhs; rw [split]
      simp [Body.chars]
    · rintro _ _ _ same
      cases same
      exact separates
  · refine ⟨⟨rest, rfl⟩, ?_, ?_⟩
    · rintro _ _ _ same
      cases same
    · rintro _ same
      cases same

/-- A body leads the text behind its keyword. -/
theorem bodies_of_body? {form : CommentForm} {s : List Char} {body : Body}
    (h : form.body? s = some body) : form.Bodies s body := by
  cases form with
  | starBlock | quoteBlock | angleBlock =>
    cases h
    exact bodies_blockBody s _ (colonSpace_separates s)
  | markupBlock => exact bodies_markup h
  | line opener cut =>
    cases h
    refine ⟨?_, ?_, fun _ same => by cases same⟩
    · obtain ⟨rest, split⟩ := restOfLine_leads (colonSpace s).2
      refine ⟨rest, ?_⟩
      conv => lhs; rw [← colonSpace_append s, ← split]
      simp [Body.chars]
    · rintro _ _ _ same
      cases same
      exact colonSpace_separates s
  | hashColon =>
    unfold body? at h
    simp only at h
    split at h
    · next rest =>
      cases h
      obtain ⟨more, split⟩ := restOfLine_leads (run (· == ' ') rest).2
      refine ⟨⟨more, ?_⟩, ?_, fun _ _ => rfl⟩
      · conv => lhs; rw [← run_append (· == ' ') rest, ← split]
        simp [Body.chars]
      · rintro _ _ _ same
        cases same
        exact ⟨_, congrArg (':' :: ·) (run_spaces rest)⟩
    · cases h
      refine ⟨?_, ?_, fun _ _ => rfl⟩
      · obtain ⟨rest, split⟩ := restOfLine_leads s
        exact ⟨rest, split.symm⟩
      · rintro _ _ _ same
        cases same
  | checkbox => exact bodies_itemBody? h

/-! ## Matches -/

/-- A match of any form but the checkbox is an opener, a keyword and a body. -/
theorem matchAt?_eq_some {form : CommentForm} {lineStart : Bool} {s : List Char} {shape : Shape}
    (plain : form ≠ checkbox) (h : form.matchAt? lineStart s = some shape) :
    ∃ rest behind, form.opener? s = some (shape.opener, rest) ∧
      Keyword.read? rest = some (shape.keyword, behind) ∧ form.body? behind = some shape.body := by
  unfold matchAt? at h
  rw [if_neg (fun bad => plain bad.1)] at h
  split at h
  · simp at h
  · next opener rest found =>
    split at h
    · contradiction
    · split at h
      · simp at h
      · next keyword behind read =>
        obtain ⟨body, bodied, rfl⟩ := Option.map_eq_some_iff.1 h
        exact ⟨rest, behind, found, read, bodied⟩

/-- An opener, a keyword and a body behind each other are a match. -/
theorem exists_matchAt? {form : CommentForm} {s opener rest keyword behind : List Char}
    {body : Body} (lineStart : Bool) (plain : form ≠ checkbox)
    (opened : form.opener? s = some (opener, rest))
    (read : Keyword.read? rest = some (keyword, behind)) (bodied : form.body? behind = some body) :
    ∃ shape, form.matchAt? lineStart s = some shape ∧ shape.opener = opener ∧
      shape.keyword = keyword ∧ shape.body = body := by
  unfold matchAt?
  rw [if_neg (fun bad => plain bad.1)]
  split
  · next none => simp [opened] at none
  · next opener' rest' found =>
    cases opened.symm.trans found
    split
    · contradiction
    · rw [read]
      simp only [bodied, Option.map_some]
      exact ⟨_, rfl, rfl, rfl, rfl⟩

/-- Shapes with the same pieces are the same. -/
theorem shape_ext {shape shape' : Shape} (opener : shape.opener = shape'.opener)
    (keyword : shape.keyword = shape'.keyword) (body : shape.body = shape'.body) :
    shape = shape' := by
  obtain ⟨_, _, _, _⟩ := shape
  obtain ⟨_, _, _, _⟩ := shape'
  cases opener
  cases keyword
  cases body
  rfl

/-- A match of the checkbox stands at the start of a line. -/
theorem lineStart_of_matchAt?_checkbox {lineStart : Bool} {s : List Char} {shape : Shape}
    (h : checkbox.matchAt? lineStart s = some shape) : lineStart = true := by
  unfold matchAt? at h
  split at h
  · simp at h
  · next start => simpa using start

/-- A match of the checkbox stands at the start of a line, and is an opener with a reading of the
item. Where the item cannot be read, and the opener ends in two spaces, the last one is the body. -/
theorem matchAt?_checkbox_eq_some_iff {lineStart : Bool} {s : List Char} {shape : Shape} :
    checkbox.matchAt? lineStart s = some shape ↔ lineStart = true ∧
      ∃ opener rest, checkbox.opener? s = some (opener, rest) ∧
        (opener = shape.opener ∧ itemReading? rest = some (shape.keyword, shape.body) ∨
          itemReading? rest = none ∧ opener = shape.opener ++ [' '] ∧
            shape.opener.getLast? = some ' ' ∧ shape.keyword = [] ∧
              itemBody? (' ' :: rest) = some shape.body) := by
  constructor
  · intro h
    have start := lineStart_of_matchAt?_checkbox h
    unfold matchAt? at h
    rw [if_neg (by simp [start])] at h
    split at h
    · simp at h
    · next opener rest found =>
      refine ⟨start, opener, rest, found, ?_⟩
      simp only at h
      split at h
      · next keyword body reading =>
        cases h
        exact .inl ⟨rfl, reading⟩
      · next unread =>
        split at h
        · next last last' =>
          split at h
          · obtain ⟨body, bodied, rfl⟩ := Option.map_eq_some_iff.1 h
            obtain ⟨front, rfl⟩ := List.getLast?_eq_some_iff.1 last
            exact .inr ⟨unread, by simp, last', rfl, bodied⟩
          · simp at h
        · simp at h
  · rintro ⟨rfl, opener, rest, opened, item⟩
    unfold matchAt?
    rw [if_neg (by simp)]
    split
    · next none => simp [opened] at none
    · next opener' rest' found =>
      cases opened.symm.trans found
      obtain ⟨opener, keyword, body, some⟩ := shape
      rcases item with ⟨rfl, reading⟩ | ⟨unread, rfl, last, rfl, bodied⟩
      · simp only [reading]
      · simp only at last bodied
        simp [unread, last, bodied, some]

theorem matchAt?_checkbox {lineStart : Bool} {s : List Char} {shape : Shape}
    (h : checkbox.matchAt? lineStart s = some shape) :
    ∃ opener rest, checkbox.opener? s = some (opener, rest) ∧
      (opener = shape.opener ∧ itemReading? rest = some (shape.keyword, shape.body) ∨
        opener = shape.opener ++ [' '] ∧ shape.keyword = [] ∧
          itemBody? (' ' :: rest) = some shape.body) := by
  obtain ⟨_, opener, rest, opened, read | ⟨_, last, _, none, bodied⟩⟩ :=
    matchAt?_checkbox_eq_some_iff.1 h
  · exact ⟨opener, rest, opened, .inl read⟩
  · exact ⟨opener, rest, opened, .inr ⟨last, none, bodied⟩⟩

theorem lead_prefix_of_matchAt? {form : CommentForm} {lineStart : Bool} {s : List Char}
    {shape : Shape} (h : form.matchAt? lineStart s = some shape) : form.lead <+: s := by
  by_cases plain : form = checkbox
  · subst plain
    exact List.nil_prefix
  · obtain ⟨_, _, opened, _⟩ := matchAt?_eq_some plain h
    exact lead_prefix_of_opener? opened

/-- An item is read with a keyword or without one. -/
theorem itemReading?_spec {s keyword : List Char} {body : Body}
    (h : itemReading? s = some (keyword, body)) :
    (keyword = [] ∨ Keyword.Reads keyword) ∧
      ∃ rest, s = keyword ++ rest ∧ itemBody? rest = some body := by
  obtain ⟨⟨k, rest⟩, mem, mapped⟩ := List.exists_of_findSome?_eq_some h
  obtain ⟨_, bodied, same⟩ := Option.map_eq_some_iff.1 mapped
  obtain ⟨rfl, rfl⟩ := Prod.mk.inj same
  rcases List.mem_append.1 mem with mem | mem
  · obtain ⟨reads, split⟩ := Keyword.readings_spec mem
    exact ⟨.inr reads, rest, split, bodied⟩
  · obtain ⟨rfl, rfl⟩ := Prod.mk.inj (List.mem_singleton.1 mem)
    exact ⟨.inl rfl, rest, rfl, bodied⟩

/-- What the pieces of a match are: they stand one behind the other at the start of the text, the
keyword is one of the vocabulary or missing, the separator is one of the form, only `hashColon` has
a body without one, and the body of an item is not empty. -/
structure Pieces (form : CommentForm) (s : List Char) (shape : Shape) : Prop where
  leads : ∃ rest, s = shape.opener ++ shape.keyword ++ shape.body.chars ++ rest
  keyword : (shape.keyword = [] ∧ form = checkbox) ∨ Keyword.Reads shape.keyword
  separated : ∀ separator text closer, shape.body = .content separator text closer →
    form.Separates separator
  tail : ∀ text, shape.body = .tail text → form = hashColon
  item : form = checkbox → ∃ separator inner,
    shape.body = .content separator (itemLines inner) [] ∧ restOfLine inner ≠ []

theorem Bodies.pieces {form : CommentForm} {s behind : List Char} {shape : Shape}
    (h : form.Bodies behind shape.body) (split : s = shape.opener ++ shape.keyword ++ behind)
    (keyword : (shape.keyword = [] ∧ form = checkbox) ∨ Keyword.Reads shape.keyword)
    (item : form = checkbox → itemBody? behind = some shape.body) : form.Pieces s shape where
  leads := by
    obtain ⟨rest, leads⟩ := h.leads
    refine ⟨rest, ?_⟩
    conv => lhs; rw [split, leads]
    simp
  keyword := keyword
  separated := h.separated
  tail := h.tail
  item := by
    intro same
    obtain ⟨separator, inner, _, body, some, _⟩ := itemBody?_spec (item same)
    exact ⟨separator, inner, body, some⟩

/-- The pieces of a match. -/
theorem pieces_of_matchAt? {form : CommentForm} {lineStart : Bool} {s : List Char} {shape : Shape}
    (h : form.matchAt? lineStart s = some shape) : form.Pieces s shape := by
  by_cases plain : form = checkbox
  · subst plain
    obtain ⟨opener, rest, opened, ⟨rfl, reading⟩ | ⟨rfl, none, bodied⟩⟩ := matchAt?_checkbox h
    · obtain ⟨keyword, behind, rfl, bodied⟩ := itemReading?_spec reading
      have split := opener?_eq_append opened
      refine (bodies_itemBody? bodied).pieces ?_ (keyword.imp_left fun none => ⟨none, rfl⟩)
        fun _ => bodied
      rw [split, List.append_assoc]
    · have split := opener?_eq_append opened
      refine (bodies_itemBody? bodied).pieces ?_ (.inl ⟨none, rfl⟩) fun _ => bodied
      simpa [none] using split
  · obtain ⟨rest, behind, opened, read, bodied⟩ := matchAt?_eq_some plain h
    obtain ⟨reads, rfl⟩ := Keyword.read?_spec read
    have split := opener?_eq_append opened
    refine (bodies_of_body? bodied).pieces ?_ (.inr reads) fun item => absurd item plain
    rw [split, List.append_assoc]

end Markers.CommentForm
