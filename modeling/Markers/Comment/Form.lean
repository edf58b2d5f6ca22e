import Markers.Comment.Shape
import Markers.Keyword
import Markers.Text.Blank

/-!
# Comment forms

A comment form says how a marker is written in one kind of comment. `CommentForm.matchAt?` reads a
marker at the start of a text; every form is deterministic, because no opener can run into a
keyword, except the open checkbox, whose keyword and separator give way when nothing would be left
for the item. `CommentForm.stopIn` finds where the next marker of the same form begins in a body.
-/

namespace Markers

/-- What starts a line comment. -/
inductive LineOpener where
  | slashes
  | dashes
  | hash
deriving DecidableEq, Repr

/-- A way to write a marker in a comment. -/
inductive CommentForm where
  /-- From a slash and stars to a star and a slash. -/
  | starBlock
  /-- Between two triple double quotes. -/
  | quoteBlock
  /-- From `<#` to `#>`. -/
  | angleBlock
  /-- From `<!--` to `-->`. -/
  | markupBlock
  /-- To the end of the line; `cut` says whether another marker on the line ends the body. -/
  | line (opener : LineOpener) (cut : Bool)
  /-- A hash comment whose body follows a colon. -/
  | hashColon
  /-- An open checkbox item and the indented lines that continue it. -/
  | checkbox
deriving DecidableEq, Repr

/-- Whether a comment spans lines. -/
inductive CommentStyle where
  | block
  | line
deriving DecidableEq, Repr

namespace LineOpener

/-- The characters of the opener. -/
def chars : LineOpener → List Char
  | slashes => ['/', '/']
  | dashes => ['-', '-']
  | hash => ['#']

end LineOpener

namespace CommentForm
open Text

/-- Blocks span lines, all other forms end at the line break. -/
def style : CommentForm → CommentStyle
  | starBlock | quoteBlock | angleBlock | markupBlock => .block
  | line _ _ | hashColon | checkbox => .line

/-- Whether a later marker in the body ends it. -/
def cuts : CommentForm → Bool
  | line _ cut => cut
  | hashColon => true
  | _ => false

/-! ## Pieces -/

/-- A text up to a closing delimiter, and that delimiter; the whole text when it is not closed. -/
def upTo (close : List Char) : List Char → List Char × List Char
  | [] => ([], [])
  | c :: s =>
    if close.isPrefixOf (c :: s) then ([], close)
    else
      match upTo close s with
      | (text, closer) => (c :: text, closer)

/-- The characters that satisfy a test, and the rest. -/
def run (p : Char → Bool) (s : List Char) : List Char × List Char :=
  (s.takeWhile p, s.dropWhile p)

/-- The rest of the line. -/
def restOfLine (s : List Char) : List Char :=
  s.takeWhile (· ≠ '\n')

/-- A colon if there is one, then a space if there is one. -/
def colonSpace : List Char → List Char × List Char
  | ':' :: ' ' :: s => ([':', ' '], s)
  | ':' :: s => ([':'], s)
  | ' ' :: s => ([' '], s)
  | s => ([], s)

/-- A hash if there is one, then spaces. -/
def hashSpaces : List Char → List Char × List Char
  | '#' :: s => ('#' :: (run (· == ' ') s).1, (run (· == ' ') s).2)
  | s => run (· == ' ') s

/-- A literal, then characters that satisfy a test. -/
def literalRun? (literal : List Char) (p : Char → Bool) (s : List Char) :
    Option (List Char × List Char) :=
  (literal.isPrefixOf? s).map fun rest => (literal ++ (run p rest).1, (run p rest).2)

/-! ## Openers -/

/-- The start of a comment, up to where its keyword must stand. -/
def opener? : CommentForm → List Char → Option (List Char × List Char)
  | starBlock, s => literalRun? ['/', '*'] (fun c => isBlank c || c == '*') s
  | quoteBlock, s => literalRun? ['"', '"', '"'] (fun c => isBlank c || c == '*') s
  | angleBlock, s =>
    (literalRun? ['<', '#'] isBlank s).map fun (start, rest) =>
      (start ++ (hashSpaces rest).1, (hashSpaces rest).2)
  | markupBlock, s => literalRun? ['<', '!', '-', '-'] (fun c => c == ' ' || c == '\t') s
  | line opener _, s => literalRun? opener.chars (· == ' ') s
  | hashColon, s => literalRun? ['#'] (· == ' ') s
  | checkbox, s =>
    (literalRun? ['-', ' ', '[', ' ', ']', ' '] (· == ' ') (s.dropWhile indent)).map
      fun (item, rest) => (s.takeWhile indent ++ item, rest)
where
  /-- What may stand before a checkbox. -/
  indent (c : Char) : Bool := c == ' ' || c == '\t'

theorem literalRun?_ne_nil {literal s : List Char} {p : Char → Bool} {q : List Char × List Char}
    (nonempty : literal ≠ []) (h : literalRun? literal p s = some q) : q.1 ≠ [] := by
  obtain ⟨rest, _, rfl⟩ := Option.map_eq_some_iff.1 h
  simp [nonempty]

theorem opener?_ne_nil {form : CommentForm} {s : List Char} {q : List Char × List Char}
    (h : form.opener? s = some q) : q.1 ≠ [] := by
  cases form with
  | angleBlock =>
    obtain ⟨item, found, rfl⟩ := Option.map_eq_some_iff.1 h
    have := literalRun?_ne_nil (by simp) found
    simp [this]
  | checkbox =>
    obtain ⟨item, found, rfl⟩ := Option.map_eq_some_iff.1 h
    have := literalRun?_ne_nil (by simp) found
    simp [this]
  | line opener _ => exact literalRun?_ne_nil (by cases opener <;> simp [LineOpener.chars]) h
  | _ => exact literalRun?_ne_nil (by simp) h

/-! ## Bodies -/

/-- Whether a line continues an item: two or more spaces, then an ASCII letter or digit. -/
def continues (line : List Char) : Bool :=
  match run (· == ' ') line with
  | (spaces, c :: _) => decide (2 ≤ spaces.length) && c.isAlphanum
  | _ => false

/-- The rest of the line and the lines that continue it. -/
def itemLines (s : List Char) : List Char :=
  match s.splitOn '\n' with
  | [] => []
  | first :: more => List.intercalate ['\n'] (first :: more.takeWhile continues)

/-- The body of an item: a colon and spaces are skipped, unless the line then had nothing left; in
that case the last space stays, or else the colon. -/
def itemBody? (s : List Char) : Option Body :=
  let (colon, afterColon) := match s with
    | ':' :: rest => ([':'], rest)
    | rest => ([], rest)
  let (spaces, rest) := run (· == ' ') afterColon
  if restOfLine rest ≠ [] then some (.content (colon ++ spaces) (itemLines rest) [])
  else if spaces ≠ [] then some (.content (colon ++ spaces.dropLast) (itemLines (' ' :: rest)) [])
  else if colon ≠ [] then some (.content [] (itemLines s) [])
  else none

/-- The body that follows the keyword of any form but the checkbox. -/
def body? : CommentForm → List Char → Option Body
  | starBlock, s => some (blockBody ['*', '/'] s)
  | quoteBlock, s => some (blockBody ['"', '"', '"'] s)
  | angleBlock, s => some (blockBody ['#', '>'] s)
  | markupBlock, s =>
    match run (· == ' ') s with
    | (before, ':' :: rest) =>
      let (after, rest) := run (· == ' ') rest
      let (text, closer) := upTo ['-', '-', '>'] rest
      some (.content (before ++ ':' :: after) text closer)
    | _ =>
      match run isBlank s with
      | (blanks, []) => some (.absent blanks)
      | (blanks, rest) =>
        if ['-', '-', '>'].isPrefixOf rest then some (.absent (blanks ++ ['-', '-', '>'])) else none
  | line _ _, s => some (.content (colonSpace s).1 (restOfLine (colonSpace s).2) [])
  | hashColon, s =>
    match s with
    | ':' :: rest =>
      some (.content (':' :: (run (· == ' ') rest).1) (restOfLine (run (· == ' ') rest).2) [])
    | s => some (.tail (restOfLine s))
  | checkbox, s => itemBody? s
where
  /-- Text up to a closing delimiter, behind an optional colon and an optional space. -/
  blockBody (close s : List Char) : Body :=
    let (separator, rest) := colonSpace s
    let (text, closer) := upTo close rest
    .content separator text closer

/-! ## Matching -/

/-- The ways to read an item behind its opener, in order of preference: with the longest keyword
that leaves a body, then without a keyword. -/
def itemReading? (s : List Char) : Option (List Char × Body) :=
  (Keyword.readings s ++ [([], s)]).findSome? fun (keyword, rest) =>
    (itemBody? rest).map fun body => (keyword, body)

/-- The marker of this form that starts a text, where `lineStart` says whether the text stands at
the start of a line. -/
def matchAt? (form : CommentForm) (lineStart : Bool) (s : List Char) : Option Shape :=
  if form = checkbox ∧ lineStart = false then none
  else
    match found : form.opener? s with
    | none => none
    | some (opener, rest) =>
      have nonempty : opener ≠ [] := opener?_ne_nil found
      match form with
      | checkbox =>
        match itemReading? rest with
        | some (keyword, body) => some ⟨opener, keyword, body, nonempty⟩
        | none =>
          -- nothing is left on the line: the last of several spaces is the body
          match opener.getLast?, opener.dropLast.getLast? with
          | some ' ', some ' ' =>
            if fewer : opener.dropLast ≠ [] then
              (itemBody? (' ' :: rest)).map fun body => ⟨opener.dropLast, [], body, fewer⟩
            else none
          | _, _ => none
      | form =>
        match Keyword.read? rest with
        | none => none
        | some (keyword, rest) =>
          (form.body? rest).map fun body => ⟨opener, keyword, body, nonempty⟩

/-! ## Stops -/

/-- The start of another marker of this form at the start of a text: its characters and what
follows them. Only forms whose bodies are cut have one. -/
def stopAt? (form : CommentForm) (s : List Char) : Option (List Char × List Char) :=
  match form with
  | line opener true => do
    let rest ← opener.chars.isPrefixOf? s
    let (space, rest) := match rest with
      | ' ' :: rest => ([' '], rest)
      | rest => ([], rest)
    let (keyword, rest) ← Keyword.read? rest
    return (opener.chars ++ space ++ keyword, rest)
  | hashColon => do
    let (opener, rest) ← opener? hashColon s
    let (keyword, rest) ← Keyword.read? rest
    return (opener ++ keyword, rest)
  | _ => none

/-- The stops in a body from left to right, none overlapping the one before it, each as its offset
and what follows it. `offset` is where the text stands in the body, and `skip` is how many of its
characters belong to the stop before. -/
def stops (form : CommentForm) (offset skip : Nat) : List Char → List (Nat × List Char)
  | [] => []
  | c :: s =>
    match skip, form.stopAt? (c :: s) with
    | 0, some (matched, rest) =>
      (offset, rest) :: stops form (offset + c.utf8Size) (matched.length - 1) s
    | skip, _ => stops form (offset + c.utf8Size) (skip - 1) s

/-- The offset of the first stop in a body whose keyword is a whole word. -/
def stopIn (form : CommentForm) (body : List Char) : Option Nat :=
  ((stops form 0 0 body).find? fun stop => Keyword.endsBefore stop.2).map (·.1)

end CommentForm
end Markers
