import Markers.Proofs.Comment.Item
import Markers.Proofs.Scan.Run
import Markers.Session

/-!
# Keywords are read whole

The keyword of a match is the longest one that starts at its place (`isLongest_of_matches`), but for
one case: an item whose line ends behind `NET` and its digits leaves the last digit to the body.
`scanText_longest` says so of the markers of a file.
-/

namespace Markers

open CommentForm Keyword Position in
/-- The keyword of a marker stands where the marker starts, and no longer keyword does, unless it is
`NET` with fewer than two digits in Markdown, and a digit is all that follows it on its line. -/
structure Marker.Keyworded (family : Family) (text : List Char) (marker : Marker)
    (before rest : List Char) : Prop where
  split : text = before ++ marker.kind.token ++ rest
  starts : marker.start = ⟨(origin.after before).line, (origin.after before).column + 1⟩
  longest : ¬ IsLongest marker.kind.token (marker.kind.token ++ rest) ↔ family = .markdown ∧
    ∃ digits d, marker.kind = .net digits ∧ digits.toList.length < 2 ∧ d.isDigit = true ∧
      restOfLine rest = [d]
  digit : ∀ digits d, marker.kind = .net digits → digits.toList.length < 2 → rest.head? = some d →
    d.isDigit = true → family = .markdown ∧ restOfLine rest = [d]

namespace Scan
open Text PositionIndex Position

/-- The keyword of a match is the longest one at its place, or `NET` in an item whose line goes on
with one digit. -/
theorem isLongest_of_matches {form : CommentForm} {text before rest : List Char} {m : Match}
    (found : form.Matches text m) (some : m.shape.keyword ≠ [])
    (split : text = before ++ m.shape.keyword ++ rest) (start : byteLength before = m.keywordStart) :
    Keyword.IsLongest m.shape.keyword (m.shape.keyword ++ rest) ∨
      form = .checkbox ∧ ∃ d, d.isDigit = true ∧ CommentForm.restOfLine rest = [d] := by
  obtain ⟨front, s, rfl, place, matched⟩ := found
  -- behind the opener stands the keyword with the rest
  have same : ∀ {behind : List Char}, s = m.shape.opener ++ behind →
      behind = m.shape.keyword ++ rest := by
    rintro behind rfl
    rw [← List.append_assoc, List.append_assoc before] at split
    refine (append_inj_of_byteLength split ?_).2
    rw [byteLength_append, place, start, Match.keywordStart]
  by_cases plain : form = .checkbox
  · subst plain
    obtain ⟨opener, tail, opened, ⟨rfl, reading⟩ | ⟨_, none, _⟩⟩ :=
      CommentForm.matchAt?_checkbox matched
    · obtain rfl := same (CommentForm.opener?_eq_append opened)
      rcases CommentForm.itemReading?_longest reading some with
        longest | ⟨d, behind, rest', digit, line⟩
      · exact .inl longest
      · obtain rfl := List.append_cancel_left rest'
        exact .inr ⟨rfl, d, digit, line⟩
    · exact absurd none some
  · obtain ⟨tail, behind, opened, read, _⟩ := CommentForm.matchAt?_eq_some plain matched
    obtain rfl := same (CommentForm.opener?_eq_append opened)
    exact .inl (Keyword.isLongest_of_read? read)

/-- A marker that was read from a keyword has it at its start. -/
theorem Step.Marked.keyworded {family : Family} {text : List Char} {step : Step} {marker : Marker}
    {reading : Reading} {kept before separator behind : List Char}
    (marked : step.Marked family text marker reading kept before separator behind)
    (mem : step.candidate.form ∈ family.forms)
    (found : step.candidate.form.Matches text step.candidate.place) (some : reading.keyword ≠ []) :
    marker.Keyworded family text before (separator ++ trimEnd kept ++ behind) := by
  obtain ⟨kind, named, token⟩ := marked.placed.exists_kind
  cases marked.named.symm.trans named
  have token := token some
  have keyword : reading.keyword = step.candidate.place.shape.keyword := by
    cases marked.placed with
    | keyword => rfl
    | bare => exact absurd rfl some
  have split : text = before ++ reading.keyword ++ (separator ++ trimEnd kept ++ behind) := by
    rw [marked.spans.split]
    simp
  have start := marked.spans.opens
  rw [if_neg some] at start
  generalize separator ++ trimEnd kept ++ behind = rest at split ⊢
  rw [keyword] at some split token
  have longest := isLongest_of_matches found some split start
  rw [← token] at split longest
  have digit : ∀ digits d, marker.kind = .net digits → digits.toList.length < 2 →
      rest.head? = Option.some d → d.isDigit = true →
      family = .markdown ∧ CommentForm.restOfLine rest = [d] := by
    intro digits d net short first digit
    have shorter := (Keyword.not_isLongest_iff marker.kind rest).2
      ⟨digits, d, net, short, first, digit⟩
    obtain ⟨item, e, _, line⟩ := longest.resolve_left shorter
    refine ⟨markdown_of_checkbox (item ▸ mem), ?_⟩
    obtain ⟨tail, leads⟩ := CommentForm.restOfLine_leads rest
    rw [line] at leads ⊢
    rw [← leads] at first
    cases first
    rfl
  obtain ⟨c, span, whole, sameLine, first, _⟩ := marked.spans.first
  refine ⟨split, ?_, ⟨fun shorter => ?_, ?_⟩, digit⟩
  · rw [first, advance, if_neg sameLine]
  · obtain ⟨digits, d, net, short, first, isDigit⟩ :=
      (Keyword.not_isLongest_iff marker.kind rest).1 shorter
    obtain ⟨markdown, line⟩ := digit digits d net short first isDigit
    exact ⟨markdown, digits, d, net, short, isDigit, line⟩
  · rintro ⟨_, digits, d, net, short, isDigit, line⟩
    obtain ⟨tail, leads⟩ := CommentForm.restOfLine_leads rest
    refine (Keyword.not_isLongest_iff marker.kind rest).2 ⟨digits, d, net, short, ?_, isDigit⟩
    rw [← leads, line]
    rfl

end Scan

open Scan in
/-- Keywords are read whole. A marker that was read from a keyword starts with the token of its kind,
and no longer keyword starts there, so no digit follows `NET` with fewer than two digits; but in
Markdown the last digit of a line that ends with `NET` and its digits is left to the body. -/
theorem scanText_longest {path : Path} {family : Family}
    (known : Family.ofPath? path = some family) (text : String) :
    ∃ steps, Run family text.toList 0 steps ∧
      scanText path text = .ok ⟨path, (markers steps).map (Finding.ofMarker path)⟩ ∧
      ∀ step ∈ steps, ∀ marker, step.outcome.marker = some marker →
        ∃ reading, reading? family text.toList step.candidate.place = some (some reading) ∧
          (reading.keyword ≠ [] →
            ∃ before rest, marker.Keyworded family text.toList before rest) := by
  obtain ⟨steps, run, found⟩ := exists_scan? family text.toList
  refine ⟨steps, run, scanText_of_scan? known found, ?_⟩
  intro step mem marker some
  have possible := run.possible_of_mem mem
  obtain ⟨reading, kept, before, separator, behind, marked⟩ := possible.exists_marked some
  exact ⟨reading, marked.read, fun keyword =>
    ⟨before, _, marked.keyworded possible.form_mem possible.found keyword⟩⟩

open Scan in
theorem scanText_longest_xml :
    Family.ofPath? ⟨"a.xml"⟩ = some .xml ∧
      ∃ steps, Run .xml "<!-- NET7-->\n<!-- NET472: x".toList 0 steps ∧
        scanText ⟨"a.xml"⟩ "<!-- NET7-->\n<!-- NET472: x" =
          .ok ⟨⟨"a.xml"⟩, (markers steps).map (Finding.ofMarker ⟨"a.xml"⟩)⟩ ∧
        ∀ step ∈ steps, ∀ marker, step.outcome.marker = some marker →
          ∃ reading, reading? .xml "<!-- NET7-->\n<!-- NET472: x".toList step.candidate.place =
              some (some reading) ∧
            (reading.keyword ≠ [] → ∃ before rest,
              marker.Keyworded .xml "<!-- NET7-->\n<!-- NET472: x".toList before rest) :=
  ⟨by decide, scanText_longest (by decide) "<!-- NET7-->\n<!-- NET472: x"⟩

open Scan in
/-- `NET7` stands where a marker starts that was read from the keyword `NET`. -/
theorem scanText_longest_item :
    ∃ step, Run .markdown "- [ ] NET7\n".toList 0 [step] ∧
      reading? .markdown "- [ ] NET7\n".toList step.candidate.place =
        some (some ⟨Kind.token (.net .none), 9, ['7']⟩) ∧
      scanText ⟨"R.md"⟩ "- [ ] NET7\n" =
        .ok ⟨⟨"R.md"⟩, [⟨"7", .net .none, ⟨"R.md"⟩, ⟨1, 7⟩, ⟨1, 10⟩⟩]⟩ ∧
      "- [ ] NET7\n".toList = "- [ ] ".toList ++ (Kind.token (.net .none) ++ ['7', '\n']) ∧
      ¬ Keyword.IsLongest (Kind.token (.net .none)) (Kind.token (.net .none) ++ ['7', '\n']) := by
  have known : Family.ofPath? ⟨"R.md"⟩ = some .markdown := by decide
  have run : Run .markdown "- [ ] NET7\n".toList 0
      [⟨⟨.checkbox, ⟨0, ⟨"- [ ] ".toList, "NET".toList, .content [] ['7'] [], by decide⟩⟩⟩,
        ⟨10, some ⟨.net .none, "7", ⟨1, 7⟩, ⟨1, 10⟩⟩⟩⟩] :=
    .of_nextMatch rfl rfl (.done (nextMatch_eq_none_iff.1 rfl))
  have longer : Kind.token (.net (.one 7)) <+: Kind.token (.net .none) ++ ['7', '\n'] := by decide
  refine ⟨_, run, rfl, scanText_of_scan? known run.scan?_eq, by decide, fun longest => ?_⟩
  exact absurd (longest _ longer) (by decide)

end Markers
