import Markers.Proofs.Scan.Boundary
import Markers.Proofs.Scan.Shift

/-!
# Scanning line by line

Where no block comment opens, no marker goes on to the next line. A run of a text is then part of
the run of a longer one (`Framed.run_append`), a newline joins two texts without joining their
markers (`scan?_append_newline`), and the findings of a text are those of its lines, each scanned
alone (`scanText_lines`).
-/

namespace Markers
open Text

/-- No block comment of the family opens in the text. -/
def Family.Blockless (family : Family) (text : List Char) : Prop :=
  ∀ form ∈ family.forms, form.style = .block → ¬ form.lead <:+: text

instance (family : Family) (text : List Char) : Decidable (family.Blockless text) :=
  inferInstanceAs (Decidable (∀ form ∈ family.forms, form.style = .block → ¬ form.lead <:+: text))

/-- Shell has no block comments. -/
theorem Family.blockless_shell (text : List Char) : Family.shell.Blockless text := by
  intro form mem block
  cases List.mem_singleton.1 mem
  cases block

namespace Family.Blockless
variable {family : Family} {a b : List Char}

theorem of_infix (h : family.Blockless b) (part : a <:+: b) : family.Blockless a :=
  fun form mem block lead => h form mem block (lead.trans part)

/-- No newline is part of what opens a block. -/
theorem append_newline (h : family.Blockless a) (h' : family.Blockless b) :
    family.Blockless (a ++ '\n' :: b) := by
  intro form mem block lead
  have oneLine : '\n' ∉ form.lead := by
    cases form with
    | line | hashColon | checkbox => cases block
    | _ => decide
  rcases List.infix_append_iff.1 lead with front | behind | ⟨l, l', parts, ends, leads⟩
  · exact h form mem block front
  · rcases List.infix_cons_iff.1 behind with leads | behind
    · rcases List.prefix_cons_iff.1 leads with none | ⟨rest, parts, _⟩
      · exact h form mem block (none ▸ List.nil_infix)
      · exact oneLine (parts ▸ List.mem_cons_self ..)
    · exact h' form mem block behind
  · rcases List.prefix_cons_iff.1 leads with none | ⟨rest, newline, _⟩
    · rw [none, List.append_nil] at parts
      exact h form mem block (parts ▸ ends.isInfix)
    · exact oneLine (parts ▸ newline ▸ by simp)

/-- All matches in the text are line comments. -/
theorem line_of_matches {form : CommentForm} {m : Match} (h : family.Blockless a)
    (mem : form ∈ family.forms) (found : form.Matches a m) : form.style = .line := by
  cases style : form.style with
  | line => rfl
  | block =>
    obtain ⟨before, rest, rfl, _, matched⟩ := found
    have lead := (CommentForm.lead_prefix_of_matchAt? matched).isInfix
    exact absurd (lead.trans (List.suffix_append before rest).isInfix) (h form mem style)

end Family.Blockless

/-- A family but Markdown has no items. -/
theorem Family.ne_checkbox {family : Family} {form : CommentForm} (plain : family ≠ .markdown)
    (mem : form ∈ family.forms) : form ≠ .checkbox := by
  rintro rfl
  exact plain (Scan.markdown_of_checkbox mem)

theorem Family.defaultKind?_of_ne {family : Family} (plain : family ≠ .markdown) :
    family.defaultKind? = none := by
  cases family with
  | markdown => contradiction
  | _ => rfl

namespace Scan
open PositionIndex

/-- A run from a cursor is one from any cursor before it, if no match starts in between. -/
theorem Run.of_le {family : Family} {text : List Char} {cursor cursor' : Nat} {steps : List Step}
    (run : Run family text cursor steps) (le : cursor' ≤ cursor)
    (none : ∀ form ∈ family.forms, ∀ m, form.Matches text m → cursor' ≤ m.start →
      cursor ≤ m.start) : Run family text cursor' steps := by
  cases run with
  | done early =>
    refine .done fun form mem m found => ?_
    by_contra ahead
    have before := early form mem m found
    have behind := none form mem m found (by omega)
    omega
  | step next accepted rest =>
    refine .step ⟨next.found, Nat.le_trans le next.ahead, ?_⟩ accepted rest
    obtain ⟨earlier, later, forms, before, behind⟩ := next.order
    refine ⟨earlier, later, forms, fun form mem m found ahead => ?_,
      fun form mem m found ahead => ?_⟩
    · have mem' : form ∈ family.forms := forms ▸ List.mem_append_left _ mem
      exact before form mem m found (none form mem' m found ahead)
    · have mem' : form ∈ family.forms := forms ▸ List.mem_append_right _ mem
      exact behind form mem m found (none form mem' m found ahead)

namespace Framed
variable {text whole front back : List Char} {family : Family} {cursor : Nat}

/-- What comes next in the text comes next in the longer one. -/
theorem leftmost_shift (h : Framed text whole front back) (plain : family ≠ .markdown)
    (blockless : family.Blockless whole) {c : Candidate}
    (next : Leftmost family text cursor c) :
    Leftmost family whole (byteLength front + cursor)
      ⟨c.form, c.place.shift (byteLength front)⟩ := by
  have blockless' : family.Blockless text :=
    blockless.of_infix (h.split ▸ ⟨front, back, by simp⟩)
  have inside := next.found.start_lt
  have ahead := next.ahead
  have line := blockless'.line_of_matches next.form_mem next.found
  -- a match of the longer text is one of the text or starts behind it
  have apart : ∀ form ∈ family.forms, ∀ m, form.Matches whole m →
      byteLength front + cursor ≤ m.start → byteLength (front ++ text) ≤ m.start ∨
        ∃ m', form.Matches text m' ∧ cursor ≤ m'.start ∧ m.start = byteLength front + m'.start := by
    intro form mem m found ahead
    by_cases within : m.start < byteLength (front ++ text)
    · obtain ⟨m', found', rfl⟩ := h.exists_matches (blockless.line_of_matches mem found)
        (family.ne_checkbox plain mem) found (by omega) within
      exact .inr ⟨m', found', Nat.le_of_add_le_add_left ahead, rfl⟩
    · exact .inl (by omega)
  obtain ⟨earlier, later, forms, before, behind⟩ := next.order
  refine ⟨h.matches_shift line (family.ne_checkbox plain next.form_mem) next.found,
    Nat.add_le_add_left ahead _, earlier, later, forms, ?_, ?_⟩
  · intro form mem m found ahead
    show byteLength front + c.place.start < m.start
    rcases apart form (forms ▸ List.mem_append_left _ mem) m found ahead with
      behind | ⟨m', found', ahead', start⟩
    · rw [byteLength_append] at behind
      omega
    · have lt := before form mem m' found' ahead'
      omega
  · intro form mem m found ahead
    show byteLength front + c.place.start ≤ m.start
    rcases apart form (forms ▸ List.mem_append_right _ mem) m found ahead with
      behind | ⟨m', found', ahead', start⟩
    · rw [byteLength_append] at behind
      omega
    · have le := behind form mem m' found' ahead'
      omega

/-- A run of the text goes on in the longer one. -/
theorem run_append (h : Framed text whole front back) (plain : family ≠ .markdown)
    (blockless : family.Blockless whole) {steps behind : List Step}
    (run : Run family text cursor steps) (inside : cursor ≤ byteLength text)
    (rest : Run family whole (byteLength (front ++ text)) behind) :
    ∃ steps', Run family whole (byteLength front + cursor) steps' ∧
      markers steps' = (markers steps).map (·.down (front.count '\n')) ++ markers behind := by
  induction run with
  | @done cursor early =>
    refine ⟨behind, rest.of_le (by rw [byteLength_append]; omega) ?_, rfl⟩
    intro form mem m found ahead
    by_contra within
    obtain ⟨m', found', rfl⟩ := h.exists_matches (blockless.line_of_matches mem found)
      (family.ne_checkbox plain mem) found (by omega) (by omega)
    have before := early form mem m' found'
    have ahead : byteLength front + cursor ≤ byteLength front + m'.start := ahead
    omega
  | @step cursor c o steps next accepted _ ih =>
    have possible : Step.Possible family text ⟨c, o⟩ := ⟨next.form_mem, next.found, accepted⟩
    obtain ⟨steps', run', same⟩ := ih possible.cursor_le_byteLength
    have accepted' := h.accept?_shift (family.defaultKind?_of_ne plain) next.form_mem next.found
    rw [accepted, Option.map_some] at accepted'
    refine ⟨_ :: steps', .step (h.leftmost_shift plain blockless next) accepted' run', ?_⟩
    show (o.marker.map _).toList ++ markers steps' =
      (o.marker.toList ++ markers steps).map _ ++ markers behind
    rw [same, List.map_append, List.append_assoc]
    cases o.marker <;> rfl

end Framed

/-- A newline joins two texts without joining their markers. -/
theorem scan?_append_newline {family : Family} (plain : family ≠ .markdown) {a b : List Char}
    (blockless : family.Blockless a) (blockless' : family.Blockless b) :
    ∃ found found', family.scan? a = some found ∧ family.scan? b = some found' ∧
      family.scan? (a ++ '\n' :: b) =
        some (found ++ found'.map (·.down (a.count '\n' + 1))) := by
  obtain ⟨steps, run, found⟩ := exists_scan? family a
  obtain ⟨steps', run', found'⟩ := exists_scan? family b
  refine ⟨markers steps, markers steps', found, found', ?_⟩
  have joined := blockless.append_newline blockless'
  have above : Framed a (a ++ '\n' :: b) [] ('\n' :: b) := by
    refine ⟨rfl, rfl, fun c first => ?_⟩
    cases first
    rfl
  have below : Framed b (a ++ '\n' :: b) (a ++ ['\n']) [] := by
    refine ⟨by simp, ?_, by simp⟩
    rw [lineStart, List.getLast?_concat]
    rfl
  -- behind the second text nothing is left
  have nothing : Run family (a ++ '\n' :: b) (byteLength (a ++ ['\n'] ++ b)) [] := by
    refine .done fun form _ m match' => ?_
    have inside := match'.start_lt
    rw [show a ++ ['\n'] ++ b = a ++ '\n' :: b by simp]
    exact inside
  obtain ⟨second, run₂, markers₂⟩ := below.run_append plain joined run' (Nat.zero_le _) nothing
  -- no match starts at the newline
  have run₂ : Run family (a ++ '\n' :: b) (byteLength ([] ++ a)) second := by
    refine run₂.of_le (by simp) fun form _ m match' ahead => ?_
    refine le_start_of_lt match' (Nat.lt_of_le_of_ne ahead fun here => ?_)
    have matched := match'.matchAt?_eq here
    rw [matchAt?_newline] at matched
    simp at matched
  obtain ⟨all, run₁, markers₁⟩ := above.run_append plain joined run (Nat.zero_le _) run₂
  rw [run₁.scan?_eq, markers₁, markers₂]
  simp [markers]

end Scan

/-! ## Findings -/

/-- The finding some lines further down. -/
def Finding.down (a : Finding) (rows : Nat) : Finding :=
  { a with start := a.start.down rows, stop := a.stop.down rows }

theorem Finding.ofMarker_down (file : Path) (marker : Marker) (rows : Nat) :
    Finding.ofMarker file (marker.down rows) = (Finding.ofMarker file marker).down rows := rfl

theorem Finding.down_down (a : Finding) (m n : Nat) : (a.down m).down n = a.down (m + n) := by
  simp only [Finding.down, Position.down_down]

/-- What the scanner finds in lines from a row on, each scanned alone. -/
def scanLines (path : Path) (row : Nat) : List (List Char) → Except Failure (List Finding)
  | [] => .ok []
  | line :: lines => do
    let scan ← scanText path (String.ofList line)
    let below ← scanLines path (row + 1) lines
    return scan.findings.map (·.down row) ++ below

section
variable {path : Path} {family : Family}

theorem scanLines_cons {line : List Char} {found : List Marker} {below : List Finding} {row : Nat}
    {lines : List (List Char)} (known : Family.ofPath? path = some family)
    (scanned : family.scan? line = some found) (rest : scanLines path (row + 1) lines = .ok below) :
    scanLines path row (line :: lines) =
      .ok ((found.map fun marker => (Finding.ofMarker path marker).down row) ++ below) := by
  rw [← String.toList_ofList (l := line)] at scanned
  rw [scanLines, scanText_of_scan? known scanned, rest]
  simp [bind, Except.bind, pure, Except.pure, Function.comp_def]

/-- The markers of a text are those of its lines. -/
theorem scanLines_of_scan? (known : Family.ofPath? path = some family) (plain : family ≠ .markdown)
    (text : List Char) (blockless : family.Blockless text) {found : List Marker}
    (scanned : family.scan? text = some found) (row : Nat) :
    scanLines path row (text.splitOn '\n') =
      .ok (found.map fun marker => (Finding.ofMarker path marker).down row) := by
  -- the induction takes one line off the text at a time
  induction length : text.length using Nat.strong_induction_on generalizing text found row with
  | _ n ih =>
    obtain ⟨rest, split, newline⟩ := CommentForm.exists_restOfLine text
    have oneLine := CommentForm.newline_not_mem_restOfLine text
    generalize CommentForm.restOfLine text = line at split oneLine
    cases rest with
    | nil =>
      rw [List.append_nil] at split
      subst split
      rw [List.splitOn_eq_singleton oneLine, scanLines_cons known scanned rfl, List.append_nil]
    | cons c rest =>
      obtain rfl := newline c rfl
      subst split
      have first := blockless.of_infix (List.prefix_append line _).isInfix
      have second := blockless.of_infix
        ((List.suffix_cons '\n' rest).trans (List.suffix_append line _)).isInfix
      obtain ⟨found₁, found₂, scanned₁, scanned₂, joined⟩ :=
        Scan.scan?_append_newline plain first second
      cases scanned.symm.trans joined
      have below := ih rest.length (by simp at length; omega) rest second scanned₂ (row + 1) rfl
      rw [List.splitOn_append_cons_self_of_not_mem oneLine, scanLines_cons known scanned₁ below,
        List.count_eq_zero_of_not_mem oneLine, List.map_append, List.map_map]
      simp only [Function.comp_def, Finding.ofMarker_down, Finding.down_down, Nat.zero_add,
        Nat.add_comm 1 row]

end

/-- Scanning works line by line. Where no block comment opens, the findings of a text are those of
its lines, each scanned alone and moved down to where the line stands; and a newline joins two such
texts with the findings of both. -/
theorem scanText_lines {path : Path} {family : Family} (known : Family.ofPath? path = some family)
    (plain : family ≠ .markdown) (text text' : String) (blockless : family.Blockless text.toList)
    (blockless' : family.Blockless text'.toList) :
    ∃ findings findings',
      scanText path text = .ok ⟨path, findings⟩ ∧
      scanLines path 0 (text.toList.splitOn '\n') = .ok findings ∧
      scanText path text' = .ok ⟨path, findings'⟩ ∧
      scanText path (text ++ "\n" ++ text') =
        .ok ⟨path, findings ++ findings'.map (·.down (text.toList.count '\n' + 1))⟩ := by
  obtain ⟨found, found', scanned, scanned', joined⟩ :=
    Scan.scan?_append_newline plain blockless blockless'
  have toList : (text ++ "\n" ++ text').toList = text.toList ++ '\n' :: text'.toList := by simp
  rw [← toList] at joined
  refine ⟨_, _, scanText_of_scan? known scanned, ?_, scanText_of_scan? known scanned', ?_⟩
  · exact scanLines_of_scan? known plain _ blockless scanned 0
  · rw [scanText_of_scan? known joined, List.map_append, List.map_map, List.map_map]
    rfl

/-- Line comments between blanks, a carriage return and the signs of a block comment. -/
theorem scanText_lines_powerShell :
    Family.ofPath? ⟨"a.ps1"⟩ = some .powerShell ∧ Family.powerShell ≠ .markdown ∧
      Family.powerShell.Blockless "x # BUG\r\n\n# NOTE: é < # TODO #".toList ∧
      Family.powerShell.Blockless "# KILL\n".toList ∧
      ∃ findings findings',
        scanText ⟨"a.ps1"⟩ "x # BUG\r\n\n# NOTE: é < # TODO #" = .ok ⟨⟨"a.ps1"⟩, findings⟩ ∧
        scanLines ⟨"a.ps1"⟩ 0 ("x # BUG\r\n\n# NOTE: é < # TODO #".toList.splitOn '\n') =
          .ok findings ∧
        scanText ⟨"a.ps1"⟩ "# KILL\n" = .ok ⟨⟨"a.ps1"⟩, findings'⟩ ∧
        scanText ⟨"a.ps1"⟩ ("x # BUG\r\n\n# NOTE: é < # TODO #" ++ "\n" ++ "# KILL\n") =
          .ok ⟨⟨"a.ps1"⟩, findings ++ findings'.map
            (·.down ("x # BUG\r\n\n# NOTE: é < # TODO #".toList.count '\n' + 1))⟩ :=
  have known : Family.ofPath? ⟨"a.ps1"⟩ = some .powerShell := by decide
  have first : Family.powerShell.Blockless "x # BUG\r\n\n# NOTE: é < # TODO #".toList := by decide
  have second : Family.powerShell.Blockless "# KILL\n".toList := by decide
  ⟨known, by decide, first, second, scanText_lines known (by decide) _ _ first second⟩

end Markers
