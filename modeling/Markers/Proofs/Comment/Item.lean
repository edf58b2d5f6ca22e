import Markers.Proofs.Comment.Opener

/-!
# Items

An item is an opener, a keyword that may be missing, a separator and lines (`exists_item`). These go
on to the next line if that continues the item (`itemLines_newline`); such a line begins with spaces
and a letter or digit, so it is no item itself (`opener?_eq_none_of_continues`). `ItemLine` says
which lines are items: a match starts at such a line if there is a letter or digit on it
(`exists_matchAt?_of_itemLine`).
-/

namespace Markers.CommentForm
open Text

theorem itemLines_cons_of_ne {c : Char} (other : c ≠ '\n') (s : List Char) :
    itemLines (c :: s) = c :: itemLines s := by
  obtain ⟨lines, split⟩ := splitOn_newline s
  rw [itemLines, itemLines, List.splitOn_cons_eq_if_modifyHead, if_neg (by simpa using other),
    split]
  simp only [List.modifyHead_cons, intercalate_newline, List.cons_append]

/-- A line break belongs to an item if the line behind it continues the item. -/
theorem itemLines_newline (s : List Char) :
    itemLines ('\n' :: s) = if continues (restOfLine s) then '\n' :: itemLines s else [] := by
  obtain ⟨lines, split⟩ := splitOn_newline s
  rw [itemLines, itemLines, List.splitOn_cons_eq_if_modifyHead, if_pos (by simp), split]
  simp only [List.takeWhile_cons, intercalate_newline]
  split
  · simp only [List.flatMap_cons, List.nil_append, List.cons_append]
  · rfl

/-- A line break inside an item has a line behind it that continues the item. -/
theorem continues_of_itemLines {x s y : List Char}
    (h : itemLines (x ++ '\n' :: s) = x ++ '\n' :: y) : continues (restOfLine s) = true := by
  induction x with
  | nil =>
    rw [List.nil_append, List.nil_append, itemLines_newline] at h
    by_contra other
    rw [if_neg other] at h
    cases h
  | cons c x ih =>
    by_cases newline : c = '\n'
    · subst newline
      rw [List.cons_append, List.cons_append, itemLines_newline] at h
      split at h
      · exact ih (List.cons.inj h).2
      · cases h
    · rw [List.cons_append, List.cons_append, itemLines_cons_of_ne newline] at h
      exact ih (List.cons.inj h).2

/-- What the opener of an item is made of. -/
theorem mem_checkbox_opener {s : List Char} {q : List Char × List Char}
    (h : checkbox.opener? s = some q) {c : Char} (mem : c ∈ q.1) :
    c ∈ [' ', '\t', '-', '[', ']'] := by
  obtain ⟨item, found, rfl⟩ := Option.map_eq_some_iff.1 h
  obtain ⟨between, front, all, _⟩ := literalRun?_spec found
  rcases List.mem_append.1 mem with mem | mem
  · have indent := List.mem_takeWhile_imp (p := opener?.indent) mem
    simp only [opener?.indent, Bool.or_eq_true, beq_iff_eq] at indent
    rcases indent with rfl | rfl <;> simp
  · rw [front] at mem
    rcases List.mem_append.1 mem with mem | mem
    · have marks : ∀ c ∈ ['-', ' ', '[', ' ', ']', ' '], c ∈ [' ', '\t', '-', '[', ']'] := by simp
      exact marks c mem
    · have space := all c mem
      simp [eq_of_beq space]

/-- None of that is a letter or digit. -/
theorem not_isAlphanum_of_mark {c : Char} (mark : c ∈ [' ', '\t', '-', '[', ']']) :
    c.isAlphanum = false := by
  simp only [List.mem_cons, List.not_mem_nil, or_false] at mark
  rcases mark with rfl | rfl | rfl | rfl | rfl <;> rfl

theorem newline_not_mem_checkbox_opener {s : List Char} {q : List Char × List Char}
    (h : checkbox.opener? s = some q) : '\n' ∉ q.1 :=
  fun mem => absurd (mem_checkbox_opener h mem) (by decide)

theorem newline_not_mem_of_separates {separator : List Char} (h : checkbox.Separates separator) :
    '\n' ∉ separator := by
  obtain ⟨n, rfl | rfl⟩ := h
  · simp
  · simp

/-- The pieces of an item: its body are lines behind a separator. Up to there it stands on one line,
on which only the keyword has letters and digits. -/
structure Item (s : List Char) (shape : Shape) (separator inner : List Char) : Prop where
  split : s = shape.opener ++ shape.keyword ++ separator ++ inner
  body : shape.body = .content separator (itemLines inner) []
  some : restOfLine inner ≠ []
  oneLine : '\n' ∉ shape.opener ++ shape.keyword ++ separator
  plain : ∀ c ∈ shape.opener ++ separator, c.isAlphanum = false

theorem exists_item {start : Bool} {s : List Char} {shape : Shape}
    (h : checkbox.matchAt? start s = some shape) :
    ∃ separator inner, Item s shape separator inner := by
  -- what stands behind the opener has the same parts in both cases
  have item : ∀ behind, s = shape.opener ++ shape.keyword ++ behind →
      (shape.keyword = [] ∨ Keyword.Reads shape.keyword) →
      (∀ c ∈ shape.opener, c ∈ [' ', '\t', '-', '[', ']']) → itemBody? behind = some shape.body →
      ∃ separator inner, Item s shape separator inner := by
    intro behind split keyword opener bodied
    obtain ⟨separator, inner, rfl, body, some, separates⟩ := itemBody?_spec bodied
    refine ⟨separator, inner, by rw [split, List.append_assoc _ separator], body, some, ?_, ?_⟩
    · have noBreak : '\n' ∉ shape.opener := fun mem => absurd (opener _ mem) (by decide)
      have noBreak' : '\n' ∉ shape.keyword := by
        rcases keyword with none | reads
        · rw [none]
          exact List.not_mem_nil
        · exact reads.newline_not_mem
      simp only [List.mem_append, not_or]
      exact ⟨⟨noBreak, noBreak'⟩, newline_not_mem_of_separates separates⟩
    · intro c mem
      rcases List.mem_append.1 mem with mem | mem
      · exact not_isAlphanum_of_mark (opener c mem)
      · obtain ⟨n, rfl | rfl⟩ := separates
        · rw [List.eq_of_mem_replicate mem]
          rfl
        · rcases List.mem_cons.1 mem with rfl | mem
          · rfl
          · rw [List.eq_of_mem_replicate mem]
            rfl
  obtain ⟨opener, rest, opened, ⟨rfl, reading⟩ | ⟨rfl, none, bodied⟩⟩ := matchAt?_checkbox h
  · obtain ⟨keyword, behind, rfl, bodied⟩ := itemReading?_spec reading
    refine item behind ?_ keyword (fun c mem => mem_checkbox_opener opened mem) bodied
    rw [opener?_eq_append opened, List.append_assoc]
  · refine item (' ' :: rest) ?_ (.inl none) (fun c mem => ?_) bodied
    · rw [opener?_eq_append opened, none]
      simp
    · exact mem_checkbox_opener opened (List.mem_append_left _ mem)

/-! ## Readings of an item -/

theorem literalRun?_append_cons {literal : List Char} {p : Char → Bool} {c : Char}
    (other : c ∉ literal) (stops : p c = false) (s t : List Char) :
    literalRun? literal p (s ++ c :: t) =
      (literalRun? literal p s).map fun q => (q.1, q.2 ++ c :: t) := by
  rw [literalRun?, isPrefixOf?_append_cons other, literalRun?, Option.map_map, Option.map_map]
  congr 1
  funext rest
  simp only [Function.comp_apply, run, takeWhile_append_cons stops, dropWhile_append_cons stops]

/-- A checkbox is read on its line. -/
theorem checkbox_opener?_append (line behind : List Char) :
    checkbox.opener? (line ++ '\n' :: behind) =
      (checkbox.opener? line).map fun q => (q.1, q.2 ++ '\n' :: behind) := by
  simp only [opener?]
  rw [takeWhile_append_cons (by decide), dropWhile_append_cons (by decide),
    literalRun?_append_cons (by decide) (by decide), Option.map_map, Option.map_map]
  rfl

/-- A text is a colon, which may be missing, and what follows it. -/
theorem exists_colon (s : List Char) : ∃ colon afterColon, s = colon ++ afterColon ∧
    (colon = [':'] ∨ colon = [] ∧ afterColon.head? ≠ some ':') := by
  by_cases first : s.head? = some ':'
  · obtain ⟨s, rfl⟩ := List.head?_eq_some_iff.1 first
    exact ⟨[':'], s, rfl, .inl rfl⟩
  · exact ⟨[], s, rfl, .inr ⟨rfl, first⟩⟩

/-- What the body of an item is behind the colon. -/
theorem itemBody?_append {colon afterColon : List Char}
    (one : colon = [':'] ∨ colon = [] ∧ afterColon.head? ≠ some ':') :
    itemBody? (colon ++ afterColon) =
      if restOfLine (run (· == ' ') afterColon).2 ≠ [] then
        some (.content (colon ++ (run (· == ' ') afterColon).1)
          (itemLines (run (· == ' ') afterColon).2) [])
      else if (run (· == ' ') afterColon).1 ≠ [] then
        some (.content (colon ++ (run (· == ' ') afterColon).1.dropLast)
          (itemLines (' ' :: (run (· == ' ') afterColon).2)) [])
      else if colon ≠ [] then some (.content [] (itemLines (colon ++ afterColon)) [])
      else none := by
  unfold itemBody?
  rcases one with rfl | ⟨rfl, other⟩
  · rfl
  · simp only [List.nil_append]
    split
    · simp at other
    · rfl

/-- Spaces and what follows them on the line are the body of an item, behind a colon that may be
missing. -/
theorem itemBody?_of_restOfLine {colon afterColon : List Char}
    (one : colon = [':'] ∨ colon = [] ∧ afterColon.head? ≠ some ':')
    (some : restOfLine (run (· == ' ') afterColon).2 ≠ []) :
    itemBody? (colon ++ afterColon) =
      Option.some (.content (colon ++ (run (· == ' ') afterColon).1)
        (itemLines (run (· == ' ') afterColon).2) []) := by
  rw [itemBody?_append one, if_pos some]

/-- An item is read with its longest keyword if that leaves a body. -/
theorem itemReading?_of_longest {s : List Char} {body : Body}
    (bodied : itemBody? (Keyword.longest s).2 = some body) :
    itemReading? s = some ((Keyword.longest s).1, body) := by
  have head := Keyword.head?_readings s
  unfold Keyword.longest at bodied ⊢
  rw [← head] at bodied ⊢
  unfold itemReading?
  cases readings : Keyword.readings s with
  | nil =>
    rw [readings, List.head?_nil, Option.getD_none] at bodied
    simp [bodied]
  | cons q more =>
    rw [readings, List.head?_cons, Option.getD_some] at bodied
    simp [bodied]

/-- A reading of an item makes a match. -/
theorem exists_matchAt?_checkbox {s opener rest keyword : List Char} {body : Body}
    (opened : checkbox.opener? s = some (opener, rest))
    (read : itemReading? rest = some (keyword, body)) :
    ∃ shape, checkbox.matchAt? true s = some shape ∧ shape.opener = opener ∧
      shape.keyword = keyword ∧ shape.body = body := by
  refine ⟨⟨opener, keyword, body, opener?_ne_nil opened⟩, ?_, rfl, rfl, rfl⟩
  exact matchAt?_checkbox_eq_some_iff.2 ⟨rfl, opener, rest, opened, .inl ⟨rfl, read⟩⟩

theorem matchAt?_checkbox_eq_none {s : List Char} (closed : checkbox.opener? s = none) :
    checkbox.matchAt? true s = none := by
  cases found : checkbox.matchAt? true s with
  | none => rfl
  | some shape =>
    obtain ⟨_, _, opened, _⟩ := matchAt?_checkbox found
    rw [closed] at opened
    simp at opened

/-! ## Keywords of items -/

/-- What stands in front of the rest of a line belongs to it. -/
theorem restOfLine_append {a : List Char} (oneLine : '\n' ∉ a) (b : List Char) :
    restOfLine (a ++ b) = a ++ restOfLine b := by
  apply List.takeWhile_append_of_pos
  intro c mem
  exact decide_eq_true fun same => oneLine (same ▸ mem)

/-- There is a body of an item exactly if something is left on its line. -/
theorem itemBody?_eq_none_iff {s : List Char} : itemBody? s = none ↔ restOfLine s = [] := by
  constructor
  · intro none
    unfold itemBody? at none
    split at none
    next colon afterColon parts =>
    have all := run_append (· == ' ') afterColon
    generalize run (· == ' ') afterColon = q at none all
    obtain ⟨spaces, rest⟩ := q
    simp only at none all
    split at none
    · simp at none
    · next empty =>
      split at none
      · simp at none
      · next noSpace =>
        split at none
        · simp at none
        · next noColon =>
          rw [not_not] at empty noSpace noColon
          rw [noSpace, List.nil_append] at all
          split at parts
          · cases parts
            simp at noColon
          · cases parts
            rwa [all] at empty
  · intro empty
    cases bodied : itemBody? s with
    | none => rfl
    | some body =>
      obtain ⟨separator, inner, rfl, _, some, separates⟩ := itemBody?_spec bodied
      rw [restOfLine_append (newline_not_mem_of_separates separates)] at empty
      exact absurd (List.append_eq_nil_iff.1 empty).2 some

/-- An item is read with the first keyword that leaves something on the line. -/
theorem findSome?_itemBody? {k r keyword : List Char} {body : Body}
    {more : List (List Char × List Char)}
    (h : ((k, r) :: more).findSome? (fun (keyword, rest) => (itemBody? rest).map fun body =>
      (keyword, body)) = some (keyword, body)) :
    restOfLine r ≠ [] ∧ keyword = k ∨ restOfLine r = [] ∧
      more.findSome? (fun (keyword, rest) => (itemBody? rest).map fun body => (keyword, body)) =
        some (keyword, body) := by
  rw [List.findSome?_cons] at h
  simp only at h
  cases bodied : itemBody? r with
  | none =>
    rw [bodied] at h
    exact .inr ⟨itemBody?_eq_none_iff.1 bodied, h⟩
  | some body =>
    rw [bodied] at h
    cases h
    refine .inl ⟨fun none => ?_, rfl⟩
    rw [itemBody?_eq_none_iff.2 none] at bodied
    cases bodied

/-- An item is read with the longest keyword. Only where nothing follows that on the line, and it is
`NET` with a digit, the last digit is left to the body. -/
theorem itemReading?_longest {s keyword : List Char} {body : Body}
    (h : itemReading? s = some (keyword, body)) (some : keyword ≠ []) :
    Keyword.IsLongest keyword s ∨
      ∃ d behind, s = keyword ++ d :: behind ∧ d.isDigit = true ∧ restOfLine (d :: behind) = [d] := by
  have bare : [([], s)].findSome? (fun (keyword, rest) => (itemBody? rest).map fun body =>
      (keyword, body)) ≠ Option.some (keyword, body) := by
    intro h
    obtain ⟨_, none⟩ | ⟨_, h⟩ := findSome?_itemBody? h
    · exact some none
    · cases h
  unfold itemReading? Keyword.readings at h
  split at h
  · exact absurd h bare
  · next t q read =>
    have digits := List.prefix_iff_eq_take.1 (Keyword.netDigits_leads t)
    have longest := Keyword.isLongest_of_read? (s := 'N' :: 'E' :: 'T' :: t) rfl
    rw [List.range_succ, List.map_append, List.reverse_append, List.map_singleton,
      List.reverse_singleton, List.append_assoc, List.singleton_append, ← digits] at h
    obtain ⟨_, rfl⟩ | ⟨empty, h⟩ := findSome?_itemBody? h
    · exact .inl longest
    · right
      cases length : (Keyword.netDigits t).length with
      | zero =>
        rw [length] at h
        exact absurd h bare
      | succ n =>
        rw [length, List.range_succ, List.map_append, List.reverse_append, List.map_singleton,
          List.reverse_singleton, List.append_assoc, List.singleton_append] at h
        rw [length] at empty
        have inside : n < t.length := by
          have := (Keyword.netDigits_leads t).length_le
          omega
        have split : t.drop n = t[n] :: t.drop (n + 1) := List.drop_eq_getElem_cons inside
        have digit : t[n].isDigit = true := by
          apply Keyword.isDigit_of_mem_netDigits (s := t)
          rw [digits, length]
          exact List.mem_take_iff_getElem.2 ⟨n, by omega, rfl⟩
        have line : restOfLine (t[n] :: t.drop (n + 1)) = [t[n]] := by
          have other : t[n] ≠ '\n' := by
            intro newline
            rw [newline] at digit
            simp at digit
          have first := restOfLine_append (a := [t[n]]) (by simpa using other.symm) (t.drop (n + 1))
          rwa [empty] at first
        obtain ⟨_, rfl⟩ | ⟨none, _⟩ := findSome?_itemBody? h
        · exact ⟨t[n], t.drop (n + 1), by simp [← split], digit, line⟩
        · rw [split, line] at none
          cases none
  · next read =>
    obtain ⟨_, rfl⟩ | ⟨_, h⟩ := findSome?_itemBody? h
    · exact .inl (Keyword.isLongest_of_read? read)
    · exact absurd h bare

/-! ## Lines of items -/

/-- An open checkbox item: spaces and tabs, the box, at least one space, and the rest of the line. -/
def ItemLine (line rest : List Char) : Prop :=
  ∃ indent n, line = indent ++ ['-', ' ', '[', ' ', ']'] ++ List.replicate (n + 1) ' ' ++ rest ∧
    ∀ c ∈ indent, c = ' ' ∨ c = '\t'

theorem itemLine_of_opener? {s : List Char} {q : List Char × List Char}
    (h : checkbox.opener? s = some q) : ItemLine (restOfLine s) (restOfLine q.2) := by
  have oneLine := newline_not_mem_checkbox_opener h
  have split := opener?_eq_append h
  obtain ⟨⟨item, behind⟩, found, rfl⟩ := Option.map_eq_some_iff.1 h
  obtain ⟨between, front, all, _⟩ := literalRun?_spec found
  simp only at front oneLine split
  refine ⟨s.takeWhile opener?.indent, between.length, ?_, fun c mem => ?_⟩
  · conv => lhs; rw [split, restOfLine_append oneLine]
    have spaces : between = List.replicate between.length ' ' :=
      List.eq_replicate_of_mem fun c mem => eq_of_beq (all c mem)
    rw [front, List.replicate_succ, ← spaces]
    simp
  · have indent := List.mem_takeWhile_imp (p := opener?.indent) mem
    simpa [opener?.indent] using indent

theorem exists_opener?_of_itemLine {s rest : List Char} (h : ItemLine (restOfLine s) rest) :
    ∃ q, checkbox.opener? s = some q := by
  obtain ⟨indent, n, line, blanks⟩ := h
  obtain ⟨tail, whole, _⟩ := exists_restOfLine s
  have all : ∀ c ∈ indent, opener?.indent c = true := by
    intro c mem
    simpa [opener?.indent] using blanks c mem
  have drops : s.dropWhile opener?.indent =
      ['-', ' ', '[', ' ', ']', ' '] ++ (List.replicate n ' ' ++ rest ++ tail) := by
    rw [whole, line]
    simp only [List.append_assoc, List.dropWhile_append_of_pos all, List.replicate_succ]
    rfl
  have front : ['-', ' ', '[', ' ', ']', ' '].isPrefixOf? (s.dropWhile opener?.indent) =
      some (List.replicate n ' ' ++ rest ++ tail) :=
    List.isPrefixOf?_eq_some_iff_append_eq.2 drops.symm
  simp only [opener?, literalRun?, front, Option.map_some]
  exact ⟨_, rfl⟩

/-- Something left on its line makes an item. -/
theorem exists_itemReading? {s : List Char} (some : restOfLine s ≠ []) :
    ∃ keyword body, itemReading? s = Option.some (keyword, body) := by
  obtain ⟨body, bodied⟩ : ∃ body, itemBody? s = Option.some body := by
    rw [← Option.ne_none_iff_exists']
    exact mt itemBody?_eq_none_iff.1 some
  have found : (itemReading? s).isSome := by
    refine List.findSome?_isSome_iff.2 ⟨([], s), by simp, ?_⟩
    simp [bodied]
  obtain ⟨⟨keyword, body⟩, read⟩ := Option.isSome_iff_exists.1 found
  exact ⟨keyword, body, read⟩

/-- A match starts at the line of an item with a letter or digit. -/
theorem exists_matchAt?_of_itemLine {s rest : List Char} (h : ItemLine (restOfLine s) rest) {c : Char}
    (mem : c ∈ rest) (word : c.isAlphanum = true) :
    ∃ shape, checkbox.matchAt? true s = some shape := by
  obtain ⟨⟨opener, behind⟩, opened⟩ := exists_opener?_of_itemLine h
  have onLine : c ∈ restOfLine s := by
    obtain ⟨_, _, line, _⟩ := h
    rw [line]
    exact List.mem_append_right _ mem
  have some : restOfLine behind ≠ [] := by
    rw [opener?_eq_append opened,
      restOfLine_append (newline_not_mem_checkbox_opener opened)] at onLine
    rcases List.mem_append.1 onLine with mem | mem
    · rw [not_isAlphanum_of_mark (mem_checkbox_opener opened mem)] at word
      cases word
    · exact List.ne_nil_of_mem mem
  obtain ⟨keyword, body, read⟩ := exists_itemReading? some
  obtain ⟨shape, matched, _⟩ := exists_matchAt?_checkbox opened read
  exact ⟨shape, matched⟩

/-- A line that continues an item is none itself. -/
theorem opener?_eq_none_of_continues {s : List Char} (h : continues (restOfLine s) = true) :
    checkbox.opener? s = none := by
  obtain ⟨tail, whole, _⟩ := exists_restOfLine s
  have split := run_append (· == ' ') (restOfLine s)
  have spaces : ∀ c ∈ (run (· == ' ') (restOfLine s)).1, opener?.indent c = true := by
    intro c mem
    rw [eq_of_beq (of_mem_run (p := (· == ' ')) mem)]
    rfl
  unfold continues at h
  split at h
  · next blanks c more parts =>
    have word := (Bool.and_eq_true_iff.1 h).2
    simp only [parts] at split spaces
    have other : opener?.indent c = false := by
      apply Bool.eq_false_iff.2
      intro indent
      rcases Bool.or_eq_true_iff.1 indent with same | same
      · rw [eq_of_beq same] at word
        cases word
      · rw [eq_of_beq same] at word
        cases word
    have noBox : ('-' == c) = false := by
      apply beq_eq_false_iff_ne.2
      rintro rfl
      cases word
    have drops : s.dropWhile opener?.indent = c :: (more ++ tail) := by
      rw [whole, ← split, List.append_assoc, List.dropWhile_append_of_pos spaces, List.cons_append,
        List.dropWhile_cons, other]
      rfl
    simp [opener?, drops, literalRun?, List.isPrefixOf?, noBox]
  · cases h

end Markers.CommentForm
