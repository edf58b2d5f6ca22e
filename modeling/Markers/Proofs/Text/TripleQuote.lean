import Markers.Proofs.Comment.Pieces

/-!
# Triple quotes

`delimiters` lists the triple double quotes of a text from left to right, none overlapping the one
before it, and `tripleQuotes` counts them. Of the quotes at the end of a text those that fill no
delimiter are left open for what follows it (`exists_open`); so the count starts anew behind another
character (`tripleQuotes_append_cons`), and three quotes are one more wherever they stand
(`tripleQuotes_append_quotes`). But where a run of quotes in front of them leaves some open, these
three are no delimiter themselves (`getElem?_delimiters_iff`). `delimitersBefore` counts up to an
offset.
-/

namespace Markers.Text

/-- The offsets of the triple double quotes of a text that begins at an offset, numbered from left
to right without overlaps. -/
def delimiters (offset : Nat) : List Char → List Nat
  | '"' :: '"' :: '"' :: s => offset :: delimiters (offset + 3) s
  | c :: s => delimiters (offset + c.utf8Size) s
  | [] => []

/-- The number of triple double quotes in a text, none overlapping the one before it. -/
def tripleQuotes (s : List Char) : Nat :=
  (delimiters 0 s).length

/-- How many double quotes stand at the end of a text. -/
def endQuotes (s : List Char) : Nat :=
  (s.reverse.takeWhile (· = '"')).length

/-! ## Single characters -/

@[simp] theorem delimiters_quotes (offset : Nat) (s : List Char) :
    delimiters offset ('"' :: '"' :: '"' :: s) = offset :: delimiters (offset + 3) s := by
  rw [delimiters]

/-- A character that no three quotes start at is passed over. -/
theorem delimiters_cons (offset : Nat) {c : Char} {s : List Char}
    (other : ¬ ['"', '"', '"'] <+: c :: s) :
    delimiters offset (c :: s) = delimiters (offset + c.utf8Size) s := by
  rw [delimiters]
  rintro rest rfl rfl
  exact other ⟨rest, rfl⟩

/-- The number of delimiters does not depend on where the text begins. -/
theorem length_delimiters (offset : Nat) (s : List Char) :
    (delimiters offset s).length = tripleQuotes s := by
  suffices any : ∀ offset', (delimiters offset s).length = (delimiters offset' s).length from any 0
  fun_induction delimiters offset s with
  | case1 offset s ih =>
    intro offset'
    rw [delimiters_quotes, List.length_cons, List.length_cons, ih]
  | case2 offset c s apart ih =>
    intro offset'
    have other : ¬ ['"', '"', '"'] <+: c :: s := by
      rintro ⟨rest, same⟩
      cases same
      exact apart rest rfl rfl
    rw [delimiters_cons offset' other, ih]
  | case3 => exact fun _ => rfl

/-- A delimiter lies in the text with all of its three quotes. -/
theorem bounds_of_mem_delimiters {offset place : Nat} {s : List Char}
    (mem : place ∈ delimiters offset s) : offset ≤ place ∧ place + 3 ≤ offset + byteLength s := by
  fun_induction delimiters offset s with
  | case1 offset s ih =>
    have quote : Char.utf8Size '"' = 1 := rfl
    simp only [byteLength_cons, quote]
    rcases List.mem_cons.1 mem with rfl | mem
    · omega
    · have := ih mem
      omega
  | case2 offset c s apart ih =>
    have := ih mem
    rw [byteLength_cons]
    omega
  | case3 => cases mem

theorem tripleQuotes_cons {c : Char} {s : List Char} (other : ¬ ['"', '"', '"'] <+: c :: s) :
    tripleQuotes (c :: s) = tripleQuotes s := by
  rw [tripleQuotes, delimiters_cons 0 other, length_delimiters]

theorem tripleQuotes_cons_of_ne {c : Char} (s : List Char) (other : c ≠ '"') :
    tripleQuotes (c :: s) = tripleQuotes s :=
  tripleQuotes_cons fun quotes => other (List.cons_prefix_cons.1 quotes).1.symm

/-! ## Quotes at the end -/

theorem endQuotes_append_cons (a : List Char) {c : Char} (other : c ≠ '"') (s : List Char) :
    endQuotes (a ++ c :: s) = endQuotes s := by
  simp only [endQuotes, List.reverse_append, List.reverse_cons, List.append_assoc,
    List.takeWhile_append]
  split <;> simp_all

theorem endQuotes_replicate (n : Nat) : endQuotes (List.replicate n '"') = n := by
  simp [endQuotes]

/-- A delimiter in front leaves as many quotes open as there were. -/
theorem endQuotes_quotes_mod (s : List Char) :
    endQuotes ('"' :: '"' :: '"' :: s) % 3 = endQuotes s % 3 := by
  by_cases all : ∀ c ∈ s, c = '"'
  · rw [List.eq_replicate_of_mem all]
    show endQuotes (List.replicate (s.length + 3) '"') % 3 = _
    rw [endQuotes_replicate, endQuotes_replicate, Nat.add_mod_right]
  · simp only [not_forall, exists_prop] at all
    obtain ⟨c, mem, other⟩ := all
    obtain ⟨x, y, rfl⟩ := List.append_of_mem mem
    have behind := endQuotes_append_cons ('"' :: '"' :: '"' :: x) other y
    rw [endQuotes_append_cons x other]
    exact congrArg (· % 3) behind

/-- Of the quotes at the end of a text those that fill no delimiter count with what follows. -/
theorem exists_open (offset : Nat) (a : List Char) :
    ∃ next, next + endQuotes a % 3 = offset + byteLength a ∧ ∀ s,
      delimiters offset (a ++ s) =
        delimiters offset a ++ delimiters next (List.replicate (endQuotes a % 3) '"' ++ s) := by
  fun_induction delimiters offset a with
  | case1 offset a ih =>
    obtain ⟨next, place, rest⟩ := ih
    have quote : Char.utf8Size '"' = 1 := rfl
    refine ⟨next, ?_, fun s => ?_⟩
    · rw [endQuotes_quotes_mod, place]
      simp only [byteLength_cons, quote]
      omega
    · rw [endQuotes_quotes_mod]
      simp only [List.cons_append, delimiters_quotes, rest]
  | case2 offset d a apart ih =>
    -- no three quotes start at `d`, unless `s` has the last of them
    have passes : endQuotes (d :: a) = endQuotes a → (∀ s, ¬ ['"', '"', '"'] <+: d :: (a ++ s)) →
        ∃ next, next + endQuotes (d :: a) % 3 = offset + byteLength (d :: a) ∧ ∀ s,
          delimiters offset (d :: a ++ s) = delimiters (offset + d.utf8Size) a ++
            delimiters next (List.replicate (endQuotes (d :: a) % 3) '"' ++ s) := by
      intro same closed
      obtain ⟨next, place, rest⟩ := ih
      rw [same]
      refine ⟨next, ?_, fun s => ?_⟩
      · rw [place, byteLength_cons, Nat.add_assoc]
      · rw [List.cons_append, delimiters_cons offset (closed s), rest]
    by_cases quote : d = '"'
    · subst quote
      cases a with
      | nil => exact ⟨offset, rfl, fun s => rfl⟩
      | cons e a =>
        by_cases quote : e = '"'
        · subst quote
          cases a with
          | nil => exact ⟨offset, rfl, fun s => rfl⟩
          | cons f a =>
            have other : f ≠ '"' := by
              rintro rfl
              exact apart a rfl rfl
            refine passes ?_ fun s quotes => ?_
            · exact (endQuotes_append_cons ['"', '"'] other a).trans
                (endQuotes_append_cons ['"'] other a).symm
            · simp only [List.cons_append, List.cons_prefix_cons] at quotes
              exact other quotes.2.2.1.symm
        · refine passes ?_ fun s quotes => quote ?_
          · exact (endQuotes_append_cons ['"'] quote a).trans
              (endQuotes_append_cons [] quote a).symm
          · simp only [List.cons_append, List.cons_prefix_cons] at quotes
            exact quotes.2.1.symm
    · exact passes (endQuotes_append_cons [] quote a) fun s quotes =>
        quote (List.cons_prefix_cons.1 quotes).1.symm
  | case3 offset => exact ⟨offset, rfl, fun s => rfl⟩

/-- The open quotes at the end of a text count with what follows. -/
theorem tripleQuotes_append (a s : List Char) : tripleQuotes (a ++ s) =
    tripleQuotes a + tripleQuotes (List.replicate (endQuotes a % 3) '"' ++ s) := by
  obtain ⟨next, _, rest⟩ := exists_open 0 a
  rw [tripleQuotes, rest, List.length_append, length_delimiters, length_delimiters]

/-- Behind a text the count starts anew at a character that is no quote. -/
theorem tripleQuotes_append_cons (a : List Char) {c : Char} (other : c ≠ '"') (s : List Char) :
    tripleQuotes (a ++ c :: s) = tripleQuotes a + tripleQuotes s := by
  have closed : tripleQuotes (List.replicate (endQuotes a % 3) '"' ++ c :: s) = tripleQuotes s := by
    have one : ¬ ['"', '"', '"'] <+: '"' :: c :: s := by
      simp [List.cons_prefix_cons, Ne.symm other]
    have two : ¬ ['"', '"', '"'] <+: '"' :: '"' :: c :: s := by
      simp [List.cons_prefix_cons, Ne.symm other]
    have zero := tripleQuotes_cons_of_ne s other
    match endQuotes a % 3, Nat.mod_lt (endQuotes a) (Nat.zero_lt_succ 2) with
    | 0, _ => exact zero
    | 1, _ => exact (tripleQuotes_cons one).trans zero
    | 2, _ => exact (tripleQuotes_cons two).trans ((tripleQuotes_cons one).trans zero)
  rw [tripleQuotes_append, closed]

/-- Three quotes are one more, also where others stand in front of them. -/
theorem tripleQuotes_append_quotes (a : List Char) :
    tripleQuotes (a ++ ['"', '"', '"']) = tripleQuotes a + 1 := by
  rw [tripleQuotes_append]
  match endQuotes a % 3, Nat.mod_lt (endQuotes a) (Nat.zero_lt_succ 2) with
  | 0, _ | 1, _ | 2, _ => rfl

theorem tripleQuotes_le_append (a s : List Char) : tripleQuotes a ≤ tripleQuotes (a ++ s) := by
  rw [tripleQuotes_append]
  exact Nat.le_add_right ..

/-- Where no three quotes stand none are counted. -/
theorem tripleQuotes_eq_zero {s : List Char} (none : ¬ ['"', '"', '"'] <:+: s) :
    tripleQuotes s = 0 := by
  induction s with
  | nil => rfl
  | cons c s ih =>
    rw [List.infix_cons_iff, not_or] at none
    rw [tripleQuotes_cons none.1, ih none.2]

/-- Characters other than quotes separate what is counted in front of them from what is behind. -/
theorem tripleQuotes_append_plain (a : List Char) {plain : List Char} (some : plain ≠ [])
    (others : ∀ c ∈ plain, c ≠ '"') (s : List Char) :
    tripleQuotes (a ++ plain ++ s) = tripleQuotes a + tripleQuotes s := by
  obtain ⟨c, plain, rfl⟩ := List.exists_cons_of_ne_nil some
  rw [List.forall_mem_cons] at others
  have behind : tripleQuotes (plain ++ s) = tripleQuotes s := by
    induction plain with
    | nil => rfl
    | cons d plain ih =>
      rw [List.forall_mem_cons] at others
      rw [List.cons_append, tripleQuotes_cons_of_ne _ others.2.1]
      exact ih (List.cons_ne_nil c plain) ⟨others.1, others.2.2⟩
  rw [List.append_assoc, List.cons_append, tripleQuotes_append_cons a others.1, behind]

theorem tripleQuotes_append_others (a : List Char) {others : List Char}
    (apart : ∀ c ∈ others, c ≠ '"') : tripleQuotes (a ++ others) = tripleQuotes a := by
  by_cases none : others = []
  · rw [none, List.append_nil]
  · exact (congrArg tripleQuotes (List.append_nil _)).symm.trans
      (tripleQuotes_append_plain a none apart [])

/-- Up to where the first delimiter is complete none is counted. -/
theorem tripleQuotes_eq_zero_of_upToFirst {s body behind t : List Char}
    (h : CommentForm.UpToFirst ['"', '"', '"'] s body behind) (within : body ++ t <+: s)
    (short : t.length < 3) : tripleQuotes (body ++ t) = 0 := by
  apply tripleQuotes_eq_zero
  intro inside
  cases h with
  | closed _ _ split first =>
    obtain ⟨before, rest, same⟩ := inside
    obtain ⟨more, whole⟩ := within
    have early := first before (rest ++ more) (by rw [← whole, ← same]; simp)
    have length := congrArg List.length same
    simp only [List.length_append, List.length_cons, List.length_nil] at length
    omega
  | unclosed absent => exact absent (inside.trans within.isInfix)

/-- Three quotes of a text are a delimiter, the next one behind those in front of them, exactly if
the quotes directly in front of them come in threes. -/
theorem getElem?_delimiters_iff (before s : List Char) (number : Nat) :
    (delimiters 0 (before ++ ['"', '"', '"'] ++ s))[number]? = some (byteLength before) ↔
      number = tripleQuotes before ∧ 3 ∣ endQuotes before := by
  obtain ⟨next, place, rest⟩ := exists_open 0 before
  have few := Nat.mod_lt (endQuotes before) (Nat.zero_lt_succ 2)
  rw [Nat.zero_add] at place
  rw [Nat.dvd_iff_mod_eq_zero]
  generalize endQuotes before % 3 = n at place rest few ⊢
  have run : List.replicate n '"' ++ (['"', '"', '"'] ++ s) =
      '"' :: '"' :: '"' :: (List.replicate n '"' ++ s) := by
    match n, few with
    | 0, _ | 1, _ | 2, _ => rfl
  rw [List.append_assoc, rest, run, delimiters_quotes, ← length_delimiters 0]
  rcases Nat.lt_trichotomy number (delimiters 0 before).length with less | rfl | more
  · rw [List.getElem?_append_left less]
    refine iff_of_false (fun found => ?_) (fun same => by omega)
    have := bounds_of_mem_delimiters (List.mem_of_getElem? found)
    omega
  · rw [List.getElem?_append_right (Nat.le_refl _), Nat.sub_self, List.getElem?_cons_zero,
      Option.some.injEq]
    omega
  · refine iff_of_false (fun found => ?_) (fun same => by omega)
    obtain ⟨k, rfl⟩ := Nat.exists_eq_add_of_lt more
    rw [List.getElem?_append_right (by omega), Nat.add_assoc, Nat.add_sub_cancel_left,
      List.getElem?_cons_succ] at found
    have := bounds_of_mem_delimiters (List.mem_of_getElem? found)
    omega

/-- Four quotes in a row: the last three of them are no delimiter. -/
example : delimiters 0 "\"\"\"\"TODO: x\"\"\"".toList = [0, 11] := by decide

/-- The number of triple double quotes in front of an offset of a text. -/
def delimitersBefore (text : List Char) (offset : Nat) : Nat :=
  tripleQuotes ((takeBytes? text offset).getD [])

/-- The number of double quotes directly in front of an offset of a text. -/
def quotesBefore (text : List Char) (offset : Nat) : Nat :=
  endQuotes ((takeBytes? text offset).getD [])

theorem delimitersBefore_of_prefix {before text : List Char} (front : before <+: text) :
    delimitersBefore text (byteLength before) = tripleQuotes before := by
  obtain ⟨rest, rfl⟩ := front
  rw [delimitersBefore, takeBytes?_append, Option.getD_some]

theorem quotesBefore_of_prefix {before text : List Char} (front : before <+: text) :
    quotesBefore text (byteLength before) = endQuotes before := by
  obtain ⟨rest, rfl⟩ := front
  rw [quotesBefore, takeBytes?_append, Option.getD_some]

end Markers.Text
