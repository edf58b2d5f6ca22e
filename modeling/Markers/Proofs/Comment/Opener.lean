import Markers.Family
import Markers.Proofs.Comment.Pieces
import Mathlib.Data.List.Infix

/-!
# Openers

An opener is the lead of its form and a gap. `CommentForm.gap` says which characters a gap may have;
none of them begins a keyword. Two comments of a family, other than items, overlap in one case only
(`hash_of_overlap`): a line comment starts inside the opener of an angle block. Both then have the
same keyword, at the same place (`keyword_of_overlap`).
-/

namespace Markers.CommentForm
open Text

/-- What may stand between the lead of an opener and the keyword. -/
def gap : CommentForm → Char → Bool
  | starBlock, c | quoteBlock, c => isBlank c || c == '*'
  | angleBlock, c => isBlank c || c == '#'
  | markupBlock, c => c == ' ' || c == '\t'
  | line _ _, c | hashColon, c => c == ' '
  | checkbox, _ => false

theorem isAlphanum_of_isInitial {c : Char} (initial : Keyword.isInitial c = true) :
    c.isAlphanum = true := by
  simp only [Keyword.isInitial, Bool.or_eq_true, decide_eq_true_eq] at initial
  obtain (((rfl | rfl) | rfl) | rfl) | rfl := initial <;> rfl

theorem not_isInitial_of_isBlank {c : Char} (blank : isBlank c = true) :
    Keyword.isInitial c = false := by
  apply Bool.eq_false_iff.2
  intro initial
  have word := isAlphanum_of_isInitial initial
  rw [not_isAlphanum_of_isBlank blank] at word
  simp at word

/-- A gap ends before the keyword. -/
theorem not_isInitial_of_gap {form : CommentForm} {c : Char} (h : form.gap c = true) :
    Keyword.isInitial c = false := by
  cases form with
  | starBlock | quoteBlock | angleBlock =>
    rcases Bool.or_eq_true_iff.1 h with blank | other
    · exact not_isInitial_of_isBlank blank
    · rw [eq_of_beq other]
      rfl
  | markupBlock =>
    rcases Bool.or_eq_true_iff.1 h with other | other
    · rw [eq_of_beq other]
      rfl
    · rw [eq_of_beq other]
      rfl
  | line | hashColon =>
    rw [eq_of_beq h]
    rfl
  | checkbox => simp [gap] at h

theorem gap_of_mem_hashSpaces {s : List Char} {c : Char} (mem : c ∈ (hashSpaces s).1) :
    angleBlock.gap c = true := by
  have space : ∀ {c}, (c == ' ') = true → angleBlock.gap c = true := by
    intro c h
    rw [eq_of_beq h]
    rfl
  unfold hashSpaces at mem
  split at mem
  · rcases List.mem_cons.1 mem with rfl | mem
    · rfl
    · exact space (of_mem_run (p := (· == ' ')) mem)
  · exact space (of_mem_run (p := (· == ' ')) mem)

/-- An opener is the lead of its form and a gap. -/
theorem opener?_eq_lead {form : CommentForm} {s : List Char} {q : List Char × List Char}
    (plain : form ≠ checkbox) (h : form.opener? s = some q) :
    ∃ between, q.1 = form.lead ++ between ∧ ∀ c ∈ between, form.gap c = true := by
  cases form with
  | checkbox => contradiction
  | angleBlock =>
    obtain ⟨item, found, rfl⟩ := Option.map_eq_some_iff.1 h
    obtain ⟨blanks, front, all, _⟩ := literalRun?_spec found
    refine ⟨blanks ++ (hashSpaces item.2).1, ?_, ?_⟩
    · show item.1 ++ _ = _
      rw [front, List.append_assoc]
      rfl
    · intro c mem
      rcases List.mem_append.1 mem with mem | mem
      · exact Bool.or_eq_true_iff.2 (.inl (all c mem))
      · exact gap_of_mem_hashSpaces mem
  | starBlock | quoteBlock | markupBlock | line | hashColon =>
    obtain ⟨between, front, all, _⟩ := literalRun?_spec h
    exact ⟨between, front, all⟩

/-- A match of any form but the checkbox is a lead, a gap, and what the keyword is read from. -/
theorem exists_lead {form : CommentForm} {start : Bool} {s : List Char} {shape : Shape}
    (plain : form ≠ checkbox) (h : form.matchAt? start s = some shape) :
    ∃ between rest behind, s = form.lead ++ between ++ rest ∧
      shape.opener = form.lead ++ between ∧ (∀ c ∈ between, form.gap c = true) ∧
      Keyword.read? rest = some (shape.keyword, behind) := by
  obtain ⟨rest, behind, opened, read, _⟩ := matchAt?_eq_some plain h
  obtain ⟨between, front, all⟩ := opener?_eq_lead plain opened
  have split := opener?_eq_append opened
  exact ⟨between, rest, behind, by rw [split, front], front, all, read⟩

/-- A text from which a keyword is read begins with an initial. -/
theorem exists_initial {s : List Char} {q : List Char × List Char} (h : Keyword.read? s = some q) :
    ∃ c rest, s = c :: rest ∧ Keyword.isInitial c = true := by
  obtain ⟨reads, split⟩ := Keyword.read?_spec h
  obtain ⟨c, word, front, initial⟩ := reads.initial
  exact ⟨c, word ++ q.2, by rw [split, front, List.cons_append], initial⟩

/-- Gaps in front of two keywords of one text are the same. -/
theorem gap_unique {a a' s s' : List Char} {q q' : List Char × List Char}
    (same : a ++ s = a' ++ s') (all : ∀ c ∈ a, Keyword.isInitial c = false)
    (all' : ∀ c ∈ a', Keyword.isInitial c = false) (read : Keyword.read? s = some q)
    (read' : Keyword.read? s' = some q') : a = a' ∧ q = q' := by
  have front : ∀ {a s q}, (∀ c ∈ a, Keyword.isInitial c = false) → Keyword.read? s = some q →
      (a ++ s).takeWhile (fun c => !Keyword.isInitial c) = a := by
    intro a s q all read
    obtain ⟨c, rest, rfl, initial⟩ := exists_initial read
    rw [List.takeWhile_append_of_pos (by simpa using all), List.takeWhile_cons,
      if_neg (by simp [initial]), List.append_nil]
  have gaps : a = a' := by rw [← front all read, same, front all' read']
  subst gaps
  have rest : s = s' := List.append_cancel_left same
  subst rest
  exact ⟨rfl, Option.some.inj (read.symm.trans read')⟩

/-! ## Overlaps -/

variable {family : Family} {form form' : CommentForm}

/-- A family with a form that is no checkbox has no checkbox. -/
theorem plain_of_mem (mem : form ∈ family.forms) (mem' : form' ∈ family.forms)
    (plain : form ≠ checkbox) : form' ≠ checkbox := by
  rintro rfl
  cases family with
  | markdown => exact plain (List.mem_singleton.1 mem)
  | _ => simp [Family.forms] at mem'

/-- Only a gap of an angle block can run into another comment, and that is a line comment. -/
theorem forms_of_gap {c : Char} {l : List Char} (mem : form ∈ family.forms)
    (mem' : form' ∈ family.forms) (lead : form'.lead = c :: l) (gap : form.gap c = true) :
    form = angleBlock ∧ form' = line .hash false := by
  have all : ∀ family : Family, ∀ f ∈ family.forms, ∀ f' ∈ family.forms,
      f'.lead.head?.any f.gap = true → f = angleBlock ∧ f' = line .hash false := by
    intro family
    cases family <;> decide
  refine all family form mem form' mem' ?_
  rw [lead]
  exact gap

/-- Inside a lead only the hash of an angle block can begin another comment. -/
theorem forms_of_lead {y a t : List Char} {d : Char} (mem : form ∈ family.forms)
    (mem' : form' ∈ family.forms) (lead : form.lead = y ++ a) (passed : y ≠ []) (inside : a ≠ [])
    (next : form.gap d = true ∨ Keyword.isInitial d = true) (lead' : form'.lead <+: a ++ d :: t) :
    form = angleBlock ∧ form' = line .hash false := by
  have whole : ∀ family : Family, ∀ f ∈ family.forms, ∀ f' ∈ family.forms,
      ∀ a ∈ f.lead.tail.tails, a ≠ [] → f'.lead <+: a → f = angleBlock ∧ f' = line .hash false := by
    intro family
    cases family <;> decide
  have across : ∀ family : Family, ∀ f ∈ family.forms, ∀ f' ∈ family.forms,
      ∀ a ∈ f.lead.tail.tails, a ≠ [] → a <+: f'.lead →
        (f'.lead.drop a.length).head?.any (fun d => f.gap d || Keyword.isInitial d) = false := by
    intro family
    cases family <;> decide
  have suffix : a ∈ form.lead.tail.tails := by
    obtain ⟨c, y, rfl⟩ := List.exists_cons_of_ne_nil passed
    rw [lead, List.mem_tails]
    exact List.suffix_append y a
  rcases List.prefix_or_prefix_of_prefix lead' (List.prefix_append a _) with le | le
  · exact whole family form mem form' mem' a suffix inside le
  · obtain ⟨r, split⟩ := le
    cases r with
    | nil =>
      rw [List.append_nil] at split
      exact whole family form mem form' mem' a suffix inside (split ▸ List.prefix_refl _)
    | cons e r =>
      rw [← split, List.prefix_append_right_inj] at lead'
      obtain ⟨u, same⟩ := lead'
      obtain ⟨rfl, _⟩ := List.cons.inj same
      have none := across family form mem form' mem' a suffix inside ⟨_, split⟩
      rw [← split, List.drop_left] at none
      exact absurd (Bool.or_eq_true_iff.2 next) (Bool.eq_false_iff.1 none)

/-- A lead has a first character, which is no letter or digit. -/
theorem exists_lead_head (plain : form ≠ checkbox) :
    ∃ c l, form.lead = c :: l ∧ c.isAlphanum = false := by
  cases form with
  | checkbox => contradiction
  | line opener _ => cases opener <;> exact ⟨_, _, rfl, by decide⟩
  | _ => exact ⟨_, _, rfl, by decide⟩

/-- In front of a keyword stands a gap or the keyword begins. -/
theorem exists_next {between keyword : List Char} (gaps : ∀ c ∈ between, form.gap c = true)
    (reads : Keyword.Reads keyword) :
    ∃ d t, between ++ keyword = d :: t ∧ (form.gap d = true ∨ Keyword.isInitial d = true) := by
  cases between with
  | nil =>
    obtain ⟨d, t, rfl, initial⟩ := reads.initial
    exact ⟨d, t, rfl, .inr initial⟩
  | cons d between => exact ⟨d, between ++ keyword, rfl, .inl (gaps d (List.mem_cons_self ..))⟩

/-- A comment that starts in the gap of another one starts at a hash in an angle block. -/
theorem hash_of_gap {a z between keyword : List Char} (mem : form ∈ family.forms)
    (mem' : form' ∈ family.forms) (plain : form' ≠ checkbox) (reads : Keyword.Reads keyword)
    (gaps : ∀ c ∈ between, form.gap c = true) (split : between ++ keyword = a ++ z)
    (some : z ≠ []) {rest : List Char} (leads : form'.lead <+: z ++ rest) :
    form = angleBlock ∧ form' = line .hash false ∧ ∃ w, between = a ++ '#' :: w := by
  obtain ⟨c, l, lead, symbol⟩ := exists_lead_head plain
  obtain ⟨d, z, rfl⟩ := List.exists_cons_of_ne_nil some
  rw [lead, List.cons_append, List.cons_prefix_cons] at leads
  obtain ⟨rfl, _⟩ := leads
  have notKeyword : c ∉ keyword := by
    intro within
    rw [reads.word c within] at symbol
    simp at symbol
  rcases List.append_eq_append_iff.1 split with ⟨b, rfl, front⟩ | ⟨b, rfl, front⟩
  · rw [front] at notKeyword
    simp at notKeyword
  · cases b with
    | nil =>
      rw [List.nil_append] at front
      rw [← front] at notKeyword
      simp at notKeyword
    | cons e b =>
      obtain ⟨rfl, _⟩ := List.cons.inj front
      obtain ⟨rfl, rfl⟩ := forms_of_gap mem mem' lead (gaps c (by simp))
      obtain ⟨rfl, _⟩ := List.cons.inj lead
      exact ⟨rfl, rfl, b, rfl⟩

/-- A comment that starts behind the start of another one and before the end of its keyword starts
at a hash in the opener of an angle block. -/
theorem hash_of_overlap {start start' : Bool} {y s : List Char} {shape shape' : Shape}
    (mem : form ∈ family.forms) (mem' : form' ∈ family.forms) (plain : form ≠ checkbox)
    (found : form.matchAt? start (y ++ s) = some shape)
    (found' : form'.matchAt? start' s = some shape') (passed : y ≠ [])
    (inside : byteLength y < byteLength (shape.opener ++ shape.keyword)) :
    form = angleBlock ∧ form' = line .hash false ∧ ∃ w rest behind,
      shape.opener = y ++ '#' :: w ∧ (∀ c ∈ w, form.gap c = true) ∧ s = '#' :: w ++ rest ∧
        Keyword.read? rest = some (shape.keyword, behind) := by
  obtain ⟨between, rest, behind, split, opener, gaps, read⟩ := exists_lead plain found
  obtain ⟨reads, rfl⟩ := Keyword.read?_spec read
  have plain' := plain_of_mem mem mem' plain
  have leads' := lead_prefix_of_matchAt? found'
  rw [opener] at inside ⊢
  have split : y ++ s = (form.lead ++ between ++ shape.keyword) ++ behind := by simpa using split
  obtain ⟨z, whole, rfl⟩ := append_of_le split (Nat.le_of_lt inside)
  have some : z ≠ [] := by
    rintro rfl
    rw [whole, List.append_nil] at inside
    exact Nat.lt_irrefl _ inside
  rw [List.append_assoc] at whole
  -- `y` ends in the lead, or behind it
  rcases List.append_eq_append_iff.1 whole with ⟨a, rfl, inGap⟩ | ⟨a, lead, rfl⟩
  · obtain ⟨rfl, rfl, w, rfl⟩ := hash_of_gap mem mem' plain' reads gaps inGap some leads'
    refine ⟨rfl, rfl, w, _, behind, by simp, fun c within => gaps c (by simp [within]), ?_, read⟩
    simp only [List.append_assoc, List.append_cancel_left_eq] at inGap
    rw [← inGap]
    simp
  · by_cases atGap : a = []
    · subst atGap
      obtain ⟨rfl, rfl, w, rfl⟩ := hash_of_gap mem mem' plain' reads gaps
        (a := []) (z := between ++ shape.keyword) rfl (by simpa using some) (by simpa using leads')
      exact ⟨rfl, rfl, w, _, behind, by simp [lead], fun c within => gaps c (by simp [within]),
        by simp, read⟩
    · obtain ⟨d, t, next, one⟩ := exists_next gaps reads
      rw [next] at leads'
      obtain ⟨rfl, rfl⟩ := forms_of_lead (t := t ++ behind) mem mem' lead passed atGap one
        (by simpa using leads')
      have hash : y = ['<'] ∧ a = ['#'] := by
        match y, a, lead with
        | [_], [_], lead => simpa [CommentForm.lead, eq_comm] using lead
        | [], _, _ => contradiction
        | _, [], _ => contradiction
        | _ :: _ :: _, _ :: _, lead => simp [CommentForm.lead] at lead
        | [_], _ :: _ :: _, lead => simp [CommentForm.lead] at lead
      obtain ⟨rfl, rfl⟩ := hash
      exact ⟨rfl, rfl, between, _, behind, by simp [lead], gaps, by simp, read⟩

/-- Two overlapping comments of a family have one keyword: the second one starts in the opener of
an angle block. -/
theorem keyword_of_overlap {start start' : Bool} {y s : List Char} {shape shape' : Shape}
    (mem : form ∈ family.forms) (mem' : form' ∈ family.forms) (plain : form ≠ checkbox)
    (found : form.matchAt? start (y ++ s) = some shape)
    (found' : form'.matchAt? start' s = some shape') (passed : y ≠ [])
    (inside : byteLength y < byteLength (shape.opener ++ shape.keyword)) :
    form = angleBlock ∧ shape.opener = y ++ shape'.opener ∧ shape.keyword = shape'.keyword := by
  obtain ⟨rfl, rfl, w, rest, behind, opener, gaps, split, read⟩ :=
    hash_of_overlap mem mem' plain found found' passed inside
  obtain ⟨between, rest', behind', split', opener', gaps', read'⟩ := exists_lead (by simp) found'
  have same : w ++ rest = between ++ rest' := by
    rw [split] at split'
    exact (List.cons.inj split').2
  obtain ⟨rfl, keyword⟩ := gap_unique same (fun c within => not_isInitial_of_gap (gaps c within))
    (fun c within => not_isInitial_of_gap (gaps' c within)) read read'
  refine ⟨rfl, ?_, (Prod.mk.inj keyword).1⟩
  rw [opener, opener']
  rfl

end Markers.CommentForm
