import Markers.Proofs.Comment.Pieces
import Markers.Scan

/-!
# Searching for a match

`CommentForm.Matches` says that a form has a match at an offset of a text: what the match is made
of depends on the text and the offset alone. A search from a cursor finds the least offset at or
behind it where the form matches (`searchFrom_eq_some_iff`), or there is none
(`searchFrom_eq_none_iff`). Two forms of a family never match at one offset (`form_unique`), and
`nextMatch` finds the leftmost match of a family, the earlier form first (`nextMatch_eq_some_iff`).
-/

namespace Markers
open Text

/-- Whether a line starts behind some characters. -/
def lineStart (before : List Char) : Bool :=
  before.getLast?.getD '\n' == '\n'

/-- The form has this match in a text. -/
def CommentForm.Matches (form : CommentForm) (text : List Char) (m : Match) : Prop :=
  ∃ before rest, text = before ++ rest ∧ byteLength before = m.start ∧
    form.matchAt? (lineStart before) rest = some m.shape

namespace CommentForm.Matches
variable {form : CommentForm} {text : List Char} {m m' : Match}

/-- A match at a cut is what the form reads there. -/
theorem matchAt?_eq {before rest : List Char} (h : form.Matches (before ++ rest) m)
    (here : byteLength before = m.start) :
    form.matchAt? (lineStart before) rest = some m.shape := by
  obtain ⟨before', rest', split, length, found⟩ := h
  obtain ⟨rfl, rfl⟩ := append_inj_of_byteLength split (here.trans length.symm)
  exact found

/-- A form has one match at an offset. -/
theorem unique (h : form.Matches text m) (h' : form.Matches text m')
    (same : m.start = m'.start) : m = m' := by
  obtain ⟨before, rest, rfl, length, found⟩ := h
  have found' := h'.matchAt?_eq (length.trans same)
  obtain ⟨start, shape⟩ := m
  obtain ⟨start', shape'⟩ := m'
  cases found.symm.trans found'
  cases same
  rfl

/-- The pieces of a match at its place in the text. -/
theorem pieces (h : form.Matches text m) :
    ∃ before rest, byteLength before = m.start ∧
      text = before ++ m.shape.opener ++ m.shape.keyword ++ m.shape.body.chars ++ rest := by
  obtain ⟨before, _, split, length, found⟩ := h
  obtain ⟨rest, leads⟩ := (pieces_of_matchAt? found).leads
  refine ⟨before, rest, length, ?_⟩
  rw [split, leads]
  simp

/-- A match starts inside the text. -/
theorem start_lt (h : form.Matches text m) : m.start < byteLength text := by
  obtain ⟨before, rest, length, rfl⟩ := h.pieces
  have opener := byteLength_pos m.shape.opener_ne_nil
  simp only [byteLength_append]
  omega

end CommentForm.Matches

namespace Scan

/-! ## One form -/

/-- A match behind a character is behind all of it. -/
theorem le_start_of_lt {form : CommentForm} {passed rest : List Char} {c : Char} {m : Match}
    (h : form.Matches (passed ++ c :: rest) m) (behind : byteLength passed < m.start) :
    byteLength (passed ++ [c]) ≤ m.start := by
  obtain ⟨before, _, split, length, _⟩ := h
  obtain ⟨x, rfl, same⟩ := append_of_le split (by omega)
  cases x with
  | nil =>
    rw [List.append_nil] at length
    omega
  | cons d x =>
    obtain ⟨rfl, _⟩ := List.cons.inj same
    rw [← length]
    simp only [byteLength_append, byteLength_cons, byteLength_nil]
    omega

theorem search_cons (form : CommentForm) (cursor : Nat) (passed rest : List Char) (c : Char) :
    search form cursor passed.getLast? (byteLength passed) (c :: rest) =
      if byteLength passed < cursor then
        search form cursor (passed ++ [c]).getLast? (byteLength (passed ++ [c])) rest
      else
        match form.matchAt? (lineStart passed) (c :: rest) with
        | some shape => some ⟨byteLength passed, shape⟩
        | none =>
          search form cursor (passed ++ [c]).getLast? (byteLength (passed ++ [c])) rest := by
  rw [search, List.getLast?_concat, byteLength_append]
  rfl

/-- A search that has passed some characters finds a match behind them, and none before it. -/
theorem search_eq_some {form : CommentForm} {cursor : Nat} {passed rest : List Char} {m : Match}
    (h : search form cursor passed.getLast? (byteLength passed) rest = some m) :
    form.Matches (passed ++ rest) m ∧
      ∀ m', form.Matches (passed ++ rest) m' → byteLength passed ≤ m'.start → cursor ≤ m'.start →
        m.start ≤ m'.start := by
  induction rest generalizing passed with
  | nil => simp [search] at h
  | cons c rest ih =>
    rw [search_cons] at h
    have text : passed ++ c :: rest = passed ++ [c] ++ rest := by simp
    split at h
    · obtain ⟨found, least⟩ := ih h
      rw [← text] at found least
      refine ⟨found, fun m' h' inside ahead => least m' h' ?_ ahead⟩
      exact le_start_of_lt h' (by omega)
    · split at h
      · next shape matched =>
        cases h
        exact ⟨⟨passed, c :: rest, rfl, rfl, matched⟩, fun _ _ inside _ => inside⟩
      · next unmatched =>
        obtain ⟨found, least⟩ := ih h
        rw [← text] at found least
        refine ⟨found, fun m' h' inside ahead => least m' h' ?_ ahead⟩
        refine le_start_of_lt h' (Nat.lt_of_le_of_ne inside fun same => ?_)
        rw [h'.matchAt?_eq same] at unmatched
        simp at unmatched

theorem search_eq_none {form : CommentForm} {cursor : Nat} {passed rest : List Char}
    (h : search form cursor passed.getLast? (byteLength passed) rest = none) :
    ∀ m, form.Matches (passed ++ rest) m → byteLength passed ≤ m.start → m.start < cursor := by
  induction rest generalizing passed with
  | nil =>
    intro m h' inside
    have inside' := h'.start_lt
    rw [List.append_nil] at inside'
    omega
  | cons c rest ih =>
    intro m h' inside
    have text : passed ++ c :: rest = passed ++ [c] ++ rest := by simp
    rw [search_cons] at h
    split at h
    · next early =>
      by_cases here : byteLength passed = m.start
      · omega
      · exact ih h m (text ▸ h') (le_start_of_lt h' (by omega))
    · split at h
      · simp at h
      · next unmatched =>
        refine ih h m (text ▸ h') (le_start_of_lt h' (Nat.lt_of_le_of_ne inside fun same => ?_))
        rw [h'.matchAt?_eq same] at unmatched
        simp at unmatched

theorem searchFrom_eq_search (form : CommentForm) (text : List Char) (cursor : Nat) :
    searchFrom form text cursor =
      search form cursor ([] : List Char).getLast? (byteLength []) text := rfl

/-- A search finds the least offset at or behind the cursor at which the form matches. -/
theorem searchFrom_eq_some_iff {form : CommentForm} {text : List Char} {cursor : Nat} {m : Match} :
    searchFrom form text cursor = some m ↔ form.Matches text m ∧ cursor ≤ m.start ∧
      ∀ m', form.Matches text m' → cursor ≤ m'.start → m.start ≤ m'.start := by
  constructor
  · intro h
    have bounds := search_bounds text h
    rw [searchFrom_eq_search] at h
    obtain ⟨found, least⟩ := search_eq_some h
    exact ⟨found, bounds.1, fun m' h' ahead => least m' h' (Nat.zero_le _) ahead⟩
  · rintro ⟨found, ahead, least⟩
    cases h : searchFrom form text cursor with
    | none =>
      rw [searchFrom_eq_search] at h
      have := search_eq_none h m found (Nat.zero_le _)
      omega
    | some m' =>
      have bounds := search_bounds text h
      rw [searchFrom_eq_search] at h
      obtain ⟨found', least'⟩ := search_eq_some h
      have le := least m' found' bounds.1
      have ge := least' m found (Nat.zero_le _) ahead
      rw [found'.unique found (Nat.le_antisymm ge le)]

/-- A search finds nothing exactly when all matches start before the cursor. -/
theorem searchFrom_eq_none_iff {form : CommentForm} {text : List Char} {cursor : Nat} :
    searchFrom form text cursor = none ↔ ∀ m, form.Matches text m → m.start < cursor := by
  constructor
  · intro h m found
    rw [searchFrom_eq_search] at h
    exact search_eq_none h m found (Nat.zero_le _)
  · intro early
    cases h : searchFrom form text cursor with
    | none => rfl
    | some m =>
      obtain ⟨found, ahead, _⟩ := searchFrom_eq_some_iff.1 h
      have := early m found
      omega

/-! ## The forms of a family -/

/-- Two forms of a family never match at one offset: their comments start differently. -/
theorem form_unique {family : Family} {form form' : CommentForm} {text : List Char} {m m' : Match}
    (mem : form ∈ family.forms) (mem' : form' ∈ family.forms) (h : form.Matches text m)
    (h' : form'.Matches text m') (same : m.start = m'.start) : form = form' := by
  obtain ⟨before, rest, rfl, length, found⟩ := h
  have lead := CommentForm.lead_prefix_of_matchAt? found
  have lead' := CommentForm.lead_prefix_of_matchAt? (h'.matchAt?_eq (length.trans same))
  have apart : ∀ family : Family, ∀ f ∈ family.forms, ∀ f' ∈ family.forms,
      f.lead <+: f'.lead → f = f' := by
    intro family
    cases family <;> decide
  rcases List.prefix_or_prefix_of_prefix lead lead' with le | le
  · exact apart family form mem form' mem' le
  · exact (apart family form' mem' form mem le).symm

/-- The match that a scanner takes next: of all matches at or behind the cursor the leftmost, of
several at one offset that of the earliest form. -/
structure Leftmost (family : Family) (text : List Char) (cursor : Nat) (c : Candidate) : Prop where
  found : c.form.Matches text c.place
  ahead : cursor ≤ c.place.start
  order : ∃ earlier later, family.forms = earlier ++ c.form :: later ∧
    (∀ form ∈ earlier, ∀ m, form.Matches text m → cursor ≤ m.start → c.place.start < m.start) ∧
    ∀ form ∈ c.form :: later, ∀ m, form.Matches text m → cursor ≤ m.start →
      c.place.start ≤ m.start

namespace Leftmost
variable {family : Family} {text : List Char} {cursor : Nat} {c c' : Candidate}

theorem form_mem (h : Leftmost family text cursor c) : c.form ∈ family.forms := by
  obtain ⟨earlier, later, forms, _⟩ := h.order
  simp [forms]

theorem least (h : Leftmost family text cursor c) {form : CommentForm} {m : Match}
    (mem : form ∈ family.forms) (found : form.Matches text m) (ahead : cursor ≤ m.start) :
    c.place.start ≤ m.start := by
  obtain ⟨earlier, later, forms, before, behind⟩ := h.order
  rw [forms] at mem
  rcases List.mem_append.1 mem with mem | mem
  · exact Nat.le_of_lt (before form mem m found ahead)
  · exact behind form mem m found ahead

theorem unique (h : Leftmost family text cursor c) (h' : Leftmost family text cursor c') :
    c = c' := by
  have same : c.place.start = c'.place.start :=
    Nat.le_antisymm (h.least h'.form_mem h'.found h'.ahead) (h'.least h.form_mem h.found h.ahead)
  have form := form_unique h.form_mem h'.form_mem h.found h'.found same
  obtain ⟨form₁, m⟩ := c
  obtain ⟨form₂, m'⟩ := c'
  cases form
  cases h.found.unique h'.found same
  rfl

end Leftmost

namespace Candidate

theorem leftmost_eq_none {a b : Option Candidate} (h : leftmost a b = none) :
    a = none ∧ b = none := by
  cases a with
  | none => exact ⟨rfl, h⟩
  | some a =>
    cases b with
    | none => simp [leftmost] at h
    | some b =>
      rw [leftmost] at h
      split at h <;> simp at h

theorem foldl_leftmost_eq_none {found : List (Option Candidate)} {best : Option Candidate}
    (h : found.foldl leftmost best = none) : best = none ∧ ∀ a ∈ found, a = none := by
  induction found generalizing best with
  | nil => exact ⟨h, by simp⟩
  | cons a found ih =>
    obtain ⟨first, rest⟩ := ih h
    obtain ⟨rfl, rfl⟩ := leftmost_eq_none first
    exact ⟨rfl, List.forall_mem_cons.2 ⟨rfl, rest⟩⟩

/-- The one further to the left is not behind either. -/
theorem exists_leftmost {a b : Option Candidate} {d : Candidate} (mem : a = some d ∨ b = some d) :
    ∃ c, leftmost a b = some c ∧ c.place.start ≤ d.place.start := by
  rcases mem with rfl | rfl
  · cases b with
    | none => exact ⟨d, rfl, Nat.le_refl _⟩
    | some b =>
      rw [leftmost]
      split
      · next less => exact ⟨b, rfl, Nat.le_of_lt less⟩
      · exact ⟨d, rfl, Nat.le_refl _⟩
  · cases a with
    | none => exact ⟨d, rfl, Nat.le_refl _⟩
    | some a =>
      rw [leftmost]
      split
      · exact ⟨d, rfl, Nat.le_refl _⟩
      · next le => exact ⟨a, rfl, Nat.le_of_not_lt le⟩

/-- A candidate that comes before all earlier ones and not behind a later one. -/
def IsFirst (c : Candidate) (all : List (Option Candidate)) : Prop :=
  ∃ earlier later, all = earlier ++ some c :: later ∧
    (∀ a, some a ∈ earlier → c.place.start < a.place.start) ∧
    ∀ a, some a ∈ later → c.place.start ≤ a.place.start

theorem isFirst_of_leftmost {a b : Option Candidate} {c : Candidate}
    {found : List (Option Candidate)} (h : IsFirst c (leftmost a b :: found)) :
    IsFirst c (a :: b :: found) := by
  obtain ⟨earlier, later, split, before, behind⟩ := h
  cases earlier with
  | nil =>
    obtain ⟨first, rfl⟩ := List.cons.inj split
    cases a with
    | none => exact ⟨[none], found, by rw [show b = some c from first]; rfl, by simp, behind⟩
    | some a =>
      cases b with
      | none =>
        cases first
        exact ⟨[], none :: found, rfl, by simp, by simpa using behind⟩
      | some b =>
        rw [leftmost] at first
        split at first
        · next less =>
          cases first
          exact ⟨[some a], found, rfl, by simpa using less, behind⟩
        · next le =>
          cases first
          refine ⟨[], some b :: found, rfl, by simp, ?_⟩
          intro d mem
          rcases List.mem_cons.1 mem with same | mem
          · cases same
            omega
          · exact behind d mem
  | cons e earlier =>
    obtain ⟨rfl, rfl⟩ := List.cons.inj split
    refine ⟨a :: b :: earlier, later, rfl, fun d mem => ?_, behind⟩
    have first : a = some d ∨ b = some d → c.place.start < d.place.start := by
      intro mem
      obtain ⟨x, left, le⟩ := exists_leftmost mem
      exact Nat.lt_of_lt_of_le (before x (left ▸ List.mem_cons_self ..)) le
    rcases List.mem_cons.1 mem with same | mem
    · exact first (.inl same.symm)
    · rcases List.mem_cons.1 mem with same | mem
      · exact first (.inr same.symm)
      · exact before d (List.mem_cons_of_mem _ mem)

/-- Folding keeps the first candidate of those furthest to the left. -/
theorem isFirst_of_foldl {found : List (Option Candidate)} {best : Option Candidate}
    {c : Candidate} (h : found.foldl leftmost best = some c) : IsFirst c (best :: found) := by
  induction found generalizing best with
  | nil => exact ⟨[], [], by rw [show best = some c from h]; rfl, by simp, by simp⟩
  | cons a found ih => exact isFirst_of_leftmost (ih h)

end Candidate

/-- A form with a match at or behind the cursor has a first one. -/
theorem exists_searchFrom {form : CommentForm} {text : List Char} {cursor : Nat} {m : Match}
    (found : form.Matches text m) (ahead : cursor ≤ m.start) :
    ∃ first, searchFrom form text cursor = some first ∧ first.start ≤ m.start := by
  cases h : searchFrom form text cursor with
  | none =>
    have early := searchFrom_eq_none_iff.1 h m found
    omega
  | some first => exact ⟨first, rfl, (searchFrom_eq_some_iff.1 h).2.2 m found ahead⟩

/-- The next match is the leftmost one. -/
theorem leftmost_of_nextMatch {family : Family} {text : List Char} {cursor : Nat} {c : Candidate}
    (h : nextMatch family text cursor = some c) : Leftmost family text cursor c := by
  obtain ⟨earlier, later, split, before, behind⟩ := Candidate.isFirst_of_foldl h
  cases earlier with
  | nil => simp at split
  | cons _ earlier =>
    rw [List.cons_append, List.cons.injEq] at split
    obtain ⟨rfl, split⟩ := split
    obtain ⟨forms, others, all, rfl, others_split⟩ := List.map_eq_append_iff.1 split
    obtain ⟨form, others, rfl, mapped, rfl⟩ := List.map_eq_cons_iff.1 others_split
    obtain ⟨m, searched, rfl⟩ := Option.map_eq_some_iff.1 mapped
    obtain ⟨found, ahead, least⟩ := searchFrom_eq_some_iff.1 searched
    -- what another form finds first is one of the candidates
    have candidate : ∀ form : CommentForm, ∀ m', form.Matches text m' → cursor ≤ m'.start →
        ∃ first : Candidate, first.place.start ≤ m'.start ∧
          (searchFrom form text cursor).map (Candidate.mk form) = some first := by
      intro form m' found ahead
      obtain ⟨first, search, le⟩ := exists_searchFrom found ahead
      exact ⟨⟨form, first⟩, le, by rw [search]; rfl⟩
    refine ⟨found, ahead, forms, others, all, ?_, ?_⟩
    · intro form' mem m' found' ahead'
      obtain ⟨first, le, search⟩ := candidate form' m' found' ahead'
      have less := before first (List.mem_cons_of_mem _ (List.mem_map.2 ⟨form', mem, search⟩))
      exact Nat.lt_of_lt_of_le less le
    · intro form' mem m' found' ahead'
      rcases List.mem_cons.1 mem with rfl | mem
      · exact least m' found' ahead'
      · obtain ⟨first, le, search⟩ := candidate form' m' found' ahead'
        have behind := behind first (List.mem_map.2 ⟨form', mem, search⟩)
        exact Nat.le_trans behind le

/-- There is no next match exactly when all matches start before the cursor. -/
theorem nextMatch_eq_none_iff {family : Family} {text : List Char} {cursor : Nat} :
    nextMatch family text cursor = none ↔
      ∀ form ∈ family.forms, ∀ m, form.Matches text m → m.start < cursor := by
  constructor
  · intro h form mem
    have all := (Candidate.foldl_leftmost_eq_none h).2
    have search := all _ (List.mem_map.2 ⟨form, mem, rfl⟩)
    exact searchFrom_eq_none_iff.1 (Option.map_eq_none_iff.1 search)
  · intro early
    cases next : nextMatch family text cursor with
    | none => rfl
    | some c =>
      have left := leftmost_of_nextMatch next
      have before := early c.form left.form_mem c.place left.found
      have ahead := left.ahead
      omega

/-- The next match is some match exactly when that is the leftmost one. -/
theorem nextMatch_eq_some_iff {family : Family} {text : List Char} {cursor : Nat} {c : Candidate} :
    nextMatch family text cursor = some c ↔ Leftmost family text cursor c := by
  constructor
  · intro h
    exact leftmost_of_nextMatch h
  · intro h
    cases next : nextMatch family text cursor with
    | none =>
      have early := nextMatch_eq_none_iff.1 next c.form h.form_mem c.place h.found
      have ahead := h.ahead
      omega
    | some c' => rw [h.unique (leftmost_of_nextMatch next)]

end Scan
end Markers
