import Markers.Keyword
import Markers.Kind
import Mathlib.Data.List.TakeWhile

/-!
# Keywords and kinds

A keyword that `Keyword.read?` or `Keyword.readings` finds at the start of a text is the token of a
kind, begins with a letter of the vocabulary and goes on with ASCII letters and digits
(`Keyword.Reads`). `Kind.token_of_ofToken?` says that a kind's token is the text it was read from,
and `Kind.render_inj` that no two kinds have one token.
-/

namespace Markers

namespace NetDigits

theorem digitChar_of_digitOf? {c : Char} {d : Fin 10} (h : digitOf? c = some d) :
    digitChar d = c := by
  unfold digitOf? at h
  split at h
  · next digit =>
    cases h
    have low : 48 ≤ c.toNat := by
      simp only [Char.isDigit, Bool.and_eq_true, decide_eq_true_eq] at digit
      exact digit.1
    have high : c.toNat ≤ 57 := by
      simp only [Char.isDigit, Bool.and_eq_true, decide_eq_true_eq] at digit
      exact digit.2
    have zero : '0'.toNat = 48 := rfl
    have value : '0'.toNat + (Fin.ofNat 10 (c.toNat - '0'.toNat)).val = c.toNat := by
      rw [zero, Fin.val_ofNat]
      omega
    rw [digitChar, value, Char.ofNat_toNat]
  · simp at h

theorem digitOf?_isSome {c : Char} (digit : c.isDigit = true) : ∃ d, digitOf? c = some d :=
  ⟨_, if_pos digit⟩

theorem token_of_ofToken? {s : List Char} {digits : NetDigits} (h : ofToken? s = some digits) :
    digits.token = s := by
  match s, h with
  | [], h =>
    cases h
    rfl
  | [c], h =>
    obtain ⟨d, read, rfl⟩ := Option.map_eq_some_iff.1 h
    simp [token, toList, digitChar_of_digitOf? read]
  | [c, c'], h =>
    obtain ⟨d, read, h⟩ := Option.bind_eq_some_iff.1 h
    obtain ⟨e, read', rfl⟩ := Option.map_eq_some_iff.1 h
    simp [token, toList, digitChar_of_digitOf? read, digitChar_of_digitOf? read']
  | _ :: _ :: _ :: _, h => simp [ofToken?] at h

theorem digitOf?_digitChar : ∀ d : Fin 10, digitOf? (digitChar d) = some d := by
  decide

theorem ofToken?_token (digits : NetDigits) : ofToken? digits.token = some digits := by
  cases digits with
  | none => rfl
  | one d =>
    show (digitOf? (digitChar d)).map one = _
    rw [digitOf?_digitChar, Option.map_some]
  | two d e =>
    show (digitOf? (digitChar d)).bind (fun a => (digitOf? (digitChar e)).map (two a)) = _
    rw [digitOf?_digitChar, digitOf?_digitChar, Option.bind_some, Option.map_some]

theorem exists_of_digits {s : List Char} (short : s.length ≤ 2)
    (digits : ∀ c ∈ s, c.isDigit = true) : ∃ n, ofToken? s = some n := by
  match s, short, digits with
  | [], _, _ => exact ⟨_, rfl⟩
  | [c], _, digits =>
    obtain ⟨d, read⟩ := digitOf?_isSome (digits c (by simp))
    exact ⟨_, by rw [ofToken?, read]; rfl⟩
  | [c, c'], _, digits =>
    obtain ⟨d, read⟩ := digitOf?_isSome (digits c (by simp))
    obtain ⟨e, read'⟩ := digitOf?_isSome (digits c' (by simp))
    exact ⟨_, by rw [ofToken?, read, read']; rfl⟩

theorem isDigit_digitChar : ∀ d : Fin 10, (digitChar d).isDigit = true := by
  decide

/-- The digits are at most two ASCII digits. -/
theorem token_spec (digits : NetDigits) :
    digits.token.length ≤ 2 ∧ ∀ c ∈ digits.token, c.isDigit = true := by
  constructor
  · cases digits <;> simp [token, toList]
  · intro c mem
    obtain ⟨d, _, rfl⟩ := List.mem_map.1 mem
    exact isDigit_digitChar d

theorem length_token (digits : NetDigits) : digits.token.length = digits.toList.length :=
  List.length_map ..

end NetDigits

namespace Kind

/-- A kind is written as it was read. -/
theorem token_of_ofToken? {s : List Char} {kind : Kind} (h : ofToken? s = some kind) :
    kind.token = s := by
  unfold ofToken? at h
  split at h
  case h_6 digits =>
    obtain ⟨n, read, rfl⟩ := Option.map_eq_some_iff.1 h
    exact congrArg ('N' :: 'E' :: 'T' :: ·) (NetDigits.token_of_ofToken? read)
  case h_7 => simp at h
  all_goals
    cases h
    rfl

/-- A kind is read from what it is written as. -/
theorem ofToken?_token (kind : Kind) : ofToken? kind.token = some kind := by
  cases kind with
  | net digits =>
    show (NetDigits.ofToken? digits.token).map net = _
    rw [NetDigits.ofToken?_token, Option.map_some]
  | _ => rfl

/-- A kind is written in letters and digits. -/
theorem isAlphanum_of_mem_token {kind : Kind} {c : Char} (mem : c ∈ kind.token) :
    c.isAlphanum = true := by
  cases kind with
  | net digits =>
    have word : ∀ d ∈ ['N', 'E', 'T'], d.isAlphanum = true := List.all_eq_true.1 (by decide)
    rcases List.mem_append.1 (show c ∈ ['N', 'E', 'T'] ++ digits.token from mem) with mem | mem
    · exact word c mem
    · rw [Char.isAlphanum, digits.token_spec.2 c mem, Bool.or_true]
  | _ => exact List.all_eq_true.1 (by decide) c mem

/-- Two kinds are never written alike. -/
theorem render_inj {kind kind' : Kind} : kind.render = kind'.render ↔ kind = kind' := by
  constructor
  · intro same
    have tokens : kind.token = kind'.token := String.ofList_injective same
    have read := ofToken?_token kind
    rw [tokens, ofToken?_token kind'] at read
    exact (Option.some.inj read).symm
  · intro same
    rw [same]

theorem eq_of_rank_of_digits {kind kind' : Kind} (rank : kind.rank = kind'.rank)
    (digits : kind.digits = kind'.digits) : kind = kind' := by
  cases kind with
  | net d =>
    cases kind' with
    | net d' =>
      have same : d.toList = d'.toList := (List.map_inj_right fun _ _ => Fin.ext).1 digits
      cases d <;> cases d' <;> simp_all [NetDigits.toList]
    | _ => simp [Kind.rank] at rank
  | _ => cases kind' <;> simp [Kind.rank] at rank ⊢

/-- Kinds that compare equal are equal. -/
instance : Std.LawfulEqOrd Kind where
  eq_of_compare {kind kind'} same := by
    obtain ⟨rank, digits⟩ := compareLex_eq_eq.1 same
    exact eq_of_rank_of_digits (Std.LawfulEqOrd.eq_of_compare rank)
      (Std.LawfulEqOrd.eq_of_compare digits)

end Kind

namespace Keyword

/-- A letter that some keyword begins with. -/
def isInitial (c : Char) : Bool :=
  c = 'T' || c = 'N' || c = 'B' || c = 'K' || c = 'U'

/-- What every keyword is: an initial with ASCII letters and digits behind it, naming a kind. -/
structure Reads (keyword : List Char) : Prop where
  named : ∃ kind, Kind.ofToken? keyword = some kind
  initial : ∃ c s, keyword = c :: s ∧ isInitial c = true
  word : ∀ c ∈ keyword, c.isAlphanum = true

theorem netDigits_leads (s : List Char) : netDigits s <+: s :=
  (List.takeWhile_prefix _).trans (List.take_prefix 2 s)

theorem length_netDigits_le (s : List Char) : (netDigits s).length ≤ 2 :=
  Nat.le_trans (List.takeWhile_prefix Char.isDigit).length_le (List.length_take_le 2 s)

theorem isDigit_of_mem_netDigits {s : List Char} {c : Char} (mem : c ∈ netDigits s) :
    c.isDigit = true :=
  List.mem_takeWhile_imp mem

/-- Up to two digits behind `NET`. -/
theorem reads_net {digits : List Char} (short : digits.length ≤ 2)
    (all : ∀ c ∈ digits, c.isDigit = true) : Reads ('N' :: 'E' :: 'T' :: digits) where
  named := by
    obtain ⟨n, read⟩ := NetDigits.exists_of_digits short all
    exact ⟨.net n, by simp [Kind.ofToken?, read]⟩
  initial := ⟨_, _, rfl, rfl⟩
  word := by
    simp only [List.forall_mem_cons]
    refine ⟨rfl, rfl, rfl, ?_⟩
    intro c mem
    simp [Char.isAlphanum, all c mem]

/-- Tokens are keywords. -/
theorem reads_token (kind : Kind) : Reads kind.token where
  named := ⟨kind, Kind.ofToken?_token kind⟩
  initial := by cases kind <;> exact ⟨_, _, rfl, rfl⟩
  word _ := Kind.isAlphanum_of_mem_token

/-- What is read is the token of a kind that has no digits, or `NET` with the digits behind it. -/
theorem read?_cases {s keyword rest : List Char} (h : read? s = some (keyword, rest)) :
    (∃ kind, Kind.ofToken? keyword = some kind ∧ (∀ digits, kind ≠ .net digits) ∧
      s = keyword ++ rest) ∨
    ∃ t, s = 'N' :: 'E' :: 'T' :: t ∧ keyword = 'N' :: 'E' :: 'T' :: netDigits t ∧
      rest = t.drop (netDigits t).length := by
  unfold read? at h
  split at h
  case h_6 t =>
    cases h
    exact .inr ⟨t, rfl, rfl, rfl⟩
  case h_7 => cases h
  all_goals
    cases h
    exact .inl ⟨_, rfl, nofun, rfl⟩

/-- What is read is a keyword, and the text is the keyword and what follows it. -/
theorem read?_spec {s keyword rest : List Char} (h : read? s = some (keyword, rest)) :
    Reads keyword ∧ s = keyword ++ rest := by
  obtain ⟨kind, named, _, split⟩ | ⟨t, rfl, rfl, rfl⟩ := read?_cases h
  · rw [← Kind.token_of_ofToken? named] at split ⊢
    exact ⟨reads_token kind, split⟩
  · have digits := reads_net (length_netDigits_le t) fun _ => isDigit_of_mem_netDigits
    have split := List.prefix_iff_eq_append.1 (netDigits_leads t)
    refine ⟨digits, ?_⟩
    rw [List.cons_append, List.cons_append, List.cons_append, split]

/-- Behind a token without digits nothing more is read. -/
theorem read?_token_append {kind : Kind} (fixed : ∀ digits, kind ≠ .net digits) (rest : List Char) :
    read? (kind.token ++ rest) = some (kind.token, rest) := by
  cases kind with
  | net digits => exact absurd rfl (fixed digits)
  | _ => rfl

/-- Every way to read a keyword reads one, and what follows it. -/
theorem readings_spec {s : List Char} {reading : List Char × List Char}
    (h : reading ∈ readings s) : Reads reading.1 ∧ s = reading.1 ++ reading.2 := by
  unfold readings at h
  split at h
  · simp at h
  · next s _ _ =>
    obtain ⟨n, bound, rfl⟩ := List.mem_map.1 (List.mem_reverse.1 h)
    have short : n ≤ (netDigits s).length := by
      have := List.mem_range.1 bound
      omega
    have start : s.take n <+: netDigits s := by
      rw [List.prefix_iff_eq_take.1 (netDigits_leads s)]
      exact List.take_prefix_take_left short
    have digits : Reads ('N' :: 'E' :: 'T' :: s.take n) := by
      refine reads_net (Nat.le_trans start.length_le (length_netDigits_le s)) fun c mem => ?_
      exact isDigit_of_mem_netDigits (start.subset mem)
    refine ⟨digits, ?_⟩
    simp
  · next read =>
    rw [List.mem_singleton.1 h]
    exact read?_spec read

namespace Reads

theorem ne_nil {keyword : List Char} (h : Reads keyword) : keyword ≠ [] := by
  obtain ⟨c, s, rfl, _⟩ := h.initial
  exact List.cons_ne_nil c s

theorem newline_not_mem {keyword : List Char} (h : Reads keyword) : '\n' ∉ keyword := by
  intro newline
  have word := h.word '\n' newline
  simp at word

/-- The kind of a keyword has it as its token. -/
theorem exists_token {keyword : List Char} (h : Reads keyword) :
    ∃ kind, Kind.ofToken? keyword = some kind ∧ kind.token = keyword := by
  obtain ⟨kind, named⟩ := h.named
  exact ⟨kind, named, Kind.token_of_ofToken? named⟩

end Reads

/-! ## What follows -/

/-- Digits end where no letter or digit follows. -/
theorem netDigits_append {s t : List Char} (apart : ∀ c ∈ t.head?, c.isAlphanum = false) :
    netDigits (s ++ t) = netDigits s := by
  have none : ∀ n, (t.take n).takeWhile Char.isDigit = [] := by
    intro n
    cases t with
    | nil => simp
    | cons c t =>
      have other : c.isDigit = false := (Bool.or_eq_false_iff.1 (apart c rfl)).2
      cases n with
      | zero => rfl
      | succ n => rw [List.take_succ_cons, List.takeWhile_cons, other]; rfl
  unfold netDigits
  match s with
  | [] => exact none 2
  | [a] => simp [List.takeWhile_cons, none]
  | a :: b :: s => simp

theorem endsBefore_iff {s : List Char} :
    endsBefore s = true ↔ ∀ c ∈ s.head?, c.isAlpha = false := by
  cases s <;> simp [endsBefore]

/-- A keyword may end before the text or may not, whatever follows that, unless a letter or digit
does. -/
theorem endsBefore_append (s : List Char) {t : List Char}
    (apart : ∀ c ∈ t.head?, c.isAlphanum = false) : endsBefore (s ++ t) = endsBefore s := by
  cases s with
  | cons c s => rfl
  | nil =>
    cases t with
    | nil => rfl
    | cons c t =>
      have other : c.isAlpha = false := (Bool.or_eq_false_iff.1 (apart c rfl)).1
      simp [endsBefore, other]

/-- A text that begins with a keyword has one to read. -/
theorem read?_isSome {keyword : List Char} (reads : Reads keyword) (rest : List Char) :
    (read? (keyword ++ rest)).isSome = true := by
  obtain ⟨kind, _, rfl⟩ := reads.exists_token
  cases kind <;> rfl

/-- A keyword is read alike whatever follows the text, unless that begins with a letter or digit. -/
theorem read?_append {s t : List Char} (apart : ∀ c ∈ t.head?, c.isAlphanum = false) :
    read? (s ++ t) = (read? s).map fun q => (q.1, q.2 ++ t) := by
  cases whole : read? s with
  | some q =>
    obtain ⟨keyword, rest⟩ := q
    obtain ⟨kind, named, fixed, rfl⟩ | ⟨s, rfl, rfl, rfl⟩ := read?_cases whole
    · obtain rfl := Kind.token_of_ofToken? named
      rw [List.append_assoc, read?_token_append fixed]
      rfl
    · have digits := netDigits_append (s := s) apart
      have short : (netDigits s).length ≤ s.length := (netDigits_leads s).length_le
      simp [read?, digits, List.drop_append_of_le_length short]
  | none =>
    cases behind : read? (s ++ t) with
    | none => rfl
    | some q =>
      obtain ⟨reads, split⟩ := read?_spec behind
      exfalso
      rcases List.append_eq_append_iff.1 split with ⟨x, keyword, rest⟩ | ⟨x, rfl, _⟩
      · cases x with
        | nil =>
          rw [List.append_nil] at keyword
          have some := read?_isSome reads []
          rw [List.append_nil, keyword, whole] at some
          simp at some
        | cons c x =>
          have word := reads.word c (by simp [keyword])
          rw [apart c (by simp [rest])] at word
          simp at word
      · have some := read?_isSome reads x
        rw [whole] at some
        simp at some

/-- A text is a word and what begins with no letter or digit. -/
theorem exists_word (s : List Char) :
    ∃ word rest, s = word ++ rest ∧ '\n' ∉ word ∧ ∀ c ∈ rest.head?, c.isAlphanum = false := by
  refine ⟨s.takeWhile Char.isAlphanum, s.dropWhile Char.isAlphanum,
    List.takeWhile_append_dropWhile.symm, ?_, ?_⟩
  · intro newline
    have word := List.mem_takeWhile_imp (p := Char.isAlphanum) newline
    simp at word
  · intro c first
    have stays := List.head?_dropWhile_not Char.isAlphanum s
    rw [Option.mem_def.1 first] at stays
    simpa using stays

/-- The longest keyword that starts a text, and what follows it; no keyword where none does. -/
def longest (s : List Char) : List Char × List Char :=
  (read? s).getD ([], s)

theorem longest_spec (s : List Char) :
    s = (longest s).1 ++ (longest s).2 ∧ ((longest s).1 = [] ∨ Reads (longest s).1) := by
  unfold longest
  cases read : read? s with
  | none => exact ⟨rfl, .inl rfl⟩
  | some q =>
    obtain ⟨reads, split⟩ := read?_spec read
    exact ⟨split, .inr reads⟩

theorem longest_append (s : List Char) {t : List Char}
    (apart : ∀ c ∈ t.head?, c.isAlphanum = false) :
    longest (s ++ t) = ((longest s).1, (longest s).2 ++ t) := by
  unfold longest
  rw [read?_append apart]
  cases read? s with
  | none => rfl
  | some q => rfl

/-- The first way to read a keyword takes as many digits as there are. -/
theorem head?_readings (s : List Char) : (readings s).head? = read? s := by
  unfold readings
  split
  · next none => simp [none]
  · next s q read =>
    rw [List.range_succ, List.map_append, List.reverse_append]
    have digits := List.prefix_iff_eq_take.1 (netDigits_leads s)
    simp [read?, ← digits]
  · next read => simp [read]

theorem readings_token_append {kind : Kind} (fixed : ∀ digits, kind ≠ .net digits)
    (rest : List Char) : readings (kind.token ++ rest) = [(kind.token, rest)] := by
  cases kind with
  | net digits => exact absurd rfl (fixed digits)
  | _ => rfl

/-- A keyword is read in the same ways whatever follows the text, unless that begins with a letter or
digit. -/
theorem readings_append {s t : List Char} (apart : ∀ c ∈ t.head?, c.isAlphanum = false) :
    readings (s ++ t) = (readings s).map fun q : List Char × List Char => (q.1, q.2 ++ t) := by
  cases read : read? s with
  | none =>
    have none : readings s = [] := by simp [readings, read]
    have none' : readings (s ++ t) = [] := by simp [readings, read?_append apart, read]
    rw [none, none', List.map_nil]
  | some q =>
    obtain ⟨keyword, rest⟩ := q
    obtain ⟨kind, named, fixed, rfl⟩ | ⟨s, rfl, rfl, rfl⟩ := read?_cases read
    · obtain rfl := Kind.token_of_ofToken? named
      rw [List.append_assoc, readings_token_append fixed, readings_token_append fixed]
      rfl
    · have digits := netDigits_append (s := s) apart
      have short : (netDigits s).length ≤ s.length := (netDigits_leads s).length_le
      show ((List.range ((netDigits (s ++ t)).length + 1)).map fun n =>
          ('N' :: 'E' :: 'T' :: (s ++ t).take n, (s ++ t).drop n)).reverse =
        ((List.range ((netDigits s).length + 1)).map fun n =>
          ('N' :: 'E' :: 'T' :: s.take n, s.drop n)).reverse.map fun q => (q.1, q.2 ++ t)
      rw [digits, List.map_reverse, List.map_map]
      refine congrArg List.reverse (List.map_congr_left fun n mem => ?_)
      have inside : n ≤ s.length := by
        have := List.mem_range.1 mem
        omega
      simp only [Function.comp_apply, List.take_append_of_le_length inside,
        List.drop_append_of_le_length inside]

/-! ## The longest keyword -/

/-- Digits are read until there are two, or something else follows. -/
theorem netDigits_of_digits {digits rest : List Char} (all : ∀ c ∈ digits, c.isDigit = true)
    (short : digits.length ≤ 2)
    (ends : digits.length = 2 ∨ ∀ c ∈ rest.head?, c.isDigit = false) :
    netDigits (digits ++ rest) = digits := by
  unfold netDigits
  rw [List.take_append, List.take_of_length_le short, List.takeWhile_append_of_pos all]
  have none : (rest.take (2 - digits.length)).takeWhile Char.isDigit = [] := by
    rcases ends with two | other
    · rw [two]
      rfl
    · cases rest with
      | nil => simp
      | cons c rest =>
        cases 2 - digits.length with
        | zero => rfl
        | succ n => rw [List.take_succ_cons, List.takeWhile_cons, other c rfl]; rfl
  rw [none, List.append_nil]

/-- All digits up to two are read. -/
theorem length_le_netDigits {digits : List Char} (rest : List Char)
    (all : ∀ c ∈ digits, c.isDigit = true) (short : digits.length ≤ 2) :
    digits.length ≤ (netDigits (digits ++ rest)).length := by
  unfold netDigits
  rw [List.take_append, List.take_of_length_le short, List.takeWhile_append_of_pos all,
    List.length_append]
  exact Nat.le_add_right ..

/-- Of all keywords that start a text, none is longer than this one. -/
def IsLongest (keyword s : List Char) : Prop :=
  ∀ kind : Kind, kind.token <+: s → kind.token.length ≤ keyword.length

/-- The keyword that is read at the start of a text is the longest one there. -/
theorem isLongest_of_read? {s keyword behind : List Char} (read : read? s = some (keyword, behind)) :
    IsLongest keyword s := by
  rintro kind ⟨rest, rfl⟩
  cases kind with
  | net digits =>
    obtain ⟨short, all⟩ := digits.token_spec
    have read' : read? (Kind.token (.net digits) ++ rest) =
        some ('N' :: 'E' :: 'T' :: netDigits (digits.token ++ rest), _) := rfl
    cases read.symm.trans read'
    have le := length_le_netDigits rest all short
    show digits.token.length + 3 ≤ (netDigits (digits.token ++ rest)).length + 3
    omega
  | _ =>
    cases read
    exact Nat.le_refl _

/-- The longest keyword that starts a text is the one that is read. -/
theorem read?_of_isLongest {kind : Kind} {rest : List Char}
    (longest : IsLongest kind.token (kind.token ++ rest)) :
    read? (kind.token ++ rest) = some (kind.token, rest) := by
  have some : (read? (kind.token ++ rest)).isSome = true := by cases kind <;> rfl
  obtain ⟨⟨keyword, behind⟩, read⟩ := Option.isSome_iff_exists.1 some
  obtain ⟨reads, split⟩ := read?_spec read
  obtain ⟨kind', _, rfl⟩ := reads.exists_token
  have le := longest kind' ⟨behind, split.symm⟩
  have ge := isLongest_of_read? read kind (List.prefix_append _ _)
  obtain ⟨token, rfl⟩ := List.append_inj split (Nat.le_antisymm ge le)
  rw [read, token]

/-- A keyword is not the longest one exactly if it is `NET` with fewer than two digits, and a digit
follows it. -/
theorem not_isLongest_iff (kind : Kind) (rest : List Char) :
    ¬ IsLongest kind.token (kind.token ++ rest) ↔
      ∃ digits c, kind = .net digits ∧ digits.toList.length < 2 ∧ rest.head? = some c ∧
        c.isDigit = true := by
  constructor
  · intro shorter
    cases kind with
    | net digits =>
      obtain ⟨short, all⟩ := digits.token_spec
      by_contra other
      apply shorter
      have ends : digits.token.length = 2 ∨ ∀ c ∈ rest.head?, c.isDigit = false := by
        by_contra ends
        simp only [not_or, not_forall, Bool.not_eq_false] at ends
        obtain ⟨some, c, first, digit⟩ := ends
        rw [digits.length_token] at some short
        exact other ⟨digits, c, rfl, by omega, first, digit⟩
      have read : read? (Kind.token (.net digits) ++ rest) =
          some ('N' :: 'E' :: 'T' :: netDigits (digits.token ++ rest), _) := rfl
      rw [netDigits_of_digits all short ends] at read
      exact isLongest_of_read? read
    | _ => exact absurd (isLongest_of_read? (rfl : read? _ = some (_, rest))) shorter
  · rintro ⟨digits, c, rfl, short, first, digit⟩ longest
    obtain ⟨rest, rfl⟩ := List.head?_eq_some_iff.1 first
    have reads : Reads ('N' :: 'E' :: 'T' :: (digits.token ++ [c])) := by
      obtain ⟨_, all⟩ := digits.token_spec
      apply reads_net
      · rw [List.length_append, digits.length_token]
        exact short
      · intro d mem
        rcases List.mem_append.1 mem with mem | mem
        · exact all d mem
        · rw [List.mem_singleton.1 mem]
          exact digit
    obtain ⟨kind, _, token⟩ := reads.exists_token
    have net : Kind.token (.net digits) = 'N' :: 'E' :: 'T' :: digits.token := rfl
    have le := longest kind ⟨rest, by rw [token, net]; simp⟩
    rw [token, net] at le
    simp only [List.length_cons, List.length_append, List.length_nil] at le
    omega

end Keyword
end Markers
