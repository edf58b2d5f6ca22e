import Markers.Proofs.Json.Token

/-!
# The ways to write JSON

`Spelling tokens text` says that a text is one of the ways to write tokens: with any blanks between
them, each character of a string literal in any of its escapes, and numbers as their grammar has
them. It does not speak of the scanner. `Token.ofChars?_of_spelling` says that the scanner finds the
tokens in every text that spells them.
-/

namespace Markers.Json
open Token

/-! ## String literals -/

/-- A hexadecimal digit of a number, in either case. -/
def HexDigit (n : Nat) (c : Char) : Prop :=
  n < 16 ∧ (c = hexDigit n ∨ c = (hexDigit n).toUpper)

/-- The four hexadecimal digits of a UTF-16 unit. -/
inductive UnitDigits : Nat → List Char → Prop where
  | mk {k l m n : Nat} {a b c d : Char} : HexDigit k a → HexDigit l b → HexDigit m c →
    HexDigit n d → UnitDigits (((k * 16 + l) * 16 + m) * 16 + n) [a, b, c, d]

/-- The letters that escape a character, with that character. -/
def escapes : List (Char × Char) :=
  [('"', '"'), ('\\', '\\'), ('/', '/'), ('b', '\x08'), ('f', '\x0C'), ('n', '\n'), ('r', '\r'),
    ('t', '\t')]

/-- The ways to write a piece of a literal. -/
inductive PieceSpelling : Piece → List Char → Prop where
  | plain {c : Char} : c ≠ '"' → c ≠ '\\' → 32 ≤ c.toNat → PieceSpelling (.char c) [c]
  | escape {letter c : Char} : (letter, c) ∈ escapes → PieceSpelling (.char c) ['\\', letter]
  | unit {c : Char} {digits : List Char} : UnitDigits c.toNat digits →
    PieceSpelling (.char c) ('\\' :: 'u' :: digits)
  | high {n : Nat} {digits : List Char} : UnitDigits n digits → 0xD800 ≤ n → n < 0xDC00 →
    PieceSpelling (.high n) ('\\' :: 'u' :: digits)
  | low {n : Nat} {digits : List Char} : UnitDigits n digits → 0xDC00 ≤ n → n < 0xE000 →
    PieceSpelling (.low n) ('\\' :: 'u' :: digits)

/-- The ways to write pieces, one behind the other. -/
inductive PiecesSpelling : List Piece → List Char → Prop where
  | nil : PiecesSpelling [] []
  | cons {piece : Piece} {pieces : List Piece} {here behind : List Char} :
    PieceSpelling piece here → PiecesSpelling pieces behind →
    PiecesSpelling (piece :: pieces) (here ++ behind)

/-- The characters that pieces stand for, where the halves of a surrogate pair stand for one. -/
inductive Joined : List Piece → List Char → Prop where
  | nil : Joined [] []
  | char (c : Char) {pieces : List Piece} {s : List Char} : Joined pieces s →
    Joined (.char c :: pieces) (c :: s)
  | pair {high low : Nat} {c : Char} {pieces : List Piece} {s : List Char} :
    c.toNat = 0x10000 + (high - 0xD800) * 0x400 + (low - 0xDC00) → Joined pieces s →
    Joined (.high high :: .low low :: pieces) (c :: s)

/-- The ways to write a literal between its quotes. Pieces that do not join stand for no text. -/
def LiteralSpelling (body : List Char) : JsonText → Prop
  | .text s => ∃ pieces, PiecesSpelling pieces body ∧ Joined pieces s.toList
  | .unpaired => ∃ pieces, PiecesSpelling pieces body ∧ ∀ s, ¬Joined pieces s

/-! ## Numbers -/

/-- At least one digit. -/
def IsDigits (s : List Char) : Prop :=
  s ≠ [] ∧ ∀ c ∈ s, c.isDigit = true

/-- A fraction, or nothing. -/
inductive Fraction : List Char → Prop where
  | none : Fraction []
  | some {s : List Char} : IsDigits s → Fraction ('.' :: s)

/-- An exponent, or nothing. -/
inductive Exponent : List Char → Prop where
  | none : Exponent []
  | some {letter : Char} {sign s : List Char} : letter = 'e' ∨ letter = 'E' →
    sign = [] ∨ sign = ['+'] ∨ sign = ['-'] → IsDigits s → Exponent (letter :: (sign ++ s))

/-- The way to write a number: the digits of a natural one, and the text of any other. -/
inductive NumberSpelling : Json → List Char → Prop where
  | natural (n : Nat) : NumberSpelling (natural n) (digits n)
  | number (n : Nat) {sign fraction exponent : List Char} : sign = [] ∨ sign = ['-'] →
    Fraction fraction → Exponent exponent → sign ++ fraction ++ exponent ≠ [] →
    NumberSpelling (number (sign ++ digits n ++ (fraction ++ exponent)))
      (sign ++ digits n ++ (fraction ++ exponent))

/-! ## Tokens -/

/-- The ways to write a token other than a number. -/
inductive TokenSpelling : Token → List Char → Prop where
  | openArray : TokenSpelling openArray ['[']
  | closeArray : TokenSpelling closeArray [']']
  | openObject : TokenSpelling openObject ['\x7b']
  | closeObject : TokenSpelling closeObject ['\x7d']
  | comma : TokenSpelling comma [',']
  | colon : TokenSpelling colon [':']
  | null : TokenSpelling (scalar null) ['n', 'u', 'l', 'l']
  | true : TokenSpelling (scalar (bool true)) ['t', 'r', 'u', 'e']
  | false : TokenSpelling (scalar (bool false)) ['f', 'a', 'l', 's', 'e']
  | string {literal : JsonText} {body : List Char} : LiteralSpelling body literal →
    TokenSpelling (scalar (string literal)) ('"' :: (body ++ ['"']))

/-- The ways to write tokens: one behind the other, with blanks around them. What follows a number
ends it. -/
inductive Spelling : List Token → List Char → Prop where
  | nil : Spelling [] []
  | blank {c : Char} {tokens : List Token} {s : List Char} :
    c = ' ' ∨ c = '\t' ∨ c = '\n' ∨ c = '\r' → Spelling tokens s → Spelling tokens (c :: s)
  | token {token : Token} {tokens : List Token} {here s : List Char} :
    TokenSpelling token here → Spelling tokens s → Spelling (token :: tokens) (here ++ s)
  | number {value : Json} {tokens : List Token} {here s : List Char} :
    NumberSpelling value here → EndsValue s → Spelling tokens s →
    Spelling (scalar value :: tokens) (here ++ s)

/-! ## Reading literals -/

namespace Token

theorem hexValue?_of_hexDigit {n : Nat} {c : Char} (digit : HexDigit n c) :
    hexValue? c = some n := by
  have all : ∀ n < 16, hexValue? (hexDigit n) = some n ∧
      hexValue? (hexDigit n).toUpper = some n := by decide
  obtain ⟨small, rfl | rfl⟩ := digit
  · exact (all n small).1
  · exact (all n small).2

theorem literal?_of_unitDigits {n : Nat} {digits : List Char} (unit : UnitDigits n digits)
    (s : List Char) :
    literal? ('\\' :: 'u' :: (digits ++ s)) =
      (literal? s).map fun (pieces, rest) => (pieceOfUnit n :: pieces, rest) := by
  cases unit with
  | mk a b c d =>
    refine literal?_unit ?_ s
    rw [hex4?, hexValue?_of_hexDigit a, hexValue?_of_hexDigit b, hexValue?_of_hexDigit c,
      hexValue?_of_hexDigit d]
    rfl

/-- A unit that is a character is no half of a surrogate pair. -/
theorem pieceOfUnit_toNat (c : Char) : pieceOfUnit c.toNat = .char c := by
  have valid : c.toNat < 0xD800 ∨ 0xDFFF < c.toNat ∧ c.toNat < 0x110000 := c.valid
  unfold pieceOfUnit
  rw [if_neg (by omega), if_neg (by omega), Char.ofNat_toNat]

theorem escaped?_of_mem {letter c : Char} (mem : (letter, c) ∈ escapes) :
    letter ≠ 'u' ∧ escaped? letter = some c := by
  simp only [escapes, List.mem_cons, Prod.mk.injEq, List.not_mem_nil, or_false] at mem
  rcases mem with ⟨rfl, rfl⟩ | ⟨rfl, rfl⟩ | ⟨rfl, rfl⟩ | ⟨rfl, rfl⟩ | ⟨rfl, rfl⟩ | ⟨rfl, rfl⟩ |
    ⟨rfl, rfl⟩ | ⟨rfl, rfl⟩ <;> exact ⟨by decide, rfl⟩

/-- A piece is read however it is written. -/
theorem literal?_of_pieceSpelling {piece : Piece} {here : List Char}
    (spelling : PieceSpelling piece here) (s : List Char) :
    literal? (here ++ s) = (literal? s).map fun (pieces, rest) => (piece :: pieces, rest) := by
  cases spelling with
  | plain quote backslash printed => exact literal?_plain quote backslash (by omega) s
  | escape mem =>
    obtain ⟨unit, stands⟩ := escaped?_of_mem mem
    exact literal?_escaped unit stands s
  | @unit c digits unit =>
    rw [← pieceOfUnit_toNat c]
    exact literal?_of_unitDigits unit s
  | @high n digits unit low high =>
    have half : pieceOfUnit n = .high n := if_pos ⟨low, high⟩
    rw [← half]
    exact literal?_of_unitDigits unit s
  | @low n digits unit low high =>
    have half : pieceOfUnit n = .low n := by
      rw [pieceOfUnit, if_neg (by omega), if_pos ⟨low, high⟩]
    rw [← half]
    exact literal?_of_unitDigits unit s

theorem literal?_of_piecesSpelling {pieces : List Piece} {body : List Char}
    (spelling : PiecesSpelling pieces body) (rest : List Char) :
    literal? (body ++ '"' :: rest) = some (pieces, rest) := by
  induction spelling with
  | nil => rfl
  | cons first _ ih => rw [List.append_assoc, literal?_of_pieceSpelling first, ih]; rfl

theorem toNat_ofNat {n : Nat} (valid : n < 0xD800 ∨ 0xDFFF < n ∧ n < 0x110000) :
    (Char.ofNat n).toNat = n := by
  rw [Char.ofNat, dif_pos valid]
  rfl

theorem joinUnits?_of_joined {pieces : List Piece} {s : List Char} (joined : Joined pieces s) :
    joinUnits? pieces = some s := by
  induction joined with
  | nil => rfl
  | char c _ ih => rw [joinUnits?, ih]; rfl
  | @pair high low c _ _ value _ ih =>
    have same : Char.ofNat (0x10000 + (high - 0xD800) * 0x400 + (low - 0xDC00)) = c := by
      rw [← value, Char.ofNat_toNat]
    rw [joinUnits?, ih, same]
    rfl

/-- Pieces that were written in a literal stand for the characters that the scanner joins. -/
theorem joined_of_joinUnits? {pieces : List Piece} {s : List Char}
    (written : ∀ piece ∈ pieces, ∃ here, PieceSpelling piece here)
    (join : joinUnits? pieces = some s) : Joined pieces s := by
  fun_induction joinUnits? pieces generalizing s with
  | case1 =>
    cases join
    exact .nil
  | case2 c pieces ih =>
    obtain ⟨rest, others, rfl⟩ := Option.map_eq_some_iff.1 join
    exact .char c (ih (fun piece mem => written piece (List.mem_cons_of_mem _ mem)) others)
  | case3 high low pieces ih =>
    obtain ⟨rest, others, rfl⟩ := Option.map_eq_some_iff.1 join
    obtain ⟨⟨_, first⟩, ⟨_, second⟩, written⟩ := by
      simpa only [List.forall_mem_cons] using written
    refine .pair (toNat_ofNat ?_) (ih written others)
    -- the number of two halves in their ranges is that of a character
    cases first
    cases second
    omega
  | case4 => cases join

theorem textOf_of_literalSpelling {literal : JsonText} {body : List Char}
    (spelling : LiteralSpelling body literal) (rest : List Char) :
    ∃ pieces, literal? (body ++ '"' :: rest) = some (pieces, rest) ∧ textOf pieces = literal := by
  cases literal with
  | text s =>
    obtain ⟨pieces, written, joined⟩ := spelling
    refine ⟨pieces, literal?_of_piecesSpelling written rest, ?_⟩
    rw [textOf, joinUnits?_of_joined joined]
    exact congrArg JsonText.text String.ofList_toList
  | unpaired =>
    obtain ⟨pieces, written, apart⟩ := spelling
    refine ⟨pieces, literal?_of_piecesSpelling written rest, ?_⟩
    have each : ∀ piece ∈ pieces, ∃ here, PieceSpelling piece here := by
      clear apart
      induction written with
      | nil => simp
      | cons first _ ih => exact List.forall_mem_cons.2 ⟨⟨_, first⟩, ih⟩
    have none : joinUnits? pieces = none :=
      Option.eq_none_iff_forall_ne_some.2 fun s join => apart s (joined_of_joinUnits? each join)
    rw [textOf, none]

/-! ## Reading numbers -/

theorem isDigits_digits (n : Nat) : IsDigits (digits n) :=
  ⟨Nat.toDigits_ne_nil, fun _ mem => isDigit_of_mem_digits mem⟩

theorem isExponent_of_exponent {s : List Char} (exponent : Exponent s) : isExponent s = true := by
  cases exponent with
  | none => rfl
  | @some letter sign s mark signs valid =>
    obtain ⟨some, digits⟩ := valid
    have all : s.all Char.isDigit = true := List.all_eq_true.2 digits
    have unsigned : isExponent (letter :: (sign ++ s)) =
        ((letter = 'e' || letter = 'E') && s ≠ [] && s.all Char.isDigit) := by
      rcases signs with rfl | rfl | rfl
      · -- a digit is no sign
        rw [List.nil_append, isExponent]
        · rintro s rfl
          exact absurd (digits '+' (List.mem_cons_self ..)) (by decide)
        · rintro s rfl
          exact absurd (digits '-' (List.mem_cons_self ..)) (by decide)
      · rfl
      · rfl
    rw [unsigned, all, Bool.and_true, Bool.and_eq_true, Bool.or_eq_true, decide_eq_true_eq,
      decide_eq_true_eq, decide_eq_true_eq]
    exact ⟨mark, some⟩

/-- What follows the whole part of a number is no digit. -/
theorem not_isDigit_of_fraction_exponent {fraction exponent : List Char}
    (valid : Fraction fraction) (valid' : Exponent exponent) (c : Char)
    (head : (fraction ++ exponent).head? = some c) : c.isDigit = false := by
  cases valid with
  | some =>
    cases head
    rfl
  | none =>
    cases valid' with
    | none => cases head
    | some letter =>
      cases head
      rcases letter with rfl | rfl <;> rfl

theorem isFractionExponent_of_fraction_exponent {fraction exponent : List Char}
    (valid : Fraction fraction) (valid' : Exponent exponent) :
    isFractionExponent (fraction ++ exponent) = true := by
  cases valid with
  | @some s digits =>
    obtain ⟨taken, left⟩ := takeWhile_dropWhile_of_stop digits.2
      (not_isDigit_of_fraction_exponent .none valid')
    rw [List.nil_append] at taken left
    rw [List.cons_append, isFractionExponent, taken, left, isExponent_of_exponent valid',
      Bool.and_true]
    exact decide_eq_true digits.1
  | none =>
    rw [List.nil_append, isFractionExponent, isExponent_of_exponent valid']
    rintro s rfl
    cases valid' with
    | some letter => rcases letter with same | same <;> cases same

theorem isDigit_of_isNatural {s : List Char} (natural : isNatural s = true) :
    ∀ c ∈ s, c.isDigit = true := by
  unfold isNatural at natural
  split at natural
  · cases natural
  · exact List.forall_mem_singleton.2 rfl
  · exact List.all_eq_true.1 (Bool.and_eq_true_iff.1 natural).2

/-- A number is read from its text. -/
theorem numberOf?_of_numberSpelling {value : Json} {here : List Char}
    (spelling : NumberSpelling value here) : numberOf? here = some value := by
  cases spelling with
  | natural n => rw [numberOf?.eq_def, if_pos (isNatural_digits n), naturalOf_digits]
  | @number n sign fraction exponent signs valid valid' some =>
    have other : isNatural (sign ++ digits n ++ (fraction ++ exponent)) ≠ true := by
      intro natural
      have all := isDigit_of_isNatural natural
      rcases signs with rfl | rfl
      · have stops := not_isDigit_of_fraction_exponent valid valid'
        cases tail : fraction ++ exponent with
        | nil => exact some (by simpa using tail)
        | cons c s =>
          have digit := all c (by simp [tail])
          rw [stops c (by rw [tail]; rfl)] at digit
          cases digit
      · exact absurd (all '-' (by simp)) (by decide)
    obtain ⟨taken, left⟩ := takeWhile_dropWhile_of_stop (isDigits_digits n).2
      (not_isDigit_of_fraction_exponent valid valid')
    have unsigned : ∀ rest, rest = digits n ++ (fraction ++ exponent) →
        (isNatural (rest.takeWhile Char.isDigit) &&
          isFractionExponent (rest.dropWhile Char.isDigit)) = true := by
      rintro rest rfl
      rw [taken, left, isNatural_digits, isFractionExponent_of_fraction_exponent valid valid']
      rfl
    rw [numberOf?.eq_def, if_neg other]
    refine if_pos (unsigned _ ?_)
    rcases signs with rfl | rfl
    · rw [List.nil_append]
      split
      · next same =>
        have first : '-' ∈ digits n := by
          cases written : digits n with
          | nil => exact absurd written Nat.toDigits_ne_nil
          | cons c s =>
            rw [written] at same
            cases same
            exact List.mem_cons_self ..
        exact absurd (isDigit_of_mem_digits first) (by decide)
      · rfl
    · rfl

theorem isNumeric_of_numberSpelling {value : Json} {here : List Char}
    (spelling : NumberSpelling value here) : ∀ c ∈ here, isNumeric c = true := by
  have digit {s : List Char} (valid : IsDigits s) : ∀ c ∈ s, isNumeric c = true := fun c mem =>
    isNumeric_of_isDigit (valid.2 c mem)
  cases spelling with
  | natural n => exact digit (isDigits_digits n)
  | @number n sign fraction exponent signs valid valid' =>
    have sign : ∀ c ∈ sign, isNumeric c = true := by
      rcases signs with rfl | rfl
      · exact List.forall_mem_nil _
      · exact List.forall_mem_singleton.2 rfl
    have fraction : ∀ c ∈ fraction, isNumeric c = true := by
      cases valid with
      | none => simp
      | some valid => exact List.forall_mem_cons.2 ⟨by decide, digit valid⟩
    have exponent : ∀ c ∈ exponent, isNumeric c = true := by
      cases valid' with
      | none => simp
      | some mark signs valid =>
        refine List.forall_mem_cons.2 ⟨?_, List.forall_mem_append.2 ⟨?_, digit valid⟩⟩
        · rcases mark with rfl | rfl <;> decide
        · rcases signs with rfl | rfl | rfl
          · exact List.forall_mem_nil _
          · exact List.forall_mem_singleton.2 rfl
          · exact List.forall_mem_singleton.2 rfl
    simp only [List.forall_mem_append]
    exact ⟨⟨sign, digit (isDigits_digits n)⟩, fraction, exponent⟩

/-! ## Reading tokens -/

theorem ofChars?_of_numberSpelling {value : Json} {here s : List Char}
    (spelling : NumberSpelling value here) (ends : EndsValue s) :
    ofChars? (here ++ s) = (ofChars? s).map (scalar value :: ·) := by
  have read := numberOf?_of_numberSpelling spelling
  have numeric := isNumeric_of_numberSpelling spelling
  cases here with
  | nil => cases read
  | cons c here =>
    obtain ⟨first, others⟩ := List.forall_mem_cons.1 numeric
    obtain ⟨taken, left⟩ := takeWhile_dropWhile_numeric others ends
    rw [List.cons_append, ofChars?_numeric first (by rw [taken, read]), left]

theorem ofChars?_of_tokenSpelling {token : Token} {here : List Char}
    (spelling : TokenSpelling token here) (s : List Char) :
    ofChars? (here ++ s) = (ofChars? s).map (token :: ·) := by
  cases spelling with
  | string spelling =>
    obtain ⟨pieces, read, stands⟩ := textOf_of_literalSpelling spelling s
    rw [List.cons_append, List.append_assoc, List.singleton_append, ofChars?_literal read, stands]
  | _ => simp only [List.cons_append, List.nil_append, ofChars?]

/-- The tokens of a text are found however they are written. -/
theorem ofChars?_of_spelling {tokens : List Token} {s : List Char} (spelling : Spelling tokens s) :
    ofChars? s = some tokens := by
  induction spelling with
  | nil => rw [ofChars?]
  | blank blank _ ih =>
    rw [ofChars?_space, ih]
    rcases blank with rfl | rfl | rfl | rfl <;> rfl
  | token here _ ih => rw [ofChars?_of_tokenSpelling here, ih]; rfl
  | number here ends _ ih => rw [ofChars?_of_numberSpelling here ends, ih]; rfl

end Token
end Markers.Json
