import Markers.Json.Reader
import Markers.Proofs.Json.Spelling

/-!
# Reading values

`Json.tokens` are the tokens of a value, and the machine that reads them ends with the value
(`Reader.run?_tokens`). So a value is read from every text that spells its tokens
(`parse?_of_spelling`). What `pretty` writes is such a text for a `Plain` value, in which no number
is written otherwise than with digits alone (`spelling_pretty`).
-/

namespace Markers.Json
open Token

/-- A value whose numbers are all written with digits alone. -/
inductive Plain : Json → Prop where
  | null : Plain null
  | bool (b : Bool) : Plain (bool b)
  | natural (n : Nat) : Plain (natural n)
  | string (literal : JsonText) : Plain (string literal)
  | array {items : List Json} : (∀ item ∈ items, Plain item) → Plain (array items)
  | object {fields : List (JsonText × Json)} : (∀ field ∈ fields, Plain field.2) →
    Plain (object fields)

attribute [simp] Plain.null Plain.bool Plain.natural Plain.string

mutual

/-- The tokens of a value. -/
def tokens : Json → List Token
  | array [] => [openArray, closeArray]
  | array (item :: items) => openArray :: tokens item ++ itemTokens items ++ [closeArray]
  | object [] => [openObject, closeObject]
  | object ((key, value) :: fields) =>
    openObject :: scalar (string key) :: colon :: tokens value ++ fieldTokens fields ++
      [closeObject]
  | value => [scalar value]

/-- The tokens of the items of an array behind the first. -/
def itemTokens : List Json → List Token
  | [] => []
  | item :: items => comma :: tokens item ++ itemTokens items

/-- The tokens of the fields of an object behind the first. -/
def fieldTokens : List (JsonText × Json) → List Token
  | [] => []
  | (key, value) :: fields =>
    comma :: scalar (string key) :: colon :: tokens value ++ fieldTokens fields

end

/-! ## Written values -/

theorem hexDigit_self {n : Nat} (small : n < 16) : HexDigit n (hexDigit n) :=
  ⟨small, .inl rfl⟩

theorem unitDigits_of_lt {n : Nat} (small : n < 32) :
    UnitDigits n ['0', '0', hexDigit (n / 16), hexDigit (n % 16)] := by
  have zero : HexDigit 0 '0' := hexDigit_self (by decide)
  have digits := UnitDigits.mk zero zero (hexDigit_self (n := n / 16) (by omega))
    (hexDigit_self (n := n % 16) (by omega))
  have value : ((0 * 16 + 0) * 16 + n / 16) * 16 + n % 16 = n := by omega
  rwa [value] at digits

theorem pieceSpelling_escapeChar (c : Char) : PieceSpelling (.char c) (escapeChar c) := by
  unfold escapeChar
  split
  · next same => cases same; exact .escape (by decide)
  split
  · next same => cases same; exact .escape (by decide)
  split
  · next same => cases same; exact .escape (by decide)
  split
  · next same => cases same; exact .escape (by decide)
  split
  · next same => cases same; exact .escape (by decide)
  split
  · next same => cases same; exact .escape (by decide)
  split
  · next same => cases same; exact .escape (by decide)
  split
  · next control => exact .unit (unitDigits_of_lt control)
  · next quote backslash _ _ _ _ _ printed => exact .plain quote backslash (by omega)

theorem joined_map_char (s : List Char) : Joined (s.map .char) s := by
  induction s with
  | nil => exact .nil
  | cons c s ih => exact .char c ih

theorem tokenSpelling_quoteText (literal : JsonText) :
    TokenSpelling (scalar (string literal)) (quoteText literal) := by
  cases literal with
  | text s =>
    have pieces : ∀ s : List Char, PiecesSpelling (s.map .char) (s.flatMap escapeChar) := by
      intro s
      induction s with
      | nil => exact .nil
      | cons c s ih => exact .cons (pieceSpelling_escapeChar c) ih
    exact .string ⟨_, pieces s.toList, joined_map_char s.toList⟩
  | unpaired =>
    have digit {n : Nat} (small : n < 16) := hexDigit_self small
    have half : PieceSpelling (.high 0xD800) ['\\', 'u', 'd', '8', '0', '0'] :=
      .high (.mk (k := 13) (l := 8) (m := 0) (n := 0) (digit (by decide)) (digit (by decide))
        (digit (by decide)) (digit (by decide))) (by decide) (by decide)
    have unpaired : LiteralSpelling ['\\', 'u', 'd', '8', '0', '0'] .unpaired :=
      ⟨_, .cons half .nil, fun s joined => by cases joined⟩
    exact .string unpaired

theorem endsValue_nil : EndsValue [] := by
  intro c head
  cases head

theorem endsValue_cons {c : Char} (mem : c ∈ afterValue) (s : List Char) : EndsValue (c :: s) := by
  intro d head
  cases head
  exact mem

theorem endsValue_newline (depth : Nat) (s : List Char) : EndsValue (newline depth ++ s) :=
  endsValue_cons (by decide) _

theorem endsValue_prettyItems (depth : Nat) (items : List Json) {s : List Char}
    (ends : EndsValue s) : EndsValue (prettyItems depth items ++ s) := by
  cases items with
  | nil => rwa [prettyItems, List.nil_append]
  | cons item items =>
    rw [prettyItems]
    exact endsValue_cons (by decide) _

theorem endsValue_prettyFields (depth : Nat) (fields : List (JsonText × Json)) {s : List Char}
    (ends : EndsValue s) : EndsValue (prettyFields depth fields ++ s) := by
  cases fields with
  | nil => rwa [prettyFields, List.nil_append]
  | cons field fields =>
    rw [prettyFields]
    exact endsValue_cons (by decide) _

theorem Spelling.newline {behind : List Token} {s : List Char} (spelling : Spelling behind s)
    (depth : Nat) : Spelling behind (Json.newline depth ++ s) := by
  have blanks : ∀ n, Spelling behind (List.replicate n ' ' ++ s) := by
    intro n
    induction n with
    | zero => exact spelling
    | succ n ih => exact .blank (.inl rfl) ih
  exact .blank (.inr (.inr (.inl rfl))) (blanks _)

/-- That what `prettyAt` writes for a value spells its tokens, at any depth and in front of any text
that may follow a value. -/
def IsSpelled (value : Json) : Prop :=
  ∀ depth {behind rest}, EndsValue rest → Spelling behind rest →
    Spelling (tokens value ++ behind) (prettyAt depth value ++ rest)

theorem spelling_prettyItems {items : List Json} (all : ∀ item ∈ items, IsSpelled item)
    (depth : Nat) {behind : List Token} {rest : List Char} (ends : EndsValue rest)
    (spelling : Spelling behind rest) :
    Spelling (itemTokens items ++ behind) (prettyItems depth items ++ rest) := by
  induction items with
  | nil => simpa only [itemTokens, prettyItems, List.nil_append] using spelling
  | cons item items ih =>
    obtain ⟨first, others⟩ := List.forall_mem_cons.1 all
    have here := first depth (endsValue_prettyItems depth items ends) (ih others)
    simpa only [itemTokens, prettyItems, List.append_assoc, List.cons_append, List.nil_append] using
      Spelling.token .comma (here.newline depth)

theorem spelling_prettyFields {fields : List (JsonText × Json)}
    (all : ∀ field ∈ fields, IsSpelled field.2) (depth : Nat) {behind : List Token}
    {rest : List Char} (ends : EndsValue rest) (spelling : Spelling behind rest) :
    Spelling (fieldTokens fields ++ behind) (prettyFields depth fields ++ rest) := by
  induction fields with
  | nil => simpa only [fieldTokens, prettyFields, List.nil_append] using spelling
  | cons field fields ih =>
    obtain ⟨first, others⟩ := List.forall_mem_cons.1 all
    obtain ⟨key, value⟩ := field
    have here := first depth (endsValue_prettyFields depth fields ends) (ih others)
    have keyed := Spelling.token (tokenSpelling_quoteText key)
      (.token .colon (.blank (.inl rfl) here))
    simpa only [fieldTokens, prettyFields, List.append_assoc, List.cons_append, List.nil_append]
      using Spelling.token .comma (keyed.newline depth)

theorem isSpelled_array {items : List Json} (all : ∀ item ∈ items, IsSpelled item) :
    IsSpelled (array items) := by
  intro depth behind rest ends spelling
  cases items with
  | nil =>
    simpa only [tokens, prettyAt, List.cons_append, List.nil_append] using
      Spelling.token .openArray (.token .closeArray spelling)
  | cons item items =>
    obtain ⟨first, others⟩ := List.forall_mem_cons.1 all
    have close : EndsValue (newline depth ++ (']' :: rest)) := endsValue_newline depth _
    have tail := spelling_prettyItems others (depth + 1) close
      ((Spelling.token .closeArray spelling).newline depth)
    have here := first (depth + 1) (endsValue_prettyItems (depth + 1) items close) tail
    simpa only [tokens, prettyAt, List.append_assoc, List.cons_append, List.nil_append] using
      Spelling.token .openArray (here.newline (depth + 1))

theorem isSpelled_object {fields : List (JsonText × Json)}
    (all : ∀ field ∈ fields, IsSpelled field.2) : IsSpelled (object fields) := by
  intro depth behind rest ends spelling
  cases fields with
  | nil =>
    simpa only [tokens, prettyAt, List.cons_append, List.nil_append] using
      Spelling.token .openObject (.token .closeObject spelling)
  | cons field fields =>
    obtain ⟨first, others⟩ := List.forall_mem_cons.1 all
    obtain ⟨key, value⟩ := field
    have close : EndsValue (newline depth ++ ('\x7d' :: rest)) := endsValue_newline depth _
    have tail := spelling_prettyFields others (depth + 1) close
      ((Spelling.token .closeObject spelling).newline depth)
    have here := first (depth + 1) (endsValue_prettyFields (depth + 1) fields close) tail
    have keyed := Spelling.token (tokenSpelling_quoteText key)
      (.token .colon (.blank (.inl rfl) here))
    simpa only [tokens, prettyAt, List.append_assoc, List.cons_append, List.nil_append] using
      Spelling.token .openObject (keyed.newline (depth + 1))

theorem isSpelled_of_plain {value : Json} (plain : Plain value) : IsSpelled value := by
  induction plain with
  | null =>
    intro depth behind rest ends spelling
    exact .token .null spelling
  | bool b =>
    intro depth behind rest ends spelling
    cases b
    · exact .token .false spelling
    · exact .token .true spelling
  | natural n =>
    intro depth behind rest ends spelling
    exact .number (.natural n) ends spelling
  | string literal =>
    intro depth behind rest ends spelling
    exact .token (tokenSpelling_quoteText literal) spelling
  | array _ ih => exact isSpelled_array ih
  | object _ ih => exact isSpelled_object ih

theorem Spelling.brace_mem {behind : List Token} {s : List Char} (spelling : Spelling behind s)
    (mem : Token.openObject ∈ behind) : '\x7b' ∈ s := by
  induction spelling with
  | nil => cases mem
  | blank _ _ ih => exact List.mem_cons_of_mem _ (ih mem)
  | token here _ ih =>
    rcases List.mem_cons.1 mem with same | mem
    · cases same
      cases here
      exact List.mem_cons_self ..
    · exact List.mem_append_right _ (ih mem)
  | number _ _ _ ih =>
    rcases List.mem_cons.1 mem with same | mem
    · cases same
    · exact List.mem_append_right _ (ih mem)

theorem openObject_mem_tokens (fields : List (JsonText × Json)) :
    Token.openObject ∈ tokens (object fields) := by
  cases fields <;> simp [tokens]

/-- The text of a plain value spells its tokens. -/
theorem spelling_pretty {value : Json} (plain : Plain value) :
    Spelling (tokens value) value.pretty.toList := by
  have spelling := isSpelled_of_plain plain 0 endsValue_nil .nil
  rw [pretty, String.toList_ofList]
  rwa [List.append_nil, List.append_nil] at spelling

/-! ## The machine -/

/-- Induction over a value, with a hypothesis for every item and every field. -/
@[elab_as_elim]
theorem induction {motive : Json → Prop} (null : motive null) (bool : ∀ b, motive (bool b))
    (natural : ∀ n, motive (natural n)) (number : ∀ lexeme, motive (number lexeme))
    (string : ∀ literal, motive (string literal))
    (array : ∀ items, (∀ item ∈ items, motive item) → motive (array items))
    (object : ∀ fields, (∀ field ∈ fields, motive field.2) → motive (object fields)) :
    ∀ value, motive value
  | .null => null
  | .bool b => bool b
  | .natural n => natural n
  | .number lexeme => number lexeme
  | .string literal => string literal
  | .array items => array items fun item _ =>
    induction null bool natural number string array object item
  | .object fields => object fields fun field _ =>
    induction null bool natural number string array object field.2
termination_by value => value
decreasing_by
  · decreasing_tactic
  · have smaller := List.sizeOf_lt_of_mem ‹field ∈ fields›
    have part : sizeOf field = 1 + sizeOf field.1 + sizeOf field.2 := Prod.mk.sizeOf_spec ..
    rw [Json.object.sizeOf_spec]
    omega

namespace Reader

/-- That the machine ends with a value when it reads its tokens. -/
def Reads (value : Json) : Prop :=
  ∀ stack rest, run? (.value stack) (tokens value ++ rest) = run? (.after stack value) rest

theorem run?_firstItem {value : Json} (reads : Reads value) (stack : List Frame)
    (rest : List Token) :
    run? (.firstItem stack) (tokens value ++ rest) = run? (.after (.items [] :: stack) value) rest := by
  rw [← reads]
  have first : ∃ token more, tokens value = token :: more ∧ token ≠ closeArray := by
    rw [tokens.eq_def]
    split <;> exact ⟨_, _, rfl, by simp⟩
  obtain ⟨token, more, same, other⟩ := first
  rw [same, List.cons_append, run?, run?, step?, step?.eq_def]
  split <;> simp_all

theorem run?_itemTokens {items : List Json} (all : ∀ item ∈ items, Reads item)
    (stack : List Frame) (before : List Json) (value : Json) (rest : List Token) :
    run? (.after (.items before :: stack) value) (itemTokens items ++ closeArray :: rest) =
      run? (.after stack (.array (before.reverse ++ value :: items))) rest := by
  induction items generalizing before value with
  | nil => simp [itemTokens, run?, step?]
  | cons item items ih =>
    obtain ⟨first, others⟩ := List.forall_mem_cons.1 all
    rw [itemTokens, List.append_assoc, List.cons_append, run?, step?, Option.bind_some, first,
      ih others]
    simp

theorem run?_fieldTokens {fields : List (JsonText × Json)}
    (all : ∀ field ∈ fields, Reads field.2) (stack : List Frame)
    (before : List (JsonText × Json)) (key : JsonText) (value : Json) (rest : List Token) :
    run? (.after (.fields before key :: stack) value) (fieldTokens fields ++ closeObject :: rest) =
      run? (.after stack (.object (before.reverse ++ (key, value) :: fields))) rest := by
  induction fields generalizing before key value with
  | nil => simp [fieldTokens, run?, step?]
  | cons field fields ih =>
    obtain ⟨first, others⟩ := List.forall_mem_cons.1 all
    obtain ⟨key', value'⟩ := field
    simp only [fieldTokens, List.append_assoc, List.cons_append]
    rw [run?, step?, Option.bind_some, run?, step?, Option.bind_some, run?, step?,
      Option.bind_some, first, ih others]
    simp

/-- The machine reads a value from its tokens. -/
theorem run?_tokens (value : Json) : Reads value := by
  induction value using Json.induction with
  | null | bool | natural | number | string =>
    intro stack rest
    rw [tokens] <;> simp [run?, step?, beginValue?]
  | array items ih =>
    intro stack rest
    cases items with
    | nil => simp [tokens, run?, step?, beginValue?]
    | cons item items =>
      obtain ⟨first, others⟩ := List.forall_mem_cons.1 ih
      simp only [tokens, List.append_assoc, List.cons_append, List.nil_append]
      rw [run?, step?, beginValue?, Option.bind_some, run?_firstItem first,
        run?_itemTokens others]
      rfl
  | object fields ih =>
    intro stack rest
    cases fields with
    | nil => simp [tokens, run?, step?, beginValue?]
    | cons field fields =>
      obtain ⟨first, others⟩ := List.forall_mem_cons.1 ih
      obtain ⟨key, value⟩ := field
      simp only [tokens, List.append_assoc, List.cons_append, List.nil_append]
      rw [run?, step?, beginValue?, Option.bind_some, run?, step?, Option.bind_some, run?, step?,
        Option.bind_some, first, run?_fieldTokens others]
      rfl

end Reader

/-- A value is read from every text that spells its tokens. -/
theorem parse?_of_spelling {value : Json} {s : List Char} (spelling : Spelling (tokens value) s) :
    parse? s = some value := by
  have reads := Reader.run?_tokens value [] []
  rw [List.append_nil] at reads
  rw [parse?, ofChars?_of_spelling spelling]
  simp only [bind, Option.bind_some, reads, Reader.run?]

end Markers.Json
