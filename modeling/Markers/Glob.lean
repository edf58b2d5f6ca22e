/-!
# Glob patterns

`Glob.compile` reads a pattern into pieces and `Glob.accepts` compares them with a text. A star
stands for any characters, slashes included, and two stars for whole path components; a question
mark for one character; brackets for one character of a class, or outside of it. `Glob.escape`
writes a pattern that matches one text only.
-/

namespace Markers

/-- Why a text is no pattern, and at which character. -/
inductive GlobFault where
  /-- Three or more stars. -/
  | stars (position : Nat)
  /-- Two stars that are no whole component. -/
  | component (position : Nat)
  /-- A bracket that is not closed. -/
  | range (position : Nat)
deriving DecidableEq, Repr

namespace GlobFault

/-- Where the fault is. -/
def position : GlobFault → Nat
  | stars p | component p | range p => p

/-- What is wrong there. -/
def reason : GlobFault → String
  | stars _ => "wildcards are either regular `*` or recursive `**`"
  | component _ => "recursive wildcards must form a single path component"
  | range _ => "invalid range pattern"

/-- The fault in words. -/
def message (fault : GlobFault) : String :=
  "Pattern syntax error near position " ++ fault.position.repr ++ ": " ++ fault.reason

end GlobFault

/-- A piece of a pattern. -/
inductive GlobPiece where
  | char (c : Char)
  | anyChar
  /-- One character in one of the ranges, both ends included. -/
  | oneOf (ranges : List (Char × Char))
  /-- One character in none of the ranges. -/
  | noneOf (ranges : List (Char × Char))
  /-- Any characters. -/
  | anyText
  /-- Any whole components, each with the slash behind it; at the end of a pattern, anything. -/
  | anyComponents
deriving DecidableEq, Repr

/-- A compiled pattern. -/
abbrev Glob := List GlobPiece

namespace Glob

/-- The ranges of a character class. A hyphen between two characters makes a range of them. -/
def ranges : List Char → List (Char × Char)
  | a :: '-' :: b :: rest => (a, b) :: ranges rest
  | a :: rest => (a, a) :: ranges rest
  | [] => []

/-- What stands before the first closing bracket, and what follows it. -/
def toBracket? : List Char → Option (List Char × List Char)
  | [] => none
  | ']' :: rest => some ([], rest)
  | c :: rest => (toBracket? rest).map fun (inner, after) => (c :: inner, after)

/-- The class whose opening bracket has been read, and what follows it. The first character
belongs to the class even if it is a closing bracket. -/
def class? : List Char → Option (GlobPiece × List Char)
  | '!' :: first :: rest =>
    (toBracket? rest).map fun (inner, after) => (.noneOf (ranges (first :: inner)), after)
  | ['!'] | [] => none
  | first :: rest =>
    (toBracket? rest).map fun (inner, after) => (.oneOf (ranges (first :: inner)), after)

theorem toBracket?_length {s inner after : List Char} (h : toBracket? s = some (inner, after)) :
    after.length < s.length := by
  fun_induction toBracket? s generalizing inner with
  | case1 => simp at h
  | case2 => cases h; simp
  | case3 c s _ ih =>
    obtain ⟨⟨_, _⟩, found, h⟩ := Option.map_eq_some_iff.1 h
    cases h
    have := ih found
    simp only [List.length_cons]
    omega

theorem class?_length {s after : List Char} {piece : GlobPiece}
    (h : class? s = some (piece, after)) : after.length < s.length := by
  unfold class? at h
  split at h
  · obtain ⟨⟨_, _⟩, found, h⟩ := Option.map_eq_some_iff.1 h
    cases h
    have := toBracket?_length found
    simp only [List.length_cons]
    omega
  · simp at h
  · simp at h
  · obtain ⟨⟨_, _⟩, found, h⟩ := Option.map_eq_some_iff.1 h
    cases h
    have := toBracket?_length found
    simp only [List.length_cons]
    omega

/-- The pieces of a pattern from character `position` on, where `before` is the character in
front of it, if there is one. -/
def piecesFrom (position : Nat) (before : Option Char) (s : List Char) : Except GlobFault Glob :=
  match s with
  | [] => .ok []
  | '?' :: rest => (.anyChar :: ·) <$> piecesFrom (position + 1) (some '?') rest
  | '*' :: '*' :: '*' :: _ => .error (.stars (position + 2))
  | '*' :: '*' :: rest =>
    if before.getD '/' ≠ '/' then .error (.component (position - 1))
    else
      match rest with
      | [] => .ok [.anyComponents]
      | '/' :: rest => (.anyComponents :: ·) <$> piecesFrom (position + 3) (some '/') rest
      | _ => .error (.component (position + 2))
  | '*' :: rest => (.anyText :: ·) <$> piecesFrom (position + 1) (some '*') rest
  | '[' :: rest =>
    match read : class? rest with
    | none => .error (.range position)
    | some (piece, after) =>
      have := class?_length read
      (piece :: ·) <$>
        piecesFrom (position + 1 + (rest.length - after.length)) (some ']') after
  | c :: rest => (.char c :: ·) <$> piecesFrom (position + 1) (some c) rest
termination_by s.length
decreasing_by all_goals simp only [List.length_cons]; omega

/-- The pieces of a pattern. -/
def compile (pattern : String) : Except GlobFault Glob :=
  piecesFrom 0 none pattern.toList

/-- Whether a character is in one of the ranges. -/
def inRanges (ranges : List (Char × Char)) (c : Char) : Bool :=
  ranges.any fun r => decide (r.1 ≤ c) && decide (c ≤ r.2)

/-- Every ending of a text, from the text itself to the empty one. -/
def endings : List Char → List (List Char)
  | [] => [[]]
  | c :: s => (c :: s) :: endings s

/-- What follows each slash of a text. -/
def behindSlashes : List Char → List (List Char)
  | [] => []
  | c :: s => if c = '/' then s :: behindSlashes s else behindSlashes s

/-- Whether pieces match the whole of a text. -/
def acceptsChars : Glob → List Char → Bool
  | [], s => s.isEmpty
  | .anyText :: pieces, s => (endings s).any (acceptsChars pieces)
  | .anyComponents :: pieces, s =>
    pieces.isEmpty || acceptsChars pieces s || (behindSlashes s).any (acceptsChars pieces)
  | _ :: _, [] => false
  | .char d :: pieces, c :: s => c == d && acceptsChars pieces s
  | .anyChar :: pieces, _ :: s => acceptsChars pieces s
  | .oneOf ranges :: pieces, c :: s => inRanges ranges c && acceptsChars pieces s
  | .noneOf ranges :: pieces, c :: s => !inRanges ranges c && acceptsChars pieces s

/-- Whether a pattern matches the whole of a text. -/
def accepts (glob : Glob) (text : String) : Bool :=
  acceptsChars glob text.toList

/-- A character as a pattern that matches only it. -/
def escapeChar (c : Char) : List Char :=
  if c = '?' ∨ c = '*' ∨ c = '[' ∨ c = ']' then ['[', c, ']'] else [c]

/-- A pattern that matches only the given text. -/
def escape (text : String) : String :=
  String.ofList (text.toList.flatMap escapeChar)

end Glob
end Markers
