import Markers.Json.Token
import Markers.Proofs.FileSystem.Tree
import Markers.Repository
import Markers.Text.Utf8
import Mathlib.Data.List.Infix

/-!
# Links to files

A link has a base, the path of its file below the root of the repository, and the span behind the
last hash. Of the path only the spaces are encoded. So what the path stands for in the link is the
path itself exactly if nothing in it looks like an encoded byte (`percentDecode_encodedPath`), and a
hash or a question mark in it stays as it is. Links of different files are different if no path has a
space written as in a link (`encodedPath_inj`).
-/

namespace Markers.Repository
open Text Json.Token

/-! ## Percent signs -/

/-- The bytes that a text in a URL stands for: a percent sign with two hexadecimal digits is a byte,
every other character is itself. -/
def percentDecode : List Char → List UInt8
  | '%' :: a :: b :: s =>
    match hexValue? a, hexValue? b with
    | some high, some low => UInt8.ofNat (16 * high + low) :: percentDecode s
    | _, _ => String.utf8EncodeChar '%' ++ percentDecode (a :: b :: s)
  | c :: s => String.utf8EncodeChar c ++ percentDecode s
  | [] => []

/-- That a text begins with two hexadecimal digits. -/
def StartsHex (s : List Char) : Prop :=
  ∃ a b rest, s = a :: b :: rest ∧ (hexValue? a).isSome ∧ (hexValue? b).isSome

/-- That a text has a percent sign with two hexadecimal digits behind it. -/
def HasEscape (s : List Char) : Prop :=
  ∃ a b, (hexValue? a).isSome ∧ (hexValue? b).isSome ∧ ['%', a, b] <:+: s

variable {c : Char} {s t : List Char}

theorem hasEscape_cons : HasEscape (c :: s) ↔ c = '%' ∧ StartsHex s ∨ HasEscape s := by
  simp only [HasEscape, List.infix_cons_iff, List.cons_prefix_cons]
  constructor
  · rintro ⟨a, b, high, low, ⟨rfl, rest, rfl⟩ | inside⟩
    · exact .inl ⟨rfl, a, b, rest, rfl, high, low⟩
    · exact .inr ⟨a, b, high, low, inside⟩
  · rintro (⟨rfl, a, b, rest, rfl, high, low⟩ | ⟨a, b, high, low, inside⟩)
    · exact ⟨a, b, high, low, .inl ⟨rfl, rest, rfl⟩⟩
    · exact ⟨a, b, high, low, .inr inside⟩

theorem percentDecode_escape {a b : Char} (high : (hexValue? a).isSome)
    (low : (hexValue? b).isSome) (s : List Char) :
    ∃ byte, percentDecode ('%' :: a :: b :: s) = byte :: percentDecode s := by
  obtain ⟨x, high⟩ := Option.isSome_iff_exists.1 high
  obtain ⟨y, low⟩ := Option.isSome_iff_exists.1 low
  exact ⟨_, by rw [percentDecode, high, low]⟩

theorem percentDecode_cons (plain : ¬(c = '%' ∧ StartsHex s)) :
    percentDecode (c :: s) = String.utf8EncodeChar c ++ percentDecode s := by
  rw [percentDecode.eq_def]
  split
  next a b rest same =>
    obtain ⟨rfl, rfl⟩ := List.cons.inj same
    split
    next high low =>
      exact absurd ⟨rfl, a, b, rest, rfl, by rw [high]; rfl, by rw [low]; rfl⟩ plain
    next => rfl
  next same =>
    obtain ⟨rfl, rfl⟩ := List.cons.inj same
    rfl
  next same => cases same

/-! ## Paths in links -/

/-- The characters of a path in a link. -/
def encodedPath (s : List Char) : List Char :=
  (encodeSpaces (String.ofList s)).toList

theorem encodedPath_space (s : List Char) :
    encodedPath (' ' :: s) = '%' :: '2' :: '0' :: encodedPath s := by
  simp [encodedPath, encodeSpaces]

theorem encodedPath_cons (other : c ≠ ' ') (s : List Char) :
    encodedPath (c :: s) = c :: encodedPath s := by
  simp [encodedPath, encodeSpaces, other]

theorem encodedPath_cons_ne_nil (c : Char) (s : List Char) : encodedPath (c :: s) ≠ [] := by
  by_cases space : c = ' '
  · rw [space, encodedPath_space]
    exact List.cons_ne_nil _ _
  · rw [encodedPath_cons space]
    exact List.cons_ne_nil _ _

/-- Only percent signs and the digits behind them are new in the path. -/
theorem mem_encodedPath (other : c ∉ " %20".toList) (s : List Char) :
    c ∈ encodedPath s ↔ c ∈ s := by
  simp only [String.reduceToList, List.mem_cons, List.not_mem_nil, or_false, not_or] at other
  induction s with
  | nil => rfl
  | cons d s ih =>
    by_cases space : d = ' '
    · rw [space, encodedPath_space]
      simp [ih, other]
    · rw [encodedPath_cons space, List.mem_cons, List.mem_cons, ih]

theorem ne_of_hexValue? (digit : (hexValue? c).isSome) : c ≠ ' ' ∧ c ≠ '%' := by
  constructor
  · rintro rfl
    exact absurd digit (by decide)
  · rintro rfl
    exact absurd digit (by decide)

/-- What follows in the path and is no percent sign follows in the file's path. -/
theorem exists_of_encodedPath_eq_cons (other : c ≠ '%') (same : encodedPath s = c :: t) :
    ∃ rest, s = c :: rest ∧ encodedPath rest = t := by
  cases s with
  | nil => cases same
  | cons d s =>
    by_cases space : d = ' '
    · rw [space, encodedPath_space] at same
      exact absurd (List.cons.inj same).1.symm other
    · rw [encodedPath_cons space] at same
      obtain ⟨rfl, rfl⟩ := List.cons.inj same
      exact ⟨s, rfl, rfl⟩

theorem startsHex_encodedPath : StartsHex (encodedPath s) ↔ StartsHex s := by
  constructor
  · rintro ⟨a, b, rest, split, high, low⟩
    obtain ⟨behind, rfl, second⟩ :=
      exists_of_encodedPath_eq_cons (ne_of_hexValue? high).2 split
    obtain ⟨rest, rfl, -⟩ := exists_of_encodedPath_eq_cons (ne_of_hexValue? low).2 second
    exact ⟨a, b, rest, rfl, high, low⟩
  · rintro ⟨a, b, rest, rfl, high, low⟩
    refine ⟨a, b, encodedPath rest, ?_, high, low⟩
    rw [encodedPath_cons (ne_of_hexValue? high).1,
      encodedPath_cons (ne_of_hexValue? low).1]

theorem percentDecode_space (s : List Char) :
    percentDecode ('%' :: '2' :: '0' :: s) = String.utf8EncodeChar ' ' ++ percentDecode s := by
  have high : hexValue? '2' = some 2 := by decide
  have low : hexValue? '0' = some 0 := by decide
  have bytes : String.utf8EncodeChar ' ' = [UInt8.ofNat (16 * 2 + 0)] := by decide
  rw [percentDecode, high, low, bytes, List.singleton_append]

/-- A character that starts no escape is decoded as itself. -/
theorem percentDecode_encodedPath_cons (plain : ¬(c = '%' ∧ StartsHex s)) :
    percentDecode (encodedPath (c :: s)) =
      String.utf8EncodeChar c ++ percentDecode (encodedPath s) := by
  by_cases space : c = ' '
  · rw [space, encodedPath_space, percentDecode_space]
  · rw [encodedPath_cons space]
    exact percentDecode_cons (by rwa [startsHex_encodedPath])

/-- An escape in the path of a file is decoded as one byte. -/
theorem percentDecode_encodedPath_escape {a b : Char} (high : (hexValue? a).isSome)
    (low : (hexValue? b).isSome) (s : List Char) : ∃ byte,
    percentDecode (encodedPath ('%' :: a :: b :: s)) = byte :: percentDecode (encodedPath s) := by
  rw [encodedPath_cons (by decide), encodedPath_cons (ne_of_hexValue? high).1,
    encodedPath_cons (ne_of_hexValue? low).1]
  exact percentDecode_escape high low _

theorem length_encode_cons (c : Char) (s : List Char) :
    (encode (c :: s)).length = c.utf8Size + (encode s).length := by
  rw [encode, List.flatMap_cons, List.length_append, String.length_utf8EncodeChar, encode]

/-- Decoding never makes more bytes than the path of the file has. -/
theorem length_percentDecode_encodedPath_le (s : List Char) :
    (percentDecode (encodedPath s)).length ≤ (encode s).length := by
  induction length : s.length using Nat.strong_induction_on generalizing s with
  | _ n ih =>
    subst length
    cases s with
    | nil => exact Nat.le_refl 0
    | cons c s =>
      by_cases escape : c = '%' ∧ StartsHex s
      · -- two characters are skipped, so the induction is on the length
        obtain ⟨rfl, a, b, rest, rfl, high, low⟩ := escape
        obtain ⟨byte, decoded⟩ := percentDecode_encodedPath_escape high low rest
        have shorter := ih rest.length (by simp only [List.length_cons]; omega) rest rfl
        have one := Char.utf8Size_pos '%'
        simp only [decoded, length_encode_cons, List.length_cons]
        omega
      · have shorter := ih s.length (by simp) s rfl
        rw [percentDecode_encodedPath_cons escape, List.length_append,
          String.length_utf8EncodeChar, length_encode_cons]
        omega

/-- The path in a link stands for the path of the file exactly if that has no escape. -/
theorem percentDecode_encodedPath (s : List Char) :
    percentDecode (encodedPath s) = encode s ↔ ¬HasEscape s := by
  induction s with
  | nil =>
    refine iff_of_true rfl ?_
    rintro ⟨a, b, -, -, inside⟩
    simp at inside
  | cons c s ih =>
    rw [hasEscape_cons]
    by_cases escape : c = '%' ∧ StartsHex s
    · -- three characters have become one byte
      refine iff_of_false (fun same => ?_) fun none => none (.inl escape)
      obtain ⟨rfl, a, b, rest, rfl, high, low⟩ := escape
      obtain ⟨byte, decoded⟩ := percentDecode_encodedPath_escape high low rest
      have shorter := length_percentDecode_encodedPath_le rest
      have first := Char.utf8Size_pos '%'
      have second := Char.utf8Size_pos a
      have length := congrArg List.length same
      simp only [decoded, length_encode_cons, List.length_cons] at length
      omega
    · rw [percentDecode_encodedPath_cons escape, encode, List.flatMap_cons,
        List.append_cancel_left_eq, ← encode, ih]
      simp [escape]

/-- A space is told apart from a character behind which no encoded space is left over. -/
theorem encodedPath_space_ne (other : c ≠ ' ') (bare : ¬"%20".toList <:+: c :: t) :
    encodedPath (' ' :: s) ≠ encodedPath (c :: t) := by
  rw [encodedPath_space, encodedPath_cons other]
  intro same
  obtain ⟨rfl, rest⟩ := List.cons.inj same
  obtain ⟨behind, rfl, last⟩ := exists_of_encodedPath_eq_cons (by decide) rest.symm
  obtain ⟨back, rfl, -⟩ := exists_of_encodedPath_eq_cons (by decide) last
  exact bare ⟨[], back, rfl⟩

theorem bare_of_cons (bare : ¬"%20".toList <:+: c :: s) : ¬"%20".toList <:+: s :=
  fun inside => bare (List.infix_cons_iff.2 (.inr inside))

/-- Paths without encoded spaces differ in links. -/
theorem encodedPath_inj (bare : ¬"%20".toList <:+: s) (bare' : ¬"%20".toList <:+: t) :
    encodedPath s = encodedPath t ↔ s = t := by
  refine ⟨fun same => ?_, fun same => same ▸ rfl⟩
  induction s generalizing t with
  | nil =>
    cases t with
    | nil => rfl
    | cons d t => exact absurd same.symm (encodedPath_cons_ne_nil d t)
  | cons c s ih =>
    cases t with
    | nil => exact absurd same (encodedPath_cons_ne_nil c s)
    | cons d t =>
      have rest := ih (bare_of_cons bare) (bare_of_cons bare')
      by_cases space : c = ' ' <;> by_cases space' : d = ' '
      · subst space space'
        rw [encodedPath_space, encodedPath_space] at same
        simp only [List.cons.injEq, true_and] at same
        rw [rest same]
      · subst space
        exact absurd same (encodedPath_space_ne space' bare')
      · subst space'
        exact absurd same.symm (encodedPath_space_ne space bare)
      · rw [encodedPath_cons space, encodedPath_cons space', List.cons.injEq] at same
        rw [same.1, rest same.2]

/-! ## Files below the root -/

/-- That a file lies below a root under some names: its path says so, or else its canonical path
does. -/
structure HasFile (root : Path) (canonical : Path → Option Path) (file : Path)
    (names : List String) : Prop where
  inside : names ≠ []
  named : ∀ name ∈ names, IsEntryName name
  below : file.components = root.components ++ names.map .name ∨
    ¬root.components <+: file.components ∧ ∃ path, canonical file = some path ∧
      path.components = root.components ++ names.map .name

variable {repo : Repository} {canonical : Path → Option Path} {file : Path} {names : List String}
  {base : String} {onBranch : Bool}

theorem below?_eq_some {root path : Path} {components : List Component}
    (below : path.components = root.components ++ components) :
    path.below? root = some components :=
  List.isPrefixOf?_eq_some_iff_append_eq.2 below.symm

theorem below?_eq_none {root path : Path} (apart : ¬root.components <+: path.components) :
    path.below? root = none :=
  Option.eq_none_iff_forall_ne_some.2 fun components found =>
    apart ⟨components, List.isPrefixOf?_eq_some_iff_append_eq.1 found⟩

theorem join_names (names : List String) :
    Component.join (names.map .name) = "/".intercalate names := by
  have same : Component.text ∘ Component.name = id := rfl
  rw [Component.join, List.map_map, same, List.map_id]

/-- A file below the root is called by its names. -/
theorem HasFile.relativePath? (has : HasFile repo.root canonical file names) :
    repo.relativePath? canonical file = some ("/".intercalate names) := by
  rw [Repository.relativePath?]
  rcases has.below with below | ⟨apart, path, found, below⟩
  · simp only [below?_eq_some below, join_names]
  · simp only [below?_eq_none apart, found, bind, Option.bind, below?_eq_some below, join_names, pure]

/-- Files below the root are told apart by what they are called. -/
theorem intercalate_inj {other : List String} (named : ∀ name ∈ names, IsEntryName name)
    (named' : ∀ name ∈ other, IsEntryName name) :
    "/".intercalate names = "/".intercalate other ↔ names = other := by
  refine ⟨fun same => ?_, fun same => same ▸ rfl⟩
  exact (Path.ofNames_inj named named').1 (by rw [Path.ofNames, same, Path.ofNames])

/-! ## Spans -/

theorem hash_not_mem_fragment (p : Position) : '#' ∉ (fragment p).toList := by
  have number (n : Nat) : '#' ∉ Nat.toDigits 10 n := fun mem =>
    absurd (Nat.isDigit_of_mem_toDigits (by decide) (by decide) mem) (by decide)
  simp [fragment, number]

/-- A span has a hash at its start, and no other one. -/
theorem exists_spanFragment (start stop : Position) :
    ∃ span, (spanFragment start stop).toList = '#' :: span ∧ '#' ∉ span := by
  have first := hash_not_mem_fragment start
  have last := hash_not_mem_fragment stop
  rw [spanFragment]
  split
  · exact ⟨(fragment start).toList ++ '-' :: (fragment stop).toList, by simp, by simp [first, last]⟩
  · exact ⟨(fragment start).toList, by simp, first⟩

/-- What stands in front of the last hash is told apart from what stands behind it. -/
theorem append_hash_inj {span span' : List Char} (last : '#' ∉ span) (last' : '#' ∉ span') :
    s ++ '#' :: span = t ++ '#' :: span' ↔ s = t ∧ span = span' := by
  refine ⟨fun same => ?_, fun ⟨front, back⟩ => front ▸ back ▸ rfl⟩
  -- the hash of one text cannot stand behind that of the other
  have within {more span span' : List Char} (last : '#' ∉ span)
      (same : '#' :: span = more ++ '#' :: span') : more = [] ∧ span = span' := by
    cases more with
    | nil => exact ⟨rfl, (List.cons.inj same).2⟩
    | cons c more =>
      refine absurd ?_ last
      rw [(List.cons.inj same).2]
      exact List.mem_append_right _ (List.mem_cons_self ..)
  rcases List.append_eq_append_iff.1 same with ⟨more, front, back⟩ | ⟨more, front, back⟩
  · obtain ⟨rfl, equal⟩ := within last back
    exact ⟨by rw [front, List.append_nil], equal⟩
  · obtain ⟨rfl, equal⟩ := within last' back
    exact ⟨by rw [front, List.append_nil], equal.symm⟩

/-! ## Links -/

theorem HasFile.sourceUrl? (has : HasFile repo.root canonical file names)
    (known : (if onBranch then repo.branchBase? else repo.commitBase?) = some base)
    (start stop : Position) :
    repo.sourceUrl? canonical file start stop onBranch =
      some (base ++ encodeSpaces ("/".intercalate names) ++ spanFragment start stop) := by
  cases onBranch with
  | false =>
    have known : repo.commitBase? = some base := known
    rw [Repository.sourceUrl?, if_neg Bool.false_ne_true, known, has.relativePath?]
    rfl
  | true =>
    have known : repo.branchBase? = some base := known
    rw [Repository.sourceUrl?, if_pos rfl, known, has.relativePath?]
    rfl

theorem encodeSpaces_inj {path other : String} (bare : ¬"%20".toList <:+: path.toList)
    (bare' : ¬"%20".toList <:+: other.toList) :
    encodeSpaces path = encodeSpaces other ↔ path = other := by
  have paths := encodedPath_inj bare bare'
  rwa [encodedPath, encodedPath, String.ofList_toList, String.ofList_toList, String.toList_inj,
    String.toList_inj] at paths

/-- **What a link points at.** A repository whose slug, branch and commit are known has a link for
every file below its root: the base, the path of the file with its spaces encoded, and the span
behind a hash. The encoded path has a hash or a question mark exactly if the path has, and it stands
for the path exactly if this has no percent sign in front of two hexadecimal digits. Two links are
the same exactly if the encoded paths and the spans are; and paths that are the same when encoded
are the same, unless one of them has an encoded space in it. -/
theorem sourceUrl?_decodes {root : Path} (slug commit branch : String)
    (has : HasFile root canonical file names) (start stop : Position) (onBranch : Bool) :
    let repo : Repository := ⟨root, some slug, some commit, some branch⟩
    let base := "https://github.com/" ++ slug ++
      (if onBranch then "/tree/" ++ branch ++ "/" else "/blob/" ++ commit ++ "/")
    let path := "/".intercalate names
    let encoded := encodeSpaces path
    repo.sourceUrl? canonical file start stop onBranch =
        some (base ++ encoded ++ spanFragment start stop) ∧
      (∃ span, (spanFragment start stop).toList = '#' :: span ∧ '#' ∉ span) ∧
      ('#' ∈ encoded.toList ↔ '#' ∈ path.toList) ∧ ('?' ∈ encoded.toList ↔ '?' ∈ path.toList) ∧
      (percentDecode encoded.toList = encode path.toList ↔ ¬HasEscape path.toList) ∧
      ∀ file' names' start' stop', HasFile root canonical file' names' →
        (repo.sourceUrl? canonical file' start' stop' onBranch =
            repo.sourceUrl? canonical file start stop onBranch ↔
          encodeSpaces ("/".intercalate names') = encoded ∧
            spanFragment start' stop' = spanFragment start stop) ∧
        (¬"%20".toList <:+: path.toList → ¬"%20".toList <:+: ("/".intercalate names').toList →
          (encodeSpaces ("/".intercalate names') = encoded ↔ names' = names)) := by
  intro repo base path encoded
  have known : (if onBranch then repo.branchBase? else repo.commitBase?) = some base := by
    cases onBranch
    · simp [repo, base, commitBase?, host, String.append_assoc]
    · simp [repo, base, branchBase?, host, String.append_assoc]
  have chars : encoded.toList = encodedPath path.toList := by
    rw [encodedPath, String.ofList_toList]
  refine ⟨has.sourceUrl? known start stop, exists_spanFragment start stop, ?_, ?_, ?_, ?_⟩
  · rw [chars, mem_encodedPath (by decide)]
  · rw [chars, mem_encodedPath (by decide)]
  · rw [chars, percentDecode_encodedPath]
  · intro file' names' start' stop' has'
    refine ⟨?_, fun bare bare' => ?_⟩
    · obtain ⟨span, split, last⟩ := exists_spanFragment start stop
      obtain ⟨span', split', last'⟩ := exists_spanFragment start' stop'
      rw [has.sourceUrl? known, has'.sourceUrl? known, Option.some_inj, ← String.toList_inj,
        ← String.toList_inj, ← String.toList_inj]
      simp only [String.toList_append, split, split']
      rw [append_hash_inj last' last, List.append_cancel_left_eq, List.cons.injEq]
      simp only [true_and]
      rfl
    · rw [encodeSpaces_inj bare' bare, intercalate_inj has'.named has.named]

/-- A file given by a path from elsewhere, with spaces in its names: the link stands for it, and is
none of a file beside it. -/
theorem sourceUrl?_decodes_spaces :
    let repo : Repository := ⟨⟨"/work/repo"⟩, some "octo/widgets", some "abc123", some "main"⟩
    let file : Path := ⟨"src/My App/ü 1.cs"⟩
    let canonical (p : Path) : Option Path :=
      if p = file then some ⟨"/work/repo/src/My App/ü 1.cs"⟩ else none
    HasFile repo.root canonical file ["src", "My App", "ü 1.cs"] ∧
      HasFile repo.root canonical ⟨"/work/repo/src/ü 1.cs"⟩ ["src", "ü 1.cs"] ∧
      repo.sourceUrl? canonical file ⟨5, 4⟩ ⟨7, 19⟩ false =
        some "https://github.com/octo/widgets/blob/abc123/src/My%20App/ü%201.cs#L5C4-L7C19" ∧
      '#' ∉ (encodeSpaces "src/My App/ü 1.cs").toList ∧
      '?' ∉ (encodeSpaces "src/My App/ü 1.cs").toList ∧
      percentDecode (encodeSpaces "src/My App/ü 1.cs").toList =
        encode "src/My App/ü 1.cs".toList ∧
      ∀ start stop, repo.sourceUrl? canonical ⟨"/work/repo/src/ü 1.cs"⟩ start stop false ≠
        repo.sourceUrl? canonical file ⟨5, 4⟩ ⟨7, 19⟩ false := by
  intro repo file canonical
  have has : HasFile repo.root canonical file ["src", "My App", "ü 1.cs"] := by
    refine ⟨by decide, by decide, .inr ⟨by decide +kernel, _, if_pos rfl, ?_⟩⟩
    decide +kernel
  have has' : HasFile repo.root canonical ⟨"/work/repo/src/ü 1.cs"⟩ ["src", "ü 1.cs"] :=
    ⟨by decide, by decide, .inl (by decide +kernel)⟩
  have path : "/".intercalate ["src", "My App", "ü 1.cs"] = "src/My App/ü 1.cs" := by
    decide +kernel
  have plain : ¬HasEscape "src/My App/ü 1.cs".toList := by
    rintro ⟨a, b, -, -, inside⟩
    exact absurd (inside.subset (List.mem_cons_self ..)) (by decide)
  obtain ⟨link, _, hash, question, decodes, others⟩ :=
    sourceUrl?_decodes "octo/widgets" "abc123" "main" has ⟨5, 4⟩ ⟨7, 19⟩ false
  rw [path] at link hash question decodes others
  refine ⟨has, has', link.trans (by decide +kernel), mt hash.1 (by decide),
    mt question.1 (by decide), decodes.2 plain, fun start stop same => ?_⟩
  have paths := ((others _ _ start stop has').1.1 same).1
  exact absurd paths (by decide +kernel)

/-- A folder called after a language has a hash in its name: the link leads to a fragment of
another page. A space and an encoded space give one link. -/
theorem sourceUrl?_hash :
    let repo : Repository := ⟨⟨"/work/repo"⟩, some "octo/widgets", some "abc123", some "main"⟩
    let link (file : String) := repo.sourceUrl? (fun _ => none) ⟨file⟩ ⟨3, 8⟩ ⟨3, 23⟩ true
    HasFile repo.root (fun _ => none) ⟨"/work/repo/C#/Program.cs"⟩ ["C#", "Program.cs"] ∧
      link "/work/repo/C#/Program.cs" =
        some "https://github.com/octo/widgets/tree/main/C#/Program.cs#L3C8" ∧
      '#' ∈ (encodeSpaces "C#/Program.cs").toList ∧
      link "/work/repo/a b.cs" = link "/work/repo/a%20b.cs" ∧
      percentDecode (encodeSpaces "a%20b.cs").toList ≠ encode "a%20b.cs".toList := by
  intro repo link
  exact ⟨⟨by decide, by decide, .inl (by decide +kernel)⟩, by decide +kernel⟩

end Markers.Repository
