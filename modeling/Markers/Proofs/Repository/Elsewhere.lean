import Markers.Proofs.Repository.Slug

/-!
# Remotes on other hosts

A slug is read wherever the host stands in front of a slash or a colon and what follows, to the end,
names a repository (`isSome_findSlug?_iff`). The host has neither sign in it, so it can only end in
front of one: cut at its first sign, a text mentions a repository if its first part ends in the host
and its rest names one, or if the rest mentions one (`mentionsRepository_append_cons`). So the URL
of another host gives no slug unless that host ends in `github.com` all the same, or the path
mentions a repository (`githubSlug?_address`).
-/

namespace Markers.Repository
open Text

/-- That a text names a repository: its owner, a slash and its name, and perhaps one more slash. -/
def NamesRepository (s : List Char) : Prop :=
  ∃ owner name, IsSlugPart owner ∧ IsSlugPart name ∧
    (s = owner ++ '/' :: name ∨ s = owner ++ '/' :: (name ++ ['/']))

/-- The signs that may follow a host. -/
def IsSeparator (c : Char) : Prop :=
  c = '/' ∨ c = ':'

/-- That a text has the host anywhere in it, and behind it a sign and the name of a repository. -/
def MentionsRepository (s : List Char) : Prop :=
  ∃ front separator rest, s = front ++ ("github.com".toList ++ separator :: rest) ∧
    IsSeparator separator ∧ NamesRepository rest

/-- The two ways to write a path on a host: `https://host/path`, and `user@host:path` with a user
who has no slash and no colon in the name. -/
inductive Address (host path : List Char) : List Char → Prop where
  | web : Address host path ("https://".toList ++ (host ++ '/' :: path))
  | shell (user : List Char) (slash : '/' ∉ user) (colon : ':' ∉ user) :
    Address host path (user ++ '@' :: (host ++ ':' :: path))

variable {s front back rest host path url : List Char} {separator : Char}

/-! ## What is read as a slug -/

theorem isSlugPart_iff : IsSlugPart s ↔ (!s.isEmpty && s.all isSlugChar) = true := by
  rw [Bool.and_eq_true, Bool.not_eq_true', List.isEmpty_eq_false_iff, List.all_eq_true]
  constructor
  · intro part
    exact ⟨part.nonempty, part.isSlugChar⟩
  · rintro ⟨nonempty, chars⟩
    simp only [isSlugChar, Bool.and_eq_true, decide_eq_true_eq, Bool.not_eq_true'] at chars
    exact ⟨nonempty, fun mem => (chars _ mem).1 rfl, fun c mem => (chars c mem).2⟩

theorem withoutEnding?_eq_some {ending : List Char} (found : withoutEnding? ending s = some front) :
    s = front ++ ending := by
  by_cases last : ending <:+ s
  · obtain ⟨front', rfl⟩ := last
    rw [withoutEnding?_append] at found
    rw [Option.some.inj found]
  · rw [withoutEnding?_eq_none last] at found
    cases found

theorem IsSlugPart.append_git (part : IsSlugPart s) : IsSlugPart (s ++ ".git".toList) := by
  have git : ∀ c ∈ ".git".toList, Repository.isSlugChar c = true := List.all_eq_true.1 (by decide)
  refine isSlugPart_iff.2 (Bool.and_eq_true_iff.2 ⟨?_, ?_⟩)
  · simp
  · exact List.all_eq_true.2 fun c mem => (List.mem_append.1 mem).elim (part.isSlugChar c) (git c)

/-- A name may itself end in `.git`, so only the slash matters. -/
theorem isSome_repositoryName?_iff :
    (repositoryName? s).isSome = true ↔
      ∃ name, IsSlugPart name ∧ (s = name ∨ s = name ++ ['/']) := by
  rw [repositoryName?, List.find?_isSome]
  simp only [List.mem_filterMap, ← isSlugPart_iff]
  constructor
  · rintro ⟨name, ⟨ending, mem, found⟩, part⟩
    have split := withoutEnding?_eq_some found
    simp only [List.mem_cons, List.not_mem_nil, or_false] at mem
    rcases mem with rfl | rfl | rfl | rfl
    · refine ⟨_, part.append_git, .inr ?_⟩
      rw [split, List.append_assoc]
      rfl
    · exact ⟨_, part.append_git, .inl split⟩
    · exact ⟨name, part, .inr split⟩
    · exact ⟨name, part, .inl (by simpa using split)⟩
  · rintro ⟨name, part, rfl | rfl⟩
    · refine ⟨s, ⟨"", by simp, ?_⟩, part⟩
      simpa using withoutEnding?_append s []
    · exact ⟨name, ⟨"/", by simp, withoutEnding?_append name ['/']⟩, part⟩

theorem isSome_slugAfterHost?_iff :
    (slugAfterHost? s).isSome = true ↔
      ∃ separator rest, s = separator :: rest ∧ IsSeparator separator ∧ NamesRepository rest := by
  constructor
  · intro found
    cases s with
    | nil => simp [slugAfterHost?] at found
    | cons separator rest =>
      rw [slugAfterHost?] at found
      split at found
      · next separates =>
        split at found
        · next c owner last taken left =>
          rw [Option.isSome_map] at found
          obtain ⟨name, part, split⟩ := isSome_repositoryName?_iff.1 found
          have chars : ∀ d ∈ c :: owner, isSlugChar d = true := by
            rw [← taken]
            exact List.all_eq_true.1 List.all_takeWhile
          have owns : IsSlugPart (c :: owner) :=
            isSlugPart_iff.2 (Bool.and_eq_true_iff.2 ⟨rfl, List.all_eq_true.2 chars⟩)
          have whole : rest = (c :: owner) ++ '/' :: last := by
            rw [← taken, ← left, List.takeWhile_append_dropWhile]
          refine ⟨separator, rest, rfl, separates, c :: owner, name, owns, part, ?_⟩
          rcases split with rfl | rfl
          · exact .inl whole
          · exact .inr whole
        · simp at found
      · simp at found
  · rintro ⟨separator, rest, rfl, separates, owner, name, part, part', split⟩
    have cut (last : List Char) : (owner ++ '/' :: last).takeWhile isSlugChar = owner ∧
        (owner ++ '/' :: last).dropWhile isSlugChar = '/' :: last := by
      have stops : isSlugChar '/' = false := by decide
      rw [takeWhile_append_cons stops, dropWhile_append_cons stops,
        List.takeWhile_eq_self_iff.2 part.isSlugChar, List.dropWhile_eq_nil_iff.2 part.isSlugChar]
      exact ⟨rfl, rfl⟩
    have read {last : List Char} (named : last = name ∨ last = name ++ ['/']) :
        (slugAfterHost? (separator :: (owner ++ '/' :: last))).isSome = true := by
      obtain ⟨c, owner, rfl⟩ := List.exists_cons_of_ne_nil part.nonempty
      have sign : separator = '/' ∨ separator = ':' := separates
      rw [slugAfterHost?, if_pos sign, (cut last).1, (cut last).2]
      simp only [Option.isSome_map]
      exact isSome_repositoryName?_iff.2 ⟨name, part', named⟩
    rcases split with rfl | rfl
    · exact read (.inl rfl)
    · exact read (.inr rfl)

theorem not_mentionsRepository_nil : ¬MentionsRepository [] := by
  rintro ⟨front, separator, rest, split, _⟩
  simp at split

/-- A repository is mentioned at the start of a text or behind its first character. -/
theorem mentionsRepository_cons {c : Char} :
    MentionsRepository (c :: s) ↔
      (∃ separator rest, c :: s = "github.com".toList ++ separator :: rest ∧
        IsSeparator separator ∧ NamesRepository rest) ∨ MentionsRepository s := by
  constructor
  · rintro ⟨front, separator, rest, split, separates, names⟩
    cases front with
    | nil => exact .inl ⟨separator, rest, split, separates, names⟩
    | cons d front =>
      obtain ⟨_, split⟩ := List.cons.inj split
      exact .inr ⟨front, separator, rest, split, separates, names⟩
  · rintro (⟨separator, rest, split, separates, names⟩ | ⟨front, separator, rest, rfl, mentions⟩)
    · exact ⟨[], separator, rest, split, separates, names⟩
    · exact ⟨c :: front, separator, rest, rfl, mentions⟩

/-- A slug is found exactly in a text that mentions a repository. -/
theorem isSome_findSlug?_iff : (findSlug? s).isSome = true ↔ MentionsRepository s := by
  induction s with
  | nil => simpa [findSlug?] using not_mentionsRepository_nil
  | cons c s ih =>
    have here : (("github.com".toList.isPrefixOf? (c :: s)).bind slugAfterHost?).isSome = true ↔
        ∃ separator rest, c :: s = "github.com".toList ++ separator :: rest ∧
          IsSeparator separator ∧ NamesRepository rest := by
      simp only [Option.isSome_bind, Option.any_eq_true, List.isPrefixOf?_eq_some_iff_append_eq,
        isSome_slugAfterHost?_iff]
      constructor
      · rintro ⟨_, same, separator, rest, rfl, found⟩
        exact ⟨separator, rest, same.symm, found⟩
      · rintro ⟨separator, rest, same, found⟩
        exact ⟨_, same.symm, separator, rest, rfl, found⟩
    rw [mentionsRepository_cons, ← here, ← ih, findSlug?]
    split
    · next found => simp only [found, Option.isSome_some, true_or]
    · next none => simp only [none, Option.isSome_none, Bool.false_eq_true, false_or]

/-! ## Where the host may stand -/

/-- Behind a text without the sign `d` that sign is the next one or stands further back. -/
theorem eq_or_exists_of_append_cons {before : List Char} {c d : Char} (plain : d ∉ front)
    (same : front ++ c :: back = before ++ d :: rest) :
    (before = front ∧ d = c ∧ rest = back) ∨
      ∃ more, before = front ++ c :: more ∧ back = more ++ d :: rest := by
  rcases List.append_eq_append_iff.1 same with ⟨more, split, split'⟩ | ⟨more, split, split'⟩
  · cases more with
    | nil =>
      obtain ⟨rfl, rfl⟩ := List.cons.inj split'
      exact .inl ⟨by rw [split, List.append_nil], rfl, rfl⟩
    | cons e more =>
      obtain ⟨rfl, behind⟩ := List.cons.inj split'
      exact .inr ⟨more, split, behind⟩
  · cases more with
    | nil =>
      obtain ⟨rfl, rfl⟩ := List.cons.inj split'
      exact .inl ⟨by rw [split, List.append_nil], rfl, rfl⟩
    | cons e more =>
      obtain ⟨rfl, _⟩ := List.cons.inj split'
      rw [split] at plain
      simp at plain

/-- A sign that is not in the last part of a text stands in front of that part. -/
theorem exists_of_append_eq_append_cons {before last : List Char} {c : Char} (plain : c ∉ last)
    (same : before ++ last = front ++ c :: back) :
    ∃ more, before = front ++ c :: more ∧ back = more ++ last := by
  rcases List.append_eq_append_iff.1 same with ⟨more, _, split⟩ | ⟨more, split, split'⟩
  · rw [split] at plain
    simp at plain
  · cases more with
    | nil =>
      rw [← List.nil_append last, ← split'] at plain
      simp at plain
    | cons d more =>
      obtain ⟨rfl, behind⟩ := List.cons.inj split'
      exact ⟨more, split, behind⟩

/-- The host ends in front of the first sign of a text, or it stands behind that sign. -/
theorem mentionsRepository_append_cons (slash : '/' ∉ front) (colon : ':' ∉ front)
    (separates : IsSeparator separator) :
    MentionsRepository (front ++ separator :: back) ↔
      "github.com".toList <:+ front ∧ NamesRepository back ∨ MentionsRepository back := by
  constructor
  · rintro ⟨before, sign, rest, split, separates', names⟩
    have plain : sign ∉ front := by
      rcases separates' with rfl | rfl
      · exact slash
      · exact colon
    have plain' : separator ∉ "github.com".toList := by
      rcases separates with rfl | rfl <;> decide
    rw [← List.append_assoc] at split
    rcases eq_or_exists_of_append_cons plain split with ⟨rfl, _, rfl⟩ | ⟨more, ends, rfl⟩
    · exact .inl ⟨List.suffix_append .., names⟩
    · obtain ⟨more, _, rfl⟩ := exists_of_append_eq_append_cons plain' ends
      exact .inr ⟨more, sign, rest, List.append_assoc .., separates', names⟩
  · rintro (⟨⟨before, rfl⟩, names⟩ | ⟨before, sign, rest, rfl, mentions⟩)
    · exact ⟨before, separator, back, by rw [List.append_assoc], separates, names⟩
    · exact ⟨front ++ separator :: before, sign, rest, by simp, mentions⟩

theorem suffix_append_cons_iff {last : List Char} {c : Char} (plain : c ∉ last) :
    last <:+ front ++ c :: back ↔ last <:+ back := by
  constructor
  · rintro ⟨before, same⟩
    obtain ⟨more, _, rfl⟩ := exists_of_append_eq_append_cons plain same
    exact List.suffix_append ..
  · rintro ⟨more, rfl⟩
    exact ⟨front ++ c :: more, by simp⟩

theorem mentionsRepository_web (slash : '/' ∉ host) (colon : ':' ∉ host) :
    MentionsRepository ("https://".toList ++ (host ++ '/' :: path)) ↔
      "github.com".toList <:+ host ∧ NamesRepository path ∨ MentionsRepository path := by
  have scheme : MentionsRepository ("https".toList ++ ':' :: ([] ++ '/' :: ([] ++ '/' ::
      (host ++ '/' :: path)))) ↔ MentionsRepository (host ++ '/' :: path) := by
    have none (front : List Char) (short : front.length < 10) : ¬"github.com".toList <:+ front :=
      fun last => absurd last.length_le (Nat.not_le.2 short)
    rw [mentionsRepository_append_cons (by decide) (by decide) (.inr rfl),
      mentionsRepository_append_cons (by simp) (by simp) (.inl rfl),
      mentionsRepository_append_cons (by simp) (by simp) (.inl rfl)]
    simp only [none "https".toList (by decide), none [] (by decide), false_and, false_or]
  exact scheme.trans (mentionsRepository_append_cons slash colon (.inl rfl))

theorem mentionsRepository_shell {user : List Char} (slash : '/' ∉ user ++ host)
    (colon : ':' ∉ user ++ host) :
    MentionsRepository (user ++ '@' :: (host ++ ':' :: path)) ↔
      "github.com".toList <:+ host ∧ NamesRepository path ∨ MentionsRepository path := by
  have split : user ++ '@' :: (host ++ ':' :: path) = (user ++ '@' :: host) ++ ':' :: path := by
    simp
  rw [split, mentionsRepository_append_cons (by simpa using slash) (by simpa using colon)
    (.inr rfl), suffix_append_cons_iff (by decide)]

theorem isSome_githubSlug?_iff (slash : '/' ∉ host) (colon : ':' ∉ host)
    (address : Address host path url) :
    (githubSlug? (String.ofList url)).isSome = true ↔
      "github.com".toList <:+ host ∧ NamesRepository (trimEnd path) ∨
        MentionsRepository (trimEnd path) := by
  rw [githubSlug?, Option.isSome_map, String.toList_ofList, isSome_findSlug?_iff]
  cases address with
  | web =>
    have trimmed : trim ("https://".toList ++ (host ++ '/' :: path)) =
        "https://".toList ++ (host ++ '/' :: trimEnd path) := by
      rw [← List.append_assoc, trim_append_cons (by decide), ← List.append_assoc]
      rfl
    rw [trimmed, mentionsRepository_web slash colon]
  | shell user slash' colon' =>
    have trimmed : trim (user ++ '@' :: (host ++ ':' :: path)) =
        trimStart user ++ '@' :: (host ++ ':' :: trimEnd path) := by
      rw [trim_append_cons (by decide), trimEnd_append_cons (by decide)]
    have kept : ∀ c ∈ trimStart user, c ∈ user := (List.dropWhile_sublist isBlank).subset
    rw [trimmed, mentionsRepository_shell]
    · exact fun mem => (List.mem_append.1 mem).elim (fun mem => slash' (kept _ mem)) slash
    · exact fun mem => (List.mem_append.1 mem).elim (fun mem => colon' (kept _ mem)) colon

/-! ## Links -/

theorem sourceUrl?_of_slug_eq_none {repo : Repository} (unknown : repo.slug = none)
    (canonical : Path → Option Path) (file : Path) (start stop : Position) (onBranch : Bool) :
    repo.sourceUrl? canonical file start stop onBranch = none := by
  have commit : repo.commitBase? = none := by rw [commitBase?, unknown]; rfl
  have branch : repo.branchBase? = none := by rw [branchBase?, unknown]; rfl
  rw [sourceUrl?, commit, branch]
  cases onBranch <;> rfl

/-- **Slugs from other hosts.** The URL of a path on a host has a slug exactly if the host ends in
`github.com` and the path names a repository, or if the path mentions a repository, that is if
`github.com` stands anywhere in it in front of a slash or colon and the name of a repository that
ends it. So these are the only repositories that links lead into. -/
theorem githubSlug?_address (slash : '/' ∉ host) (colon : ':' ∉ host)
    (address : Address host path url) :
    ((githubSlug? (String.ofList url)).isSome = true ↔
      "github.com".toList <:+ host ∧ NamesRepository (trimEnd path) ∨
        MentionsRepository (trimEnd path)) ∧
    ∀ repo : Repository, repo.slug = githubSlug? (String.ofList url) →
      ∀ canonical file start stop onBranch,
        (repo.sourceUrl? canonical file start stop onBranch).isSome = true →
          "github.com".toList <:+ host ∧ NamesRepository (trimEnd path) ∨
            MentionsRepository (trimEnd path) := by
  have read := isSome_githubSlug?_iff slash colon address
  refine ⟨read, fun repo same canonical file start stop onBranch link => ?_⟩
  by_contra none
  rw [← read, ← same, Option.not_isSome_iff_eq_none] at none
  rw [sourceUrl?_of_slug_eq_none none] at link
  cases link

/-- The path of a mirror mentions the repository that it mirrors. -/
theorem githubSlug?_address_mirror :
    let host := "gitlab.com".toList
    let path := "mirrors/github.com:octo/widgets/ ".toList
    '/' ∉ host ∧ ':' ∉ host ∧
      Address host path "git@gitlab.com:mirrors/github.com:octo/widgets/ ".toList ∧
      ¬"github.com".toList <:+ host ∧ MentionsRepository (trimEnd path) := by
  intro host path
  have slash : '/' ∉ host := by decide
  have colon : ':' ∉ host := by decide
  have other : ¬"github.com".toList <:+ host := by decide
  have written : "git@gitlab.com:mirrors/github.com:octo/widgets/ ".toList =
      "git".toList ++ '@' :: (host ++ ':' :: path) := by decide +kernel
  have address : Address host path "git@gitlab.com:mirrors/github.com:octo/widgets/ ".toList := by
    rw [written]
    exact .shell "git".toList (by decide) (by decide)
  have found : (githubSlug? "git@gitlab.com:mirrors/github.com:octo/widgets/ ").isSome = true := by
    decide +kernel
  have read := (githubSlug?_address slash colon address).1.1 found
  exact ⟨slash, colon, address, other, read.resolve_left fun owned => other owned.1⟩

/-- A host whose name only ends like the one of all links gives a slug, and links lead to where that
slug belongs. -/
theorem githubSlug?_address_lookalike :
    let host := "notgithub.com".toList
    (host.all fun c => c ≠ '/' && c ≠ ':' && c ≠ '@' && !isBlank c) = true ∧
      host ≠ "github.com".toList ∧ ¬".github.com".toList <:+ host ∧
      Address host "octo/widgets.git".toList "https://notgithub.com/octo/widgets.git".toList ∧
      githubSlug? "https://notgithub.com/octo/widgets.git" = some "octo/widgets" ∧
      sourceUrl? ⟨⟨"/r"⟩, some "octo/widgets", none, some "main"⟩ (fun _ => none) ⟨"/r/a.cs"⟩ ⟨1, 4⟩
        ⟨1, 9⟩ true = some "https://github.com/octo/widgets/tree/main/a.cs#L1C4" :=
  ⟨by decide, by decide, by decide, .web, by decide +kernel, by decide +kernel⟩

end Markers.Repository
