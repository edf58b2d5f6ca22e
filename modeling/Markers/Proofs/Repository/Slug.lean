import Markers.Proofs.Text
import Markers.Repository
import Mathlib.Data.List.TakeWhile

/-!
# Slugs of remotes

A remote on the host is written in three ways, and what follows the slug may be `.git` and a slash.
In front of the host nothing can be taken for it (`findSlug?_append_cons`). The owner ends at the
first slash, and the name is what is left without the longest ending (`repositoryName?_append`),
which takes nothing from a name that does not itself end in `.git`. So the slug is read back from
every remote (`githubSlug?_remote`).
-/

namespace Markers.Repository
open Text

/-- What the URL of a remote has in front of the slug. -/
def remoteHosts : List String :=
  ["https://github.com/", "ssh://git@github.com/", "git@github.com:"]

/-- What the URL of a remote may have behind the slug. -/
def remoteEndings : List String :=
  ["", ".git", "/", ".git/"]

/-- That a text may be an owner or a name. -/
structure IsSlugPart (s : List Char) : Prop where
  nonempty : s ≠ []
  slash : '/' ∉ s
  solid : ∀ c ∈ s, isBlank c = false

variable {owner name front s slug : List Char} {ending : String}

theorem IsSlugPart.isSlugChar (part : IsSlugPart s) : ∀ c ∈ s, isSlugChar c = true := by
  intro c mem
  have other : c ≠ '/' := fun same => part.slash (same ▸ mem)
  rw [Repository.isSlugChar, part.solid c mem, Bool.not_false, Bool.and_true]
  exact decide_eq_true other

/-! ## Names -/

theorem withoutEnding?_append (s ending : List Char) :
    withoutEnding? ending (s ++ ending) = some s := by
  have last : ending.isSuffixOf (s ++ ending) = true :=
    List.isSuffixOf_iff_suffix.2 (List.suffix_append s ending)
  rw [withoutEnding?, if_pos last, List.length_append, Nat.add_sub_cancel, List.take_left]

theorem withoutEnding?_eq_none {ending : List Char} (other : ¬ending <:+ s) :
    withoutEnding? ending s = none :=
  if_neg (mt List.isSuffixOf_iff_suffix.1 other)

theorem not_suffix_of_last {t : List Char} {c d : Char} (other : c ≠ d) :
    ¬t ++ [c] <:+ s ++ [d] := by
  rintro ⟨more, same⟩
  rw [← List.append_assoc] at same
  exact other (List.singleton_inj.1 (List.append_inj' same rfl).2)

/-- A name is what stands in front of the ending. -/
theorem repositoryName?_append (part : IsSlugPart name) (bare : ¬".git".toList <:+ name)
    (mem : ending ∈ remoteEndings) : repositoryName? (name ++ ending.toList) = some name := by
  have whole : (!name.isEmpty && name.all isSlugChar) = true := by
    rw [List.all_eq_true.2 part.isSlugChar]
    simp [part.nonempty]
  have first (rest : List (List Char)) : (name :: rest).find?
      (fun name => !name.isEmpty && name.all isSlugChar) = some name :=
    List.find?_cons_of_pos whole
  have inside (ending : List Char) (slash : '/' ∈ ending) : withoutEnding? ending name = none :=
    withoutEnding?_eq_none fun last => part.slash (last.subset slash)
  rw [repositoryName?]
  simp only [remoteEndings, List.mem_cons, List.not_mem_nil, or_false] at mem
  -- each ending that is tried before the right one does not fit
  rcases mem with rfl | rfl | rfl | rfl
  · have alone : withoutEnding? "".toList name = some name := by
      simpa using withoutEnding?_append name []
    simp only [String.toList_empty, List.append_nil, List.filterMap_cons,
      inside ".git/".toList (by decide), withoutEnding?_eq_none bare, inside "/".toList (by decide)]
    simp only [String.toList_empty] at alone
    rw [alone]
    exact first _
  · have slashed : ¬".git".toList ++ ['/'] <:+ name ++ ".gi".toList ++ ['t'] :=
      not_suffix_of_last (by decide)
    rw [List.append_assoc] at slashed
    have none : withoutEnding? ".git/".toList (name ++ ".git".toList) = none :=
      withoutEnding?_eq_none slashed
    simp only [List.filterMap_cons, none, withoutEnding?_append]
    exact first _
  · have slashed : ¬".git/".toList <:+ name ++ "/".toList := by
      rintro ⟨more, same⟩
      have split : ".git/".toList = ".git".toList ++ "/".toList := rfl
      rw [split, ← List.append_assoc] at same
      exact bare ⟨more, List.append_cancel_right same⟩
    have unslashed : ¬".gi".toList ++ ['t'] <:+ name ++ ['/'] :=
      not_suffix_of_last (by decide)
    have none : withoutEnding? ".git".toList (name ++ "/".toList) = none :=
      withoutEnding?_eq_none unslashed
    simp only [List.filterMap_cons, withoutEnding?_eq_none slashed, none, withoutEnding?_append]
    exact first _
  · simp only [List.filterMap_cons, withoutEnding?_append]
    exact first _

/-! ## Slugs -/

/-- The slug is read where it stands behind the host. -/
theorem slugAfterHost?_append {separator : Char} (separates : separator = '/' ∨ separator = ':')
    (part : IsSlugPart owner) (part' : IsSlugPart name) (bare : ¬".git".toList <:+ name)
    (mem : ending ∈ remoteEndings) :
    slugAfterHost? (separator :: (owner ++ '/' :: (name ++ ending.toList))) =
      some (owner ++ '/' :: name) := by
  have stops : isSlugChar '/' = false := by decide
  have taken : (owner ++ '/' :: (name ++ ending.toList)).takeWhile isSlugChar = owner := by
    rw [takeWhile_append_cons stops, List.takeWhile_eq_self_iff.2 part.isSlugChar]
  have left : (owner ++ '/' :: (name ++ ending.toList)).dropWhile isSlugChar =
      '/' :: (name ++ ending.toList) := by
    rw [dropWhile_append_cons stops, List.dropWhile_eq_nil_iff.2 part.isSlugChar, List.nil_append]
  obtain ⟨c, rest, rfl⟩ := List.exists_cons_of_ne_nil part.nonempty
  rw [slugAfterHost?, if_pos separates, taken, left]
  simp only [repositoryName?_append part' bare mem, Option.map_some]

theorem findSlug?_host (found : slugAfterHost? s = some slug) :
    findSlug? ("github.com".toList ++ s) = some slug := by
  have here : "github.com".toList.isPrefixOf? ("github.com".toList ++ s) = some s :=
    List.isPrefixOf?_eq_some_iff_append_eq.2 rfl
  rw [show "github.com".toList ++ s = 'g' :: ("ithub.com".toList ++ s) from rfl] at here ⊢
  rw [findSlug?, here, Option.bind_some, found]

/-- The host does not begin in a short text in front of a character that it does not have. -/
theorem findSlug?_append_cons {c : Char} (other : c ∉ "github.com".toList)
    (short : front.length < 10) : findSlug? (front ++ c :: s) = findSlug? s := by
  have absent {t : List Char} (short : t.length < 10) :
      "github.com".toList.isPrefixOf? (t ++ c :: s) = none := by
    rw [isPrefixOf?_append_cons other, Option.map_eq_none_iff, Option.eq_none_iff_forall_ne_some]
    intro rest found
    have length := congrArg List.length (List.isPrefixOf?_eq_some_iff_append_eq.1 found)
    rw [List.length_append, show "github.com".toList.length = 10 from rfl] at length
    omega
  induction front with
  | nil =>
    have none := absent (t := []) short
    rw [List.nil_append] at none ⊢
    rw [findSlug?, none, Option.bind_none]
  | cons d front ih =>
    have none := absent short
    rw [List.cons_append] at none ⊢
    rw [findSlug?, none, Option.bind_none]
    exact ih (Nat.lt_of_succ_lt short)

/-- In front of the host stands a short text that ends in a character which the host does not
have. -/
theorem exists_of_remoteHost {host : String} (mem : host ∈ remoteHosts) :
    ∃ before c separator, host.toList = before ++ c :: ("github.com".toList ++ [separator]) ∧
      c ∉ "github.com".toList ∧ before.length < 10 ∧ (separator = '/' ∨ separator = ':') := by
  simp only [remoteHosts, List.mem_cons, List.not_mem_nil, or_false] at mem
  rcases mem with rfl | rfl | rfl
  · exact ⟨"https:/".toList, '/', '/', by decide, by decide, by decide, .inl rfl⟩
  · exact ⟨"ssh://git".toList, '@', '/', by decide, by decide, by decide, .inl rfl⟩
  · exact ⟨"git".toList, '@', ':', by decide, by decide, by decide, .inr rfl⟩

/-- **Slugs are read back.** From the URL of a remote, whichever way it is written, and with any
blanks around it, the slug is the owner and the name that stand in it. -/
theorem githubSlug?_remote {front back owner name : List Char} {host ending : String}
    (blank : ∀ c ∈ front, isBlank c = true) (blank' : ∀ c ∈ back, isBlank c = true)
    (mem : host ∈ remoteHosts) (part : IsSlugPart owner) (part' : IsSlugPart name)
    (bare : ¬".git".toList <:+ name) (mem' : ending ∈ remoteEndings) :
    githubSlug? (String.ofList (front ++
        (host.toList ++ (owner ++ '/' :: (name ++ ending.toList))) ++ back)) =
      some (String.ofList (owner ++ '/' :: name)) := by
  have found : findSlug? (host.toList ++ (owner ++ '/' :: (name ++ ending.toList))) =
      some (owner ++ '/' :: name) := by
    obtain ⟨before, c, separator, split, other, short, separates⟩ := exists_of_remoteHost mem
    have slug := slugAfterHost?_append separates part part' bare mem'
    rw [split, List.append_assoc, List.cons_append, findSlug?_append_cons other short,
      List.append_assoc]
    exact findSlug?_host slug
  have solid : ∀ c ∈ host.toList ++ (owner ++ '/' :: (name ++ ending.toList)),
      isBlank c = false := by
    have hosts : ∀ host ∈ remoteHosts, host.toList.any isBlank = false := by decide
    have endings : ∀ ending ∈ remoteEndings, ending.toList.any isBlank = false := by decide
    intro c inside
    simp only [List.mem_append, List.mem_cons] at inside
    rcases inside with inside | inside | rfl | inside | inside
    · exact Bool.eq_false_iff.2 (List.any_eq_false.1 (hosts host mem) c inside)
    · exact part.solid c inside
    · decide
    · exact part'.solid c inside
    · exact Bool.eq_false_iff.2 (List.any_eq_false.1 (endings ending mem') c inside)
  rw [githubSlug?, String.toList_ofList, trim_of_solid blank blank' solid (by simp), found,
    Option.map_some]

/-- An owner that has the host in it, and a name made of endings. -/
theorem githubSlug?_remote_endings :
    (∀ c ∈ " \t".toList, isBlank c = true) ∧ (∀ c ∈ "\u3000\n".toList, isBlank c = true) ∧
      "git@github.com:" ∈ remoteHosts ∧ IsSlugPart "x:github.com:ü".toList ∧
      IsSlugPart ".git.git.g".toList ∧ ¬".git".toList <:+ ".git.git.g".toList ∧
      ".git/" ∈ remoteEndings ∧
      githubSlug? " \tgit@github.com:x:github.com:ü/.git.git.g.git/\u3000\n" =
        some "x:github.com:ü/.git.git.g" := by
  have front : ∀ c ∈ " \t".toList, isBlank c = true :=
    List.all_eq_true.1 (by decide)
  have back : ∀ c ∈ "\u3000\n".toList, isBlank c = true :=
    List.all_eq_true.1 (by decide)
  have host : "git@github.com:" ∈ remoteHosts := by decide
  have part (s : List Char) (nonempty : s ≠ []) (chars : s.all isSlugChar = true) :
      IsSlugPart s := by
    have each := List.all_eq_true.1 chars
    simp only [isSlugChar, Bool.and_eq_true, decide_eq_true_eq, Bool.not_eq_true'] at each
    exact ⟨nonempty, fun mem => (each _ mem).1 rfl, fun c mem => (each c mem).2⟩
  have owner : IsSlugPart "x:github.com:ü".toList := part _ (by decide) (by decide)
  have name : IsSlugPart ".git.git.g".toList := part _ (by decide) (by decide)
  have bare : ¬".git".toList <:+ ".git.git.g".toList := by decide
  have ending : ".git/" ∈ remoteEndings := by decide
  have read := githubSlug?_remote front back host owner name bare ending
  have url : String.ofList (" \t".toList ++ ("git@github.com:".toList ++ ("x:github.com:ü".toList ++
      '/' :: (".git.git.g".toList ++ ".git/".toList))) ++ "\u3000\n".toList) =
        " \tgit@github.com:x:github.com:ü/.git.git.g.git/\u3000\n" := by
    decide +kernel
  have slug : String.ofList ("x:github.com:ü".toList ++ '/' :: ".git.git.g".toList) =
      "x:github.com:ü/.git.git.g" := by
    decide +kernel
  rw [url, slug] at read
  exact ⟨front, back, host, owner, name, bare, ending, read⟩

end Markers.Repository
