import Markers.Filter
import Markers.Proofs.Path

/-!
# Supported paths

The key of a path has no dot (`Family.dot_not_mem_keyOf`): an extension begins behind the last dot
of a file name, and a name without an extension has a dot at most in front, which is left out. So it
makes no difference that `ofPath?` looks a key up without a leading dot while `supports` takes it as
it is (`Family.ofPath?_eq`), and whatever a filter accepts has a family (`Filter.exists_ofPath?`).
-/

namespace Markers

namespace Family

theorem withoutDot_cons (rest : List Char) :
    withoutDot (String.ofList ('.' :: rest)) = String.ofList rest := by
  simp [withoutDot]

theorem withoutDot_of_not_mem {text : String} (plain : '.' ∉ text.toList) :
    withoutDot text = text := by
  unfold withoutDot
  split
  next first => simp [first] at plain
  next => rfl

/-- The key of a path has no dot. -/
theorem dot_not_mem_keyOf (p : Path) : '.' ∉ (keyOf p).toList := by
  rw [keyOf, Path.extension?]
  cases p.fileName? with
  | none => simp
  | some name =>
    rw [Option.bind_some]
    rcases Path.exists_last_dot name.toList with plain | ⟨stem, after, split, last⟩
    · simpa [Path.cutName_of_not_mem plain, withoutDot_of_not_mem plain] using plain
    · rw [split, Path.cutName_of_dot stem last]
      by_cases hidden : stem = []
      · have spelled : name = String.ofList ('.' :: after) := by
          rw [← String.ofList_toList (s := name), split, hidden, List.nil_append]
        simpa only [hidden, if_true, Option.map_none, Option.map_some, Option.getD_some, spelled,
          withoutDot_cons, String.toList_ofList] using last
      · simpa only [hidden, if_false, Option.map_some, String.toList_ofList] using last

/-- The family of a path is the one that lists its key as it is. -/
theorem ofPath?_eq (p : Path) : ofPath? p = withKey? (keyOf p) := by
  rw [ofPath?, ofKey?, withoutDot_of_not_mem (dot_not_mem_keyOf p)]

/-- A path is supported exactly if it has a family. -/
theorem supports_iff {p : Path} : supports p = true ↔ ∃ family, ofPath? p = some family := by
  rw [supports, ofPath?_eq, Option.isSome_iff_exists]

end Family

/-- A path that a filter accepts has a family. -/
theorem Filter.exists_ofPath? {filter : Filter} {path : Path} (kept : filter.accepts path = true) :
    ∃ family, Family.ofPath? path = some family := by
  simp only [accepts, Bool.and_eq_true] at kept
  exact Family.supports_iff.1 kept.1.1

end Markers
