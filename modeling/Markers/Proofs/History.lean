import Markers.History
import Markers.Proofs.Json.Record
import Markers.Proofs.SortedMap
import Markers.Proofs.Text

/-!
# Histories and their texts

A history `Fits` when its numbers have 64 bits. It is then read back from its text
(`parse?_render`), whatever its timestamps and names. What a text gives fits
(`fits_of_parse?`), so every history that is read can be written and read again.
-/

namespace Markers

namespace ProjectCount

/-- That the numbers of a count have 64 bits. -/
structure Fits (count : ProjectCount) : Prop where
  total : count.total < Json.word
  kinds : ∀ n ∈ count.kinds.values, n < Json.word

theorem plain_toJson (count : ProjectCount) : Json.Plain count.toJson := by
  simp only [toJson, Json.plain_ofFields, List.forall_mem_cons, List.forall_mem_map]
  exact ⟨.string _, .natural _, fun _ _ => .natural _, by simp⟩

/-- The numbers by keyword are read from an object that has them in any order. -/
theorem kindsOfJson?_of_perm {kinds : SortedMap String Nat} {entries : List (String × Nat)}
    (fits : ∀ n ∈ kinds.values, n < Json.word) (perm : entries.Perm kinds.entries) :
    kindsOfJson? (.ofFields (entries.map fun kind => (kind.1, .natural kind.2))) = some kinds := by
  rw [kindsOfJson?, Json.entries?_ofFields]
  simp only [bind, Option.bind_some]
  rw [mapM_map_eq_some]
  · exact congrArg some (SortedMap.ofList_of_perm perm)
  · intro kind mem
    have small : kind.2 < Json.word := fits kind.2 (List.mem_map_of_mem (perm.mem_iff.1 mem))
    rw [Json.naturalIn?_eq_some.2 ⟨rfl, small⟩]
    rfl

/-- The three fields of a count under their names. -/
theorem readRecord?_toJson (count : ProjectCount) :
    count.toJson.readRecord? fields =
      some [some (.ofString count.name), some (.natural count.total),
        some (.ofFields (count.kinds.entries.map fun kind => (kind.1, .natural kind.2)))] := by
  rw [toJson, Json.readRecord?_ofFields]
  rfl

theorem ofJson?_toJson {count : ProjectCount} (fits : count.Fits) :
    ofJson? count.toJson = some count := by
  have total := Json.naturalIn?_eq_some.2 ⟨rfl, fits.total⟩
  rw [ofJson?, readRecord?_toJson]
  simp only [total, kindsOfJson?_of_perm fits.kinds (.refl _)]
  rfl

theorem listOfJson?_map_toJson {counts : List ProjectCount}
    (fits : ∀ count ∈ counts, count.Fits) :
    listOfJson? (.array (counts.map toJson)) = some counts := by
  exact mapM_map_eq_some fun count mem => ofJson?_toJson (fits count mem)

/-- The numbers by keyword that are read have 64 bits. -/
theorem fits_of_kindsOfJson? {value : Json} {kinds : SortedMap String Nat}
    (read : kindsOfJson? value = some kinds) : ∀ n ∈ kinds.values, n < Json.word := by
  intro n mem
  rw [kindsOfJson?] at read
  simp only [bind, Option.bind_eq_some_iff] at read
  obtain ⟨entries, _, read, numbers, same⟩ := read
  cases same
  obtain ⟨keyword, mem⟩ := SortedMap.mem_values_ofList mem
  obtain ⟨entry, _, found⟩ := exists_of_mem_mapM numbers mem
  obtain ⟨n, number, same⟩ := Option.map_eq_some_iff.1 found
  cases same
  exact (Json.naturalIn?_eq_some.1 number).2

/-- A count that is read fits. -/
theorem fits_of_ofJson? {value : Json} {count : ProjectCount} (read : ofJson? value = some count) :
    count.Fits := by
  unfold ofJson? at read
  split at read
  · next name total kinds _ =>
    simp only [bind, Option.bind_eq_some_iff] at read
    obtain ⟨_, _, _, number, read⟩ := read
    have total := (Json.naturalIn?_eq_some.1 number).2
    cases kinds with
    | none =>
      cases read
      exact ⟨total, by simp [SortedMap.empty, SortedMap.values]⟩
    | some kinds =>
      obtain ⟨_, numbers, same⟩ := Option.bind_eq_some_iff.1 read
      cases same
      exact ⟨total, fits_of_kindsOfJson? numbers⟩
  · simp at read

theorem fits_of_listOfJson? {value : Json} {counts : List ProjectCount}
    (read : listOfJson? value = some counts) : ∀ count ∈ counts, count.Fits := by
  intro count mem
  rw [listOfJson?] at read
  simp only [bind, Option.bind_eq_some_iff] at read
  obtain ⟨items, _, read⟩ := read
  obtain ⟨item, _, found⟩ := exists_of_mem_mapM read mem
  exact fits_of_ofJson? found

end ProjectCount

namespace History

/-- That all numbers of a history have 64 bits. -/
def Fits (history : History) : Prop :=
  ∀ counts ∈ history.snapshots.values, ∀ count ∈ counts, count.Fits

theorem fits_empty : empty.Fits := by
  intro counts mem
  simp [empty, SortedMap.empty, SortedMap.values] at mem

/-- A history with one more snapshot fits if both do. -/
theorem Fits.insert {history : History} (fits : history.Fits) {timestamp : String}
    {counts : List ProjectCount} (fits' : ∀ count ∈ counts, count.Fits) :
    Fits ⟨history.snapshots.insert timestamp counts⟩ := by
  intro stored mem
  rcases SortedMap.mem_values_insert mem with rfl | mem
  · exact fits'
  · exact fits stored mem

theorem plain_toJson (history : History) : Json.Plain history.toJson := by
  rw [toJson, Json.plain_ofFields, List.forall_mem_map]
  intro snapshot _
  rw [Json.plain_array, List.forall_mem_map]
  exact fun count _ => count.plain_toJson

theorem ofJson?_toJson {history : History} (fits : history.Fits) :
    ofJson? history.toJson = some history := by
  rw [ofJson?, toJson, Json.entries?_ofFields]
  simp only [bind, Option.bind_some]
  rw [mapM_map_eq_some]
  · exact congrArg some (congrArg mk (SortedMap.ofList_entries history.snapshots))
  · intro snapshot mem
    rw [ProjectCount.listOfJson?_map_toJson (fits snapshot.2 (List.mem_map_of_mem mem))]
    rfl

/-- The text of an object gives the history that the object gives: it has a brace, so it is not
blank. -/
theorem parse?_of_spelling {fields : List (JsonText × Json)} {text : List Char}
    (spelling : Json.Spelling (Json.object fields).tokens text) :
    parse? text = ofJson? (.object fields) := by
  have brace := spelling.brace_mem (Json.openObject_mem_tokens fields)
  rw [parse?, if_neg (Text.trim_ne_nil_of_mem brace (by decide)), Json.parse?_of_spelling spelling,
    Option.bind_some]

/-- A history is read back from its text. -/
theorem parse?_render {history : History} (fits : history.Fits) :
    parse? history.render.toList = some history := by
  have spelling := Json.spelling_pretty history.plain_toJson
  exact (parse?_of_spelling spelling).trans (ofJson?_toJson fits)

/-- A history that is read from a text fits. -/
theorem fits_of_parse? {text : List Char} {history : History}
    (read : parse? text = some history) : history.Fits := by
  unfold parse? at read
  split at read
  · cases read
    exact fits_empty
  · obtain ⟨value, _, read⟩ := Option.bind_eq_some_iff.1 read
    rw [ofJson?] at read
    simp only [bind, Option.bind_eq_some_iff] at read
    obtain ⟨entries, _, snapshots, counts, same⟩ := read
    cases same
    intro stored mem
    obtain ⟨timestamp, mem⟩ := SortedMap.mem_values_ofList mem
    obtain ⟨entry, _, found⟩ := exists_of_mem_mapM counts mem
    obtain ⟨_, read, same⟩ := Option.map_eq_some_iff.1 found
    cases same
    exact ProjectCount.fits_of_listOfJson? read

end History
end Markers
