import Markers.Proofs.HistoryFile

/-!
# Histories of older files

The fields of a count have legacy names beside the current ones. `History.Rendering` are all the
documents that write a history: each count takes either name for each of its fields, in any order
and among any other fields, and may leave out its numbers by keyword when there are none. Each of
them loads as the history (`loadHistory_of_rendering`), however it is spelled. A document in which a
count gives a field under both names is refused.
-/

namespace Markers

namespace ProjectCount

/-- The current and the legacy name of the field with the name of a count. -/
def nameKeys : List String :=
  ["name", "ProjectName"]

/-- The current and the legacy name of the field with the total of a count. -/
def totalKeys : List String :=
  ["total", "TotalCount"]

/-- The current and the legacy name of the field with the numbers by keyword of a count. -/
def kindsKeys : List String :=
  ["kinds", "LevelCount"]

/-- The ways to write the numbers by keyword: a field with an object that has them in any order, or
no field when there are none. -/
inductive KindsRendering (kinds : SortedMap String Nat) : List (String × Json) → Prop where
  | given {key : String} {entries : List (String × Nat)} : key ∈ kindsKeys →
    entries.Perm kinds.entries →
    KindsRendering kinds [(key, .ofFields (entries.map fun kind => (kind.1, .natural kind.2)))]
  | omitted : kinds = .empty → KindsRendering kinds []

/-- The ways to write a count: an object with its fields under either name, in any order among
fields of other names. -/
inductive Rendering (count : ProjectCount) : Json → Prop where
  | mk {nameKey totalKey : String} {kinds unknown written : List (String × Json)} :
    nameKey ∈ nameKeys → totalKey ∈ totalKeys → KindsRendering count.kinds kinds →
    (∀ field ∈ unknown, field.1 ∉ nameKeys ++ totalKeys ++ kindsKeys) →
    written.Perm ((nameKey, .ofString count.name) :: (totalKey, .natural count.total) ::
      (kinds ++ unknown)) →
    Rendering count (.ofFields written)

theorem fields_eq : fields = [⟨nameKeys, false⟩, ⟨totalKeys, false⟩, ⟨kindsKeys, true⟩] :=
  rfl

/-- The numbers by keyword are read from their field, or are none if there is no field. -/
theorem KindsRendering.exists_value {kinds : SortedMap String Nat}
    {rendered : List (String × Json)} (rendering : KindsRendering kinds rendered)
    (fits : ∀ n ∈ kinds.values, n < Json.word) :
    ∃ value, Json.FieldsRendering [⟨kindsKeys, true⟩] [value] rendered ∧
      value.elim (some .empty) kindsOfJson? = some kinds := by
  cases rendering with
  | given key perm => exact ⟨_, .given key .nil, kindsOfJson?_of_perm fits perm⟩
  | omitted empty => exact ⟨_, .omitted rfl .nil, congrArg some empty.symm⟩

/-- A count is read however it is written. -/
theorem ofJson?_of_rendering {count : ProjectCount} (fits : count.Fits) (value : Json)
    (rendering : count.Rendering value) : ofJson? value = some count := by
  cases rendering with
  | @mk nameKey totalKey rendered unknown written name total kinds foreign perm =>
    obtain ⟨value, kinds, read⟩ := kinds.exists_value fits.kinds
    have apart : fields.Pairwise fun field field' => ∀ key ∈ field'.names, key ∉ field.names := by
      decide
    have foreign : ∀ entry ∈ unknown, ∀ field ∈ fields, entry.1 ∉ field.names := by
      intro entry mem
      have other := foreign entry mem
      simp only [List.mem_append, not_or] at other
      simp only [fields_eq, List.forall_mem_cons]
      exact ⟨other.1.1, other.1.2, other.2, by simp⟩
    have record := Json.readRecord?_of_rendering apart (.given name (.given total kinds)) foreign perm
    have number := Json.naturalIn?_eq_some.2 ⟨rfl, fits.total⟩
    rw [ofJson?, record]
    simp only [number, Json.ofString, Json.text?, bind, Option.bind_some]
    cases value with
    | none =>
      have empty : SortedMap.empty = count.kinds := Option.some.inj read
      simp only [empty]
      rfl
    | some value =>
      rw [Option.elim_some] at read
      simp only [read]
      rfl

/-- That two fields of an object are the same one under its two names. -/
def GivesTwice (written : List (JsonText × Json)) : Prop :=
  ∃ keys ∈ [nameKeys, totalKeys, kindsKeys], ∃ key ∈ keys, ∃ key' ∈ keys, key ≠ key' ∧
    ∃ value value', (.text key, value) ∈ written ∧ (.text key', value') ∈ written

theorem ofJson?_of_givesTwice {written : List (JsonText × Json)} (twice : GivesTwice written) :
    ofJson? (.object written) = none := by
  obtain ⟨keys, described, key, named, key', named', other, value, value', mem, mem'⟩ := twice
  obtain ⟨field, listed, rfl⟩ : ∃ field ∈ fields, field.names = keys := by
    simpa [fields_eq, eq_comm] using described
  have refused : (Json.object written).readRecord? fields = none := by
    rw [Json.readRecord?_object, Option.bind_eq_none_iff]
    intro entries read
    obtain ⟨_, same, mem⟩ := Json.exists_mem_entries? read mem
    obtain ⟨_, same', mem'⟩ := Json.exists_mem_entries? read mem'
    cases same
    cases same'
    refine mapM_eq_none_of_mem listed (Json.fieldValue?_eq_none mem mem' named named' ?_)
    exact fun same => other (congrArg Prod.fst same)
  rw [ofJson?, refused]

end ProjectCount

namespace History
open ProjectCount (GivesTwice)

/-- The ways to write the counts under a timestamp. -/
inductive SnapshotRendering (snapshot : String × List ProjectCount) : String × Json → Prop where
  | mk {items : List Json} : List.Forall₂ ProjectCount.Rendering snapshot.2 items →
    SnapshotRendering snapshot (snapshot.1, .array items)

/-- The ways to write a history: an object with its snapshots in any order. -/
inductive Rendering (history : History) : Json → Prop where
  | mk {snapshots : List (String × List ProjectCount)} {written : List (String × Json)} :
    snapshots.Perm history.snapshots.entries → List.Forall₂ SnapshotRendering snapshots written →
    Rendering history (.ofFields written)

/-- A history is read however it is written. -/
theorem ofJson?_of_rendering {history : History} (fits : history.Fits) {value : Json}
    (rendering : history.Rendering value) : ofJson? value = some history := by
  cases rendering with
  | @mk snapshots written perm rendered =>
    have read : written.mapM (fun entry =>
        (ProjectCount.listOfJson? entry.2).map fun counts => (entry.1, counts)) =
          some snapshots := by
      refine mapM_of_forall₂ (fun snapshot mem entry snapshotRendered => ?_) rendered
      have fits := fits snapshot.2 (List.mem_map_of_mem (perm.mem_iff.1 mem))
      cases snapshotRendered with
      | @mk items rendered =>
        have counts : ProjectCount.listOfJson? (.array items) = some snapshot.2 :=
          mapM_of_forall₂ (fun count mem => ProjectCount.ofJson?_of_rendering (fits count mem))
            rendered
        rw [counts]
        rfl
    rw [ofJson?, Json.entries?_ofFields]
    simp only [bind, Option.bind_some, read]
    exact congrArg some (congrArg mk (SortedMap.ofList_of_perm perm))

/-- That a document is an object in which some count gives a field under both its names. -/
inductive Ambiguous : Json → Prop where
  | mk {written : List (JsonText × Json)} {timestamp : JsonText} {items : List Json}
    {count : List (JsonText × Json)} : (timestamp, .array items) ∈ written →
    .object count ∈ items → GivesTwice count → Ambiguous (.object written)

theorem ofJson?_of_ambiguous {value : Json} (ambiguous : Ambiguous value) :
    ofJson? value = none := by
  cases ambiguous with
  | @mk written timestamp items count mem mem' twice =>
    have refused : ProjectCount.listOfJson? (.array items) = none :=
      mapM_eq_none_of_mem mem' (ProjectCount.ofJson?_of_givesTwice twice)
    rw [ofJson?, Option.bind_eq_bind, Option.bind_eq_none_iff]
    intro entries read
    obtain ⟨name, _, mem⟩ := Json.exists_mem_entries? read mem
    rw [mapM_eq_none_of_mem mem (by rw [refused]; rfl)]
    rfl

end History

namespace FileSystem

/-- **Old and new files.** A file whose text spells a document of a history loads as that history,
and one whose document is ambiguous is refused as no history. -/
theorem loadHistory_of_rendering {fs : FileSystem} {path : Path} {place : List String}
    {text : List Char} {value : Json} (resolved : fs.resolve path = .ok place)
    (file : fs.content? place = some (.file (Text.encode text)))
    (spelling : Json.Spelling value.tokens text) :
    (∀ history : History, history.Fits → history.Rendering value →
      fs.loadHistory path = .ok history) ∧
    (History.Ambiguous value → fs.loadHistory path = .error (.history path)) := by
  have loaded := loadHistory_of_text resolved file (Text.decode?_encode text)
  refine ⟨fun history fits rendering => ?_, fun ambiguous => ?_⟩
  · have read := History.ofJson?_of_rendering fits rendering
    cases rendering
    rw [loaded, History.parse?_of_spelling spelling, ← Json.ofFields, read, Option.elim_some]
  · have refused := History.ofJson?_of_ambiguous ambiguous
    cases ambiguous
    rw [loaded, History.parse?_of_spelling spelling, refused, Option.elim_none]

/-- A file that mixes both names, orders and an unknown field, and one with two totals. -/
theorem loadHistory_of_rendering_mixed :
    let kinds : SortedMap String Nat := .ofList [("NOTE", 1), ("TODO", 1)]
    let counts : List ProjectCount := [⟨"Core", 2, kinds⟩, ⟨"Tools", 0, .empty⟩]
    let history : History := ⟨.ofList [("2023-11-05", counts), ("2024-01-01", [])]⟩
    let core : Json := .ofFields [("owner", .ofFields [("name", .null)]),
      ("LevelCount", .ofFields [("TODO", .natural 1), ("NOTE", .natural 1)]),
      ("TotalCount", .natural 2), ("name", .ofString "Core")]
    let tools : Json := .ofFields [("ProjectName", .ofString "Tools"), ("total", .natural 0)]
    let mixed : Json := .ofFields [("2024-01-01", .array []), ("2023-11-05", .array [core, tools])]
    let twice : Json := .ofFields [("2024-01-01", .array [.ofFields [("name", .ofString "Core"),
      ("total", .natural 2), ("TotalCount", .natural 2)]])]
    let fs : FileSystem := ⟨.folder [("mixed", .file (Text.encode mixed.pretty.toList)),
      ("twice", .file (Text.encode twice.pretty.toList))], []⟩
    (history.Fits ∧ history.Rendering mixed ∧ fs.loadHistory ⟨"mixed"⟩ = .ok history) ∧
      History.Ambiguous twice ∧ fs.loadHistory ⟨"twice"⟩ = .error (.history ⟨"twice"⟩) := by
  intro kinds counts history core tools mixed twice fs
  have entries : history.snapshots.entries = [("2023-11-05", counts), ("2024-01-01", [])] := by
    decide +kernel
  have sorted : kinds.entries = [("NOTE", 1), ("TODO", 1)] := by decide +kernel
  have fits : history.Fits := by
    intro stored mem
    rw [SortedMap.values, entries] at mem
    simp only [List.map_cons, List.map_nil, List.mem_cons, List.not_mem_nil, or_false] at mem
    rcases mem with rfl | rfl
    · have small : ∀ n ∈ kinds.values, n < Json.word := by
        rw [SortedMap.values, sorted]
        decide
      simp only [counts, List.forall_mem_cons]
      exact ⟨⟨by decide, small⟩, ⟨by decide, by simp [SortedMap.empty, SortedMap.values]⟩, by simp⟩
    · simp
  have ofCore : ProjectCount.Rendering ⟨"Core", 2, kinds⟩ core := by
    have perm : [("TODO", 1), ("NOTE", 1)].Perm kinds.entries := sorted ▸ .swap ..
    have foreign : ∀ field ∈ [("owner", Json.ofFields [("name", .null)])],
        field.1 ∉ ProjectCount.nameKeys ++ ProjectCount.totalKeys ++ ProjectCount.kindsKeys := by
      simp [ProjectCount.nameKeys, ProjectCount.totalKeys, ProjectCount.kindsKeys]
    have legacy : "LevelCount" ∈ ProjectCount.kindsKeys := by decide
    have name : "name" ∈ ProjectCount.nameKeys := by decide
    have total : "TotalCount" ∈ ProjectCount.totalKeys := by decide
    have order := List.reverse_perm [("name", Json.ofString "Core"), ("TotalCount", .natural 2),
      ("LevelCount", .ofFields [("TODO", .natural 1), ("NOTE", .natural 1)]),
      ("owner", .ofFields [("name", .null)])]
    exact .mk name total (.given legacy perm) foreign order
  have ofTools : ProjectCount.Rendering ⟨"Tools", 0, .empty⟩ tools := by
    have name : "ProjectName" ∈ ProjectCount.nameKeys := by decide
    have total : "total" ∈ ProjectCount.totalKeys := by decide
    exact .mk name total (.omitted rfl) (by simp) (.refl _)
  have rendering : history.Rendering mixed := by
    have perm : [("2024-01-01", []), ("2023-11-05", counts)].Perm history.snapshots.entries :=
      entries ▸ .swap ..
    exact .mk perm (.cons (.mk .nil) (.cons (.mk (.cons ofCore (.cons ofTools .nil))) .nil))
  have ambiguous : History.Ambiguous twice := by
    refine .mk (List.mem_singleton.2 rfl) (List.mem_singleton.2 rfl) ⟨ProjectCount.totalKeys,
      by simp, "total", by decide, "TotalCount", by decide, by decide, .natural 2, .natural 2, ?_⟩
    simp
  have plain : mixed.Plain := by simp [mixed, core, tools, Json.ofString]
  have plain' : twice.Plain := by simp [twice, Json.ofString]
  have resolved : fs.resolve ⟨"mixed"⟩ = .ok ["mixed"] := by rfl
  have resolved' : fs.resolve ⟨"twice"⟩ = .ok ["twice"] := by rfl
  have old := loadHistory_of_rendering resolved rfl (Json.spelling_pretty plain)
  have refused := loadHistory_of_rendering resolved' rfl (Json.spelling_pretty plain')
  exact ⟨⟨fits, rendering, old.1 history fits rendering⟩, ambiguous, refused.2 ambiguous⟩

end FileSystem
end Markers
