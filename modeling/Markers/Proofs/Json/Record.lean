import Markers.Json.Record
import Markers.Proofs.Json.Reader
import Mathlib.Data.List.Forall2

/-!
# Records that were written

An object written with texts as keys is read back as its fields (`entries?_ofFields`), and a list
is read back when each of its elements is (`mapM_map_eq_some`, `mapM_of_forall₂`). The values of a
record are read in whatever order and under whichever names its fields are written
(`readRecord?_of_rendering`); a field that is given twice is refused (`fieldValue?_eq_none`).
-/

namespace Markers

section
variable {α β : Type} {l : List α}

/-- A list is read back when each of its elements is. -/
theorem mapM_map_eq_some {write : α → β} {read? : β → Option α}
    (each : ∀ a ∈ l, read? (write a) = some a) : (l.map write).mapM read? = some l := by
  induction l with
  | nil => rfl
  | cons a l ih =>
    obtain ⟨first, others⟩ := List.forall_mem_cons.1 each
    rw [List.map_cons, List.mapM_cons, first, ih others]
    rfl

/-- A list is read as another one when each of its elements is read as the one at its place. -/
theorem mapM_of_forall₂ {R : α → β → Prop} {read? : β → Option α} {m : List β}
    (each : ∀ a ∈ l, ∀ b, R a b → read? b = some a) (related : List.Forall₂ R l m) :
    m.mapM read? = some l := by
  induction related with
  | nil => rfl
  | @cons a b l m here _ ih =>
    obtain ⟨first, others⟩ := List.forall_mem_cons.1 each
    rw [List.mapM_cons, first b here, ih others]
    rfl

/-- Every element has a result. -/
theorem exists_of_mapM_mem {f : α → Option β} {results : List β} (all : l.mapM f = some results)
    {a : α} (mem : a ∈ l) : ∃ b ∈ results, f a = some b := by
  induction l generalizing results with
  | nil => cases mem
  | cons first l ih =>
    rw [List.mapM_cons] at all
    simp only [bind, Option.bind_eq_some_iff] at all
    obtain ⟨b, here, rest, others, same⟩ := all
    cases same
    rcases List.mem_cons.1 mem with rfl | mem
    · exact ⟨b, List.mem_cons_self .., here⟩
    · obtain ⟨b', mem', found⟩ := ih others mem
      exact ⟨b', List.mem_cons_of_mem _ mem', found⟩

theorem mapM_eq_none_of_mem {f : α → Option β} {a : α} (mem : a ∈ l) (stuck : f a = none) :
    l.mapM f = none := by
  refine Option.eq_none_iff_forall_ne_some.2 fun results all => ?_
  obtain ⟨b, _, found⟩ := exists_of_mapM_mem all mem
  rw [stuck] at found
  cases found

/-- Every result comes from an element. -/
theorem exists_of_mem_mapM {f : α → Option β} {results : List β} (all : l.mapM f = some results)
    {b : β} (mem : b ∈ results) : ∃ a ∈ l, f a = some b := by
  induction l generalizing results with
  | nil =>
    cases all
    simp at mem
  | cons a l ih =>
    rw [List.mapM_cons] at all
    simp only [bind, Option.bind_eq_some_iff] at all
    obtain ⟨first, here, rest, others, same⟩ := all
    cases same
    rcases List.mem_cons.1 mem with rfl | mem
    · exact ⟨a, List.mem_cons_self .., here⟩
    · obtain ⟨a', mem', found⟩ := ih others mem
      exact ⟨a', List.mem_cons_of_mem _ mem', found⟩

end

namespace Json

theorem entries?_ofFields (fields : List (String × Json)) :
    (ofFields fields).entries? = some fields := by
  rw [ofFields, entries?]
  exact mapM_map_eq_some fun _ _ => rfl

/-- Where the keys of an object are texts, each of its fields is read. -/
theorem exists_mem_entries? {fields : List (JsonText × Json)} {entries : List (String × Json)}
    (read : (object fields).entries? = some entries) {key : JsonText} {value : Json}
    (mem : (key, value) ∈ fields) : ∃ name, key = .text name ∧ (name, value) ∈ entries := by
  rw [entries?] at read
  obtain ⟨entry, mem, same⟩ := exists_of_mapM_mem read mem
  cases key with
  | text name =>
    cases same
    exact ⟨name, rfl, mem⟩
  | unpaired => cases same

theorem valuesOf_eq_nil {field : Field} {entries : List (String × Json)}
    (apart : ∀ entry ∈ entries, entry.1 ∉ field.names) : valuesOf field entries = [] := by
  rw [valuesOf, List.map_eq_nil_iff, List.filter_eq_nil_iff]
  intro entry mem
  simpa using apart entry mem

/-- A field under one of its names, when no other one is under any of them. -/
theorem fieldValue?_given {field : Field} {entries others : List (String × Json)} {key : String}
    {value : Json} (perm : entries.Perm ((key, value) :: others)) (named : key ∈ field.names)
    (apart : ∀ entry ∈ others, entry.1 ∉ field.names) :
    fieldValue? entries field = some (some value) := by
  have values : (valuesOf field entries).Perm (valuesOf field ((key, value) :: others)) :=
    (perm.filter _).map _
  have only : valuesOf field ((key, value) :: others) = [value] := by
    have behind := valuesOf_eq_nil apart
    rw [valuesOf] at behind ⊢
    rw [List.filter_cons_of_pos (by simpa using named), List.map_cons, behind]
  rw [only] at values
  rw [fieldValue?, values.eq_singleton]

/-- A field that is left out. -/
theorem fieldValue?_omitted {field : Field} {entries : List (String × Json)}
    (optional : field.optional = true) (apart : ∀ entry ∈ entries, entry.1 ∉ field.names) :
    fieldValue? entries field = some none := by
  rw [fieldValue?, valuesOf_eq_nil apart, optional]
  rfl

/-- A field that is given twice is refused. -/
theorem fieldValue?_eq_none {field : Field} {entries : List (String × Json)}
    {first second : String × Json} (mem : first ∈ entries) (mem' : second ∈ entries)
    (named : first.1 ∈ field.names) (named' : second.1 ∈ field.names) (other : first ≠ second) :
    fieldValue? entries field = none := by
  have kept (entry : String × Json) (mem : entry ∈ entries) (named : entry.1 ∈ field.names) :
      entry ∈ entries.filter fun entry => field.names.contains entry.1 :=
    List.mem_filter.2 ⟨mem, by simpa using named⟩
  have here := kept first mem named
  have there := kept second mem' named'
  rw [fieldValue?, valuesOf]
  generalize entries.filter (fun entry => field.names.contains entry.1) = given at here there
  match given with
  | [] => cases here
  | [entry] =>
    exact absurd ((List.mem_singleton.1 here).trans (List.mem_singleton.1 there).symm) other
  | _ :: _ :: _ => rfl

theorem readRecord?_object (described : List Field) (fields : List (JsonText × Json)) :
    (object fields).readRecord? described =
      (object fields).entries?.bind fun entries => described.mapM (fieldValue? entries) := by
  rw [readRecord?]
  · rfl
  · intro items same
    cases same

theorem readRecord?_ofFields (described : List Field) (fields : List (String × Json)) :
    (ofFields fields).readRecord? described = described.mapM (fieldValue? fields) := by
  rw [ofFields, readRecord?_object, ← ofFields, entries?_ofFields, Option.bind_some]

/-- The ways to write the fields of a record with their values: each under any of its names, and an
absent one not at all. -/
inductive FieldsRendering : List Field → List (Option Json) → List (String × Json) → Prop where
  | nil : FieldsRendering [] [] []
  | given {field : Field} {fields : List Field} {values : List (Option Json)}
    {rendered : List (String × Json)} {key : String} {value : Json} : key ∈ field.names →
    FieldsRendering fields values rendered →
    FieldsRendering (field :: fields) (some value :: values) ((key, value) :: rendered)
  | omitted {field : Field} {fields : List Field} {values : List (Option Json)}
    {rendered : List (String × Json)} : field.optional = true →
    FieldsRendering fields values rendered →
    FieldsRendering (field :: fields) (none :: values) rendered

theorem FieldsRendering.exists_field {fields : List Field} {values : List (Option Json)}
    {rendered : List (String × Json)} (rendering : FieldsRendering fields values rendered) :
    ∀ entry ∈ rendered, ∃ field ∈ fields, entry.1 ∈ field.names := by
  induction rendering with
  | nil => simp
  | given named _ ih =>
    refine List.forall_mem_cons.2 ⟨⟨_, List.mem_cons_self .., named⟩, fun entry mem => ?_⟩
    obtain ⟨field, listed, named⟩ := ih entry mem
    exact ⟨field, List.mem_cons_of_mem _ listed, named⟩
  | omitted _ _ ih =>
    intro entry mem
    obtain ⟨field, listed, named⟩ := ih entry mem
    exact ⟨field, List.mem_cons_of_mem _ listed, named⟩

/-- Where no two fields share a name, each is found among the others and among fields of no such
name. -/
theorem mapM_fieldValue?_of_rendering {fields : List Field} {values : List (Option Json)}
    {rendered others written : List (String × Json)}
    (apart : fields.Pairwise fun field field' => ∀ key ∈ field'.names, key ∉ field.names)
    (rendering : FieldsRendering fields values rendered)
    (foreign : ∀ entry ∈ others, ∀ field ∈ fields, entry.1 ∉ field.names)
    (perm : written.Perm (rendered ++ others)) :
    fields.mapM (fieldValue? written) = some values := by
  induction rendering generalizing others with
  | nil => rfl
  | @given field fields values rendered key value named rendering ih =>
    obtain ⟨first, apart⟩ := List.pairwise_cons.1 apart
    have here : fieldValue? written field = some (some value) := by
      refine fieldValue?_given perm named (List.forall_mem_append.2 ⟨fun entry mem => ?_, ?_⟩)
      · obtain ⟨field', listed, named'⟩ := rendering.exists_field entry mem
        exact first field' listed entry.1 named'
      · exact fun entry mem => foreign entry mem field (List.mem_cons_self ..)
    -- for the fields behind it, this one is one of the others
    have behind : ∀ entry ∈ (key, value) :: others, ∀ field ∈ fields, entry.1 ∉ field.names := by
      refine List.forall_mem_cons.2 ⟨fun field' listed named' => ?_, fun entry mem field' listed => ?_⟩
      · exact first field' listed key named' named
      · exact foreign entry mem field' (List.mem_cons_of_mem _ listed)
    rw [List.mapM_cons, here, ih apart behind (perm.trans List.perm_middle.symm)]
    rfl
  | @omitted field fields values rendered optional rendering ih =>
    obtain ⟨first, apart⟩ := List.pairwise_cons.1 apart
    have here : fieldValue? written field = some none := by
      refine fieldValue?_omitted optional fun entry mem => ?_
      rcases List.mem_append.1 (perm.mem_iff.1 mem) with mem | mem
      · obtain ⟨field', listed, named'⟩ := rendering.exists_field entry mem
        exact first field' listed entry.1 named'
      · exact foreign entry mem field (List.mem_cons_self ..)
    have behind : ∀ entry ∈ others, ∀ field ∈ fields, entry.1 ∉ field.names :=
      fun entry mem field' listed => foreign entry mem field' (List.mem_cons_of_mem _ listed)
    rw [List.mapM_cons, here, ih apart behind perm]
    rfl

/-- The values of a record are read however its fields are written. -/
theorem readRecord?_of_rendering {fields : List Field} {values : List (Option Json)}
    {rendered others written : List (String × Json)}
    (apart : fields.Pairwise fun field field' => ∀ key ∈ field'.names, key ∉ field.names)
    (rendering : FieldsRendering fields values rendered)
    (foreign : ∀ entry ∈ others, ∀ field ∈ fields, entry.1 ∉ field.names)
    (perm : written.Perm (rendered ++ others)) :
    (ofFields written).readRecord? fields = some values := by
  rw [readRecord?_ofFields]
  exact mapM_fieldValue?_of_rendering apart rendering foreign perm

@[simp] theorem plain_array {items : List Json} :
    Plain (array items) ↔ ∀ item ∈ items, Plain item := by
  constructor
  · intro plain
    cases plain with
    | array all => exact all
  · exact .array

@[simp] theorem plain_ofFields {fields : List (String × Json)} :
    Plain (ofFields fields) ↔ ∀ field ∈ fields, Plain field.2 := by
  constructor
  · intro plain field mem
    cases plain with
    | object all => exact all (.text field.1, field.2) (List.mem_map_of_mem mem)
  · intro all
    refine .object (List.forall_mem_map.2 ?_)
    exact all

theorem naturalIn?_eq_some {bound n : Nat} {value : Json} :
    value.naturalIn? bound = some n ↔ value = natural n ∧ n < bound := by
  cases value with
  | natural m =>
    rw [naturalIn?]
    by_cases small : m < bound
    · rw [if_pos small, Option.some.injEq, natural.injEq]
      constructor
      · rintro rfl
        exact ⟨rfl, small⟩
      · exact fun same => same.1
    · rw [if_neg small]
      constructor
      · simp
      · rintro ⟨same, less⟩
        cases same
        exact absurd less small
  | _ => simp [naturalIn?]

end Json
end Markers
