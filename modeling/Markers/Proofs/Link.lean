import Markers.Link
import Markers.Proofs.SortedMap

/-!
# What links resolve to

`LinkRegistry.addAll` adds links one after the other. An id is made of letters and digits, so a line
of the references defines one id only (`definitions_eq`), and an id keeps the first URL that was
added under it (`get?_addAll`). So every link has one definition, which is that of the first URL
with its id (`definitions_addAll`). That need not be its own: ids are hashes of 32 bits.
-/

namespace Markers

/-! ## Ids -/

theorem isAlphanum_base36Digit : ∀ n < 36, (base36Digit n).isAlphanum = true := by
  decide

theorem isAlphanum_of_mem_base36Digits {n : Nat} {c : Char} (mem : c ∈ base36Digits n) :
    c.isAlphanum = true := by
  fun_induction base36Digits n with
  | case1 => cases mem
  | case2 n _ ih =>
    rcases List.mem_cons.1 mem with rfl | mem
    · exact isAlphanum_base36Digit (n % 36) (Nat.mod_lt n (by decide))
    · exact ih mem

theorem isAlphanum_of_mem_linkId {url : String} {c : Char} (mem : c ∈ (linkId url).toList) :
    c.isAlphanum = true := by
  rw [linkId, base36, String.toList_ofList, Text.padStartWith] at mem
  rcases List.mem_append.1 mem with fill | digit
  · rw [(List.mem_replicate.1 fill).2]
    decide
  · exact isAlphanum_of_mem_base36Digits digit

theorem bracket_not_mem_linkId (url : String) : ']' ∉ (linkId url).toList :=
  fun mem => absurd (isAlphanum_of_mem_linkId mem) (by decide)

namespace LinkRegistry
variable {links : LinkRegistry} {id url : String} {calls : List (String × String)}

/-! ## Lines -/

/-- What stands in front of the URL of an id. -/
def label (id : String) : List Char :=
  '[' :: id.toList ++ "]: ".toList

/-- The line that gives an id its URL. -/
def definition (id url : String) : String :=
  "[" ++ id ++ "]: " ++ url

/-- The lines of the references that give an id a URL. -/
def definitions (links : LinkRegistry) (id : String) : List String :=
  links.references.filter fun line => (label id).isPrefixOf line.toList

theorem toList_definition (id url : String) :
    (definition id url).toList = label id ++ url.toList := by
  simp [definition, label]

/-- A text without brackets ends at the first one behind it. -/
theorem eq_of_bracket {a b rest rest' : List Char} (none : ']' ∉ a) (none' : ']' ∉ b)
    (same : a ++ ']' :: rest = b ++ ']' :: rest') : a = b := by
  have stops (s rest : List Char) (none : ']' ∉ s) :
      (s ++ ']' :: rest).takeWhile (· ≠ ']') = s := by
    have before : ∀ c ∈ s, decide (c ≠ ']') = true :=
      fun c mem => decide_eq_true fun same => none (same ▸ mem)
    rw [List.takeWhile_append_of_pos before]
    simp
  rw [← stops a rest none, same, stops b rest' none']

/-- A line gives one id a URL. -/
theorem label_prefix_definition {id' : String} (bare : ']' ∉ id.toList)
    (bare' : ']' ∉ id'.toList) : label id <+: (definition id' url).toList ↔ id' = id := by
  rw [toList_definition]
  constructor
  · rintro ⟨rest, same⟩
    simp only [label, List.cons_append, List.cons.injEq, true_and, List.append_assoc] at same
    exact String.toList_inj.1 (eq_of_bracket bare bare' same).symm
  · rintro rfl
    exact List.prefix_append _ _

/-! ## Registries -/

/-- That every URL is registered under its own id. -/
def Own (links : LinkRegistry) : Prop :=
  ∀ entry ∈ links.urls.entries, entry.1 = linkId entry.2

theorem own_empty : empty.Own := by
  intro entry mem
  cases mem

theorem own_alterEntries {entries : List (String × String)} (named : id = linkId url)
    (own : ∀ entry ∈ entries, entry.1 = linkId entry.2) :
    ∀ entry ∈ SortedMap.alterEntries id (fun old => old.getD url) entries,
      entry.1 = linkId entry.2 := by
  induction entries with
  | nil => simpa [SortedMap.alterEntries] using named
  | cons first entries ih =>
    obtain ⟨here, later⟩ := List.forall_mem_cons.1 own
    rw [SortedMap.alterEntries]
    split
    · exact List.forall_mem_cons.2 ⟨named, own⟩
    · exact List.forall_mem_cons.2 ⟨here, later⟩
    · exact List.forall_mem_cons.2 ⟨here, ih later⟩

theorem Own.add (own : links.Own) (title url : String) : (links.add title url).1.Own :=
  own_alterEntries rfl own

/-- The registry behind links that are added one after the other, and the links. -/
def addAll (links : LinkRegistry) : List (String × String) → LinkRegistry × List String
  | [] => (links, [])
  | (title, url) :: calls =>
    let added := links.add title url
    let rest := added.1.addAll calls
    (rest.1, added.2 :: rest.2)

theorem Own.addAll (own : links.Own) : (links.addAll calls).1.Own := by
  induction calls generalizing links with
  | nil => exact own
  | cons call calls ih => exact ih (own.add call.1 call.2)

theorem get?_add (links : LinkRegistry) (title url id : String) :
    (links.add title url).1.urls.get? id =
      if linkId url = id then some ((links.urls.get? id).getD url) else links.urls.get? id := by
  have altered := SortedMap.get?_alter links.urls (linkId url) id fun old => old.getD url
  simp only [Std.LawfulEqOrd.compare_eq_iff_eq] at altered
  refine altered.trans ?_
  by_cases same : linkId url = id
  · rw [if_pos same, if_pos same.symm, same]
  · rw [if_neg same, if_neg (Ne.symm same)]

/-- An id keeps its URL, or else gets the first one that is added under it. -/
theorem get?_addAll (links : LinkRegistry) (calls : List (String × String)) (id : String) :
    (links.addAll calls).1.urls.get? id =
      (links.urls.get? id).or ((calls.map (·.2)).find? fun url => linkId url == id) := by
  induction calls generalizing links with
  | nil => exact Option.or_none.symm
  | cons call calls ih =>
    obtain ⟨title, url⟩ := call
    let named : String → Bool := fun url => linkId url == id
    simp only [addAll, List.map_cons]
    rw [ih, get?_add]
    by_cases same : linkId url = id
    · have first : (url :: calls.map (·.2)).find? named = some url :=
        List.find?_cons_of_pos (beq_iff_eq.2 same)
      rw [if_pos same, first]
      cases links.urls.get? id <;> rfl
    · have later : (url :: calls.map (·.2)).find? named = (calls.map (·.2)).find? named :=
        List.find?_cons_of_neg (by simpa [named] using same)
      rw [if_neg same, later]

/-- The links of a sequence are those of its URLs. -/
theorem links_addAll (links : LinkRegistry) (calls : List (String × String)) :
    (links.addAll calls).2 =
      calls.map fun call => "[" ++ call.1 ++ "][" ++ linkId call.2 ++ "]" := by
  induction calls generalizing links with
  | nil => rfl
  | cons call calls ih => exact congrArg (_ :: ·) (ih _)

/-- The references give each id the URL that it is registered with. -/
theorem definitions_eq (own : links.Own) (bare : ']' ∉ id.toList) :
    links.definitions id = (links.urls.get? id).toList.map (definition id) := by
  have line : links.urls.entries.filter
      ((fun line => (label id).isPrefixOf line.toList) ∘ fun entry => definition entry.1 entry.2) =
        links.urls.entries.filter (·.1 == id) := by
    refine List.filter_congr fun entry mem => ?_
    have bare' : ']' ∉ entry.1.toList := own entry mem ▸ bracket_not_mem_linkId entry.2
    rw [Function.comp, Bool.eq_iff_iff, List.isPrefixOf_iff_prefix,
      label_prefix_definition bare bare', beq_iff_eq]
  have lines : links.references =
      (links.urls.entries.map fun entry => definition entry.1 entry.2).reverse := by
    rw [references, List.map_reverse]
    rfl
  rw [definitions, lines, List.filter_reverse, List.filter_map, line,
    SortedMap.filter_entries, List.map_map]
  cases links.urls.get? id <;> rfl

/-- The first element with the value of another one is that one, if all in front of it with this
value are. -/
theorem find?_eq_of_agree {α β : Type} [BEq β] [LawfulBEq β] (f : α → β) {before after : List α}
    {a : α} (agree : ∀ b ∈ before, f b = f a → b = a) :
    (before ++ a :: after).find? (fun b => f b == f a) = some a := by
  have here : (a :: after).find? (fun b => f b == f a) = some a :=
    List.find?_cons_of_pos (beq_self_eq_true (f a))
  rw [List.find?_append, here]
  cases found : before.find? fun b => f b == f a with
  | none => rfl
  | some b =>
    have same := List.find?_some found
    rw [agree b (List.mem_of_find?_eq_some found) (eq_of_beq same)]
    rfl

theorem exists_find?_eq {α β : Type} [BEq β] [LawfulBEq β] (f : α → β) (before after : List α)
    (a : α) : ∃ first, (before ++ a :: after).find? (fun b => f b == f a) = some first := by
  refine Option.isSome_iff_exists.1 (List.find?_isSome.2 ⟨a, ?_, beq_self_eq_true (f a)⟩)
  exact List.mem_append_right _ (List.mem_cons_self ..)

/-- The lines of the references, from the greatest id to the least. -/
theorem exists_references (own : links.Own) : ∃ urls : List String,
    links.references = urls.map (fun url => definition (linkId url) url) ∧
      (urls.map linkId).Pairwise fun a b => b < a := by
  have ids : links.urls.entries.map (fun entry => linkId entry.2) = links.urls.entries.map (·.1) :=
    List.map_congr_left fun entry mem => (own entry mem).symm
  refine ⟨links.urls.entries.reverse.map (·.2), ?_, ?_⟩
  · rw [references, List.map_map]
    refine List.map_congr_left fun entry mem => ?_
    rw [Function.comp, ← own entry (List.mem_reverse.1 mem)]
    rfl
  · rw [List.map_map]
    have back : links.urls.entries.reverse.map (linkId ∘ (·.2)) =
        (links.urls.entries.map (·.1)).reverse := by
      rw [← ids, List.map_reverse]
      rfl
    rw [back, List.pairwise_reverse, List.pairwise_map]
    exact links.urls.increasing.imp compareOfLessAndEq_eq_lt.1

/-- **Links resolve to the first URL with their id.** Whatever is added before and after a URL, its
link has its id, and that id has exactly one definition: the one of the first URL that was added
with this id, which is the URL itself unless another one was added before with the same id. The
references list all ids from the greatest to the least. -/
theorem definitions_addAll (before after : List (String × String)) (title url : String) :
    let calls := before ++ (title, url) :: after
    let added := empty.addAll calls
    added.2[before.length]? = some ("[" ++ title ++ "][" ++ linkId url ++ "]") ∧
      (∃ first, (calls.map (·.2)).find? (fun other => linkId other == linkId url) = some first ∧
        added.1.definitions (linkId url) = [definition (linkId url) first]) ∧
      ((∀ call ∈ before, linkId call.2 = linkId url → call.2 = url) →
        added.1.definitions (linkId url) = [definition (linkId url) url]) ∧
      ∃ urls : List String,
        added.1.references = urls.map (fun url => definition (linkId url) url) ∧
        (urls.map linkId).Pairwise fun a b => b < a := by
  intro calls added
  have own : added.1.Own := own_empty.addAll
  have urls : calls.map (·.2) = before.map (·.2) ++ url :: after.map (·.2) := by
    rw [List.map_append, List.map_cons]
  -- an id has the definition of the first URL with it
  have defines (first : String) (found : (calls.map (·.2)).find?
      (fun other => linkId other == linkId url) = some first) :
      added.1.definitions (linkId url) = [definition (linkId url) first] := by
    have registered : added.1.urls.get? (linkId url) = some first := by
      rw [get?_addAll]
      exact found
    rw [definitions_eq own (bracket_not_mem_linkId url), registered]
    rfl
  refine ⟨?_, ?_, fun agree => ?_, exists_references own⟩
  · rw [links_addAll, List.map_append, List.getElem?_append_right (by simp)]
    simp
  · obtain ⟨first, found⟩ := exists_find?_eq linkId (before.map (·.2)) (after.map (·.2)) url
    rw [← urls] at found
    exact ⟨first, found, defines first found⟩
  · apply defines url
    rw [urls]
    refine find?_eq_of_agree linkId fun other mem => ?_
    obtain ⟨call, called, rfl⟩ := List.mem_map.1 mem
    exact agree call called

/-- Two files with one name and one line. -/
theorem definitions_addAll_files :
    let a := "https://github.com/octo/widgets/tree/main/A/Program.cs#L1C4"
    let b := "https://github.com/octo/widgets/tree/main/B/Program.cs#L1C4"
    (∀ call ∈ [("Program.cs 1:4", a)], linkId call.2 = linkId b → call.2 = b) ∧
      (empty.addAll [("Program.cs 1:4", a), ("Program.cs 1:4", b)]).1.definitions (linkId b) =
        [definition (linkId b) b] := by
  intro a b
  have apart : linkId a ≠ linkId b := by decide +kernel
  have agree : ∀ call ∈ [("Program.cs 1:4", a)], linkId call.2 = linkId b → call.2 = b := by
    intro call mem same
    rw [List.mem_singleton.1 mem] at same
    exact absurd same apart
  exact ⟨agree, (definitions_addAll [("Program.cs 1:4", a)] [] "Program.cs 1:4" b).2.2.1 agree⟩

/-- Two files of one hash: both links have the id of the first URL. -/
theorem definitions_addAll_hash :
    let a := "https://github.com/octo/widgets/tree/main/Models/Order.cs#L36C4"
    let b := "https://github.com/octo/widgets/tree/main/App/TypeJob.cs#L36C4"
    let added := empty.addAll [("Order.cs 36:4", a), ("TypeJob.cs 36:4", b)]
    a ≠ b ∧ added.2 = ["[Order.cs 36:4][fg1fzf1]", "[TypeJob.cs 36:4][fg1fzf1]"] ∧
      added.1.references = [definition "fg1fzf1" a] := by
  decide +kernel

end LinkRegistry
end Markers
