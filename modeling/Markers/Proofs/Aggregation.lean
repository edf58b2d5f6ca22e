import Markers.Aggregation
import Markers.Proofs.Session
import Mathlib.Data.List.Perm.Basic

/-!
# Aggregation counts everything once

`ProjectCount.Counts` says that the numbers of a count are those of a list of findings. Adding a
finding, a file or another count keeps it. The reports of an aggregation split the files of the
session by the name of their owner (`perm_flatMap_filter`), so nothing is lost and nothing counted
twice (`Aggregation.build_complete`).
-/

namespace Markers

namespace ProjectCount

/-! ## Numbers by keyword -/

theorem get?_addKind (kinds : SortedMap String Nat) (keyword key : String) (n : Nat) :
    ((addKind kinds keyword n).get? key).getD 0 =
      (kinds.get? key).getD 0 + if key = keyword then n else 0 := by
  rw [addKind, SortedMap.get?_alter]
  by_cases same : key = keyword
  · simp [same]
  · simp [same]

theorem mem_keys_addKind {kinds : SortedMap String Nat} {keyword key : String} {n : Nat} :
    key ∈ (addKind kinds keyword n).keys ↔ key = keyword ∨ key ∈ kinds.keys :=
  SortedMap.mem_keys_alter

theorem sum_addKind (kinds : SortedMap String Nat) (keyword : String) (n : Nat) :
    sum (addKind kinds keyword n).values = sum kinds.values + n := by
  have sums := SortedMap.sum_values_alter id kinds keyword fun old => old.getD 0 + n
  rw [List.map_id, List.map_id, Option.map_id] at sums
  simp only [id_eq] at sums
  rw [addKind]
  omega

/-- The numbers by keyword with those of some entries added. -/
def addKinds (kinds : SortedMap String Nat) (entries : List (String × Nat)) :
    SortedMap String Nat :=
  entries.foldl (fun kinds entry => addKind kinds entry.1 entry.2) kinds

theorem get?_addKinds (kinds : SortedMap String Nat) {entries : List (String × Nat)} (key : String)
    (increasing : entries.Pairwise fun a b => compare a.1 b.1 = .lt) :
    ((addKinds kinds entries).get? key).getD 0 =
      (kinds.get? key).getD 0 + (SortedMap.lookup key entries).getD 0 := by
  induction entries generalizing kinds with
  | nil => rfl
  | cons entry entries ih =>
    obtain ⟨keyword, n⟩ := entry
    obtain ⟨below, rest⟩ := List.pairwise_cons.1 increasing
    have step : addKinds kinds ((keyword, n) :: entries) =
        addKinds (addKind kinds keyword n) entries := rfl
    rw [step, ih _ rest, get?_addKind, SortedMap.lookup_cons]
    by_cases same : key = keyword
    · subst same
      have none := SortedMap.lookup_eq_none_of_lt below
      simp [none]
    · simp [same]

theorem mem_keys_addKinds {kinds : SortedMap String Nat} {entries : List (String × Nat)}
    {key : String} :
    key ∈ (addKinds kinds entries).keys ↔ key ∈ kinds.keys ∨ key ∈ entries.map (·.1) :=
  SortedMap.mem_keys_foldl_alter

theorem sum_addKinds (kinds : SortedMap String Nat) (entries : List (String × Nat)) :
    sum (addKinds kinds entries).values = sum kinds.values + sum (entries.map (·.2)) := by
  induction entries generalizing kinds with
  | nil => rfl
  | cons entry entries ih =>
    have step : addKinds kinds (entry :: entries) =
        addKinds (addKind kinds entry.1 entry.2) entries := rfl
    rw [step, ih, sum_addKind, List.map_cons, sum_cons, Nat.add_assoc]

/-- A finding counts under the keyword of its own kind only. -/
theorem ofKeyword_addFinding (count : ProjectCount) (a : Finding) (kind : Kind) :
    (count.addFinding a).ofKeyword kind.render =
      count.ofKeyword kind.render + if a.kind = kind then 1 else 0 := by
  show ((addKind count.kinds a.kind.render 1).get? kind.render).getD 0 = _
  rw [get?_addKind]
  simp only [ofKeyword, Kind.render_inj, eq_comm (a := kind)]

/-- A file adds to the number under a keyword as many as it has findings of that kind. -/
theorem ofKeyword_addFile (count : ProjectCount) (scan : FileScan) (kind : Kind) :
    (count.addFile scan).ofKeyword kind.render =
      count.ofKeyword kind.render + scan.countKind kind := by
  rw [addFile, FileScan.countKind]
  induction scan.findings generalizing count with
  | nil => rfl
  | cons a findings ih =>
    rw [List.foldl_cons, ih, ofKeyword_addFinding, List.countP_cons, Nat.add_assoc,
      Nat.add_comm (List.countP ..)]
    simp only [decide_eq_true_eq]

/-- An absorbed count adds its number to the one under each keyword. -/
theorem ofKeyword_absorb (count other : ProjectCount) (keyword : String) :
    (count.absorb other).ofKeyword keyword = count.ofKeyword keyword + other.ofKeyword keyword := by
  have added := get?_addKinds count.kinds keyword other.kinds.increasing
  rwa [← SortedMap.get?_eq_lookup] at added

/-! ## Counts of findings -/

theorem name_addFindings (count : ProjectCount) (findings : List Finding) :
    (findings.foldl addFinding count).name = count.name := by
  induction findings generalizing count with
  | nil => rfl
  | cons a findings ih => rw [List.foldl_cons, ih, addFinding]

theorem name_addFiles (count : ProjectCount) (scans : List FileScan) :
    (scans.foldl addFile count).name = count.name := by
  induction scans generalizing count with
  | nil => rfl
  | cons scan scans ih => rw [List.foldl_cons, ih, addFile, name_addFindings]

theorem name_absorbAll (counts : List ProjectCount) (count : ProjectCount) :
    (counts.foldl absorb count).name = count.name := by
  induction counts generalizing count with
  | nil => rfl
  | cons other counts ih => rw [List.foldl_cons, ih, absorb]

/-- The numbers of a count are those of some findings, with a number for each of the kinds. -/
structure Counts (count : ProjectCount) (kinds : List Kind) (findings : List Finding) : Prop where
  total : count.total = findings.length
  values : sum count.kinds.values = findings.length
  keys : ∀ keyword, keyword ∈ count.kinds.keys ↔ ∃ kind ∈ kinds, kind.render = keyword
  number : ∀ kind, count.ofKeyword kind.render = findings.countP fun a => a.kind = kind

theorem counts_zero (name : String) (kinds : List Kind) : (zero name kinds).Counts kinds [] where
  total := rfl
  values := by
    apply sum_eq_zero
    intro n mem
    obtain ⟨_, entry⟩ := SortedMap.mem_values_ofList mem
    obtain ⟨_, _, same⟩ := List.mem_map.1 entry
    exact (Prod.mk.inj same).2.symm
  keys := by
    intro keyword
    rw [zero, SortedMap.mem_keys_ofList, List.map_map, List.mem_map]
    rfl
  number := by
    intro kind
    rw [ofKeyword]
    cases found : (zero name kinds).kinds.get? kind.render with
    | none => rfl
    | some n =>
      obtain ⟨_, entry⟩ := SortedMap.mem_values_ofList (SortedMap.mem_values_of_get? found)
      obtain ⟨_, _, same⟩ := List.mem_map.1 entry
      exact (Prod.mk.inj same).2.symm

namespace Counts
variable {count other : ProjectCount} {kinds : List Kind} {findings findings' : List Finding}

/-- The order of the findings does not matter. -/
theorem perm (h : count.Counts kinds findings) (same : findings.Perm findings') :
    count.Counts kinds findings' where
  total := h.total.trans same.length_eq
  values := h.values.trans same.length_eq
  keys := h.keys
  number kind := (h.number kind).trans (same.countP_eq _)

theorem addFinding (h : count.Counts kinds findings) {a : Finding} (known : a.kind ∈ kinds) :
    (count.addFinding a).Counts kinds (findings ++ [a]) where
  total := by
    rw [List.length_append, ← h.total]
    rfl
  values := by
    show sum (addKind count.kinds a.kind.render 1).values = _
    rw [sum_addKind, h.values, List.length_append]
    rfl
  keys := by
    intro keyword
    show keyword ∈ (addKind count.kinds a.kind.render 1).keys ↔ _
    rw [mem_keys_addKind, h.keys, or_iff_right_iff_imp]
    rintro rfl
    exact ⟨a.kind, known, rfl⟩
  number := by
    intro kind
    rw [ofKeyword_addFinding, h.number, List.countP_append, List.countP_singleton]
    simp only [decide_eq_true_eq]

theorem addFindings (h : count.Counts kinds findings) {more : List Finding}
    (known : ∀ a ∈ more, a.kind ∈ kinds) :
    (more.foldl ProjectCount.addFinding count).Counts kinds (findings ++ more) := by
  induction more generalizing count findings with
  | nil =>
    rw [List.append_nil]
    exact h
  | cons a more ih =>
    obtain ⟨first, rest⟩ := List.forall_mem_cons.1 known
    rw [List.append_cons]
    exact ih (h.addFinding first) rest

/-- The counts of several files. -/
theorem addFiles (h : count.Counts kinds findings) {scans : List FileScan}
    (known : ∀ scan ∈ scans, ∀ a ∈ scan.findings, a.kind ∈ kinds) :
    (scans.foldl ProjectCount.addFile count).Counts kinds
      (findings ++ scans.flatMap FileScan.findings) := by
  induction scans generalizing count findings with
  | nil =>
    rw [List.flatMap_nil, List.append_nil]
    exact h
  | cons scan scans ih =>
    obtain ⟨first, rest⟩ := List.forall_mem_cons.1 known
    rw [List.flatMap_cons, ← List.append_assoc]
    exact ih (h.addFindings first) rest

theorem absorb (h : count.Counts kinds findings) (h' : other.Counts kinds findings') :
    (count.absorb other).Counts kinds (findings ++ findings') where
  total := by
    rw [List.length_append, ← h.total, ← h'.total]
    rfl
  values := by
    show sum (addKinds count.kinds other.kinds.entries).values = _
    rw [sum_addKinds, h.values, List.length_append, ← h'.values]
    rfl
  keys := by
    intro keyword
    show keyword ∈ (addKinds count.kinds other.kinds.entries).keys ↔ _
    rw [mem_keys_addKinds, h.keys]
    show _ ∨ keyword ∈ other.kinds.keys ↔ _
    rw [h'.keys, or_self]
  number kind := by
    rw [ofKeyword_absorb, h.number, h'.number, List.countP_append]

/-- The sum of several counts. -/
theorem absorbAll {ι : Type} {parts : List ι} {part : ι → ProjectCount} {of : ι → List Finding}
    (h : count.Counts kinds findings) (all : ∀ i ∈ parts, (part i).Counts kinds (of i)) :
    ((parts.map part).foldl ProjectCount.absorb count).Counts kinds
      (findings ++ parts.flatMap of) := by
  induction parts generalizing count findings with
  | nil =>
    rw [List.flatMap_nil, List.append_nil]
    exact h
  | cons i parts ih =>
    obtain ⟨first, rest⟩ := List.forall_mem_cons.1 all
    rw [List.flatMap_cons, ← List.append_assoc]
    exact ih (h.absorb first) rest

end Counts
end ProjectCount

namespace ProjectReport

/-- Sorting the findings of a file loses none. -/
theorem findings_sortFindings (scan : FileScan) :
    (sortFindings scan).findings.Perm scan.findings :=
  List.mergeSort_perm scan.findings _

theorem files_build (name : String) (kinds : List Kind) (scans : List FileScan) :
    (build name kinds scans).files.Perm (scans.map sortFindings) :=
  (List.mergeSort_perm scans _).map _

/-- A report counts the findings of its files. -/
theorem counts_build (name : String) {kinds : List Kind} {scans : List FileScan}
    (known : ∀ scan ∈ scans, ∀ a ∈ scan.findings, a.kind ∈ kinds) :
    (build name kinds scans).count.Counts kinds (scans.flatMap FileScan.findings) := by
  have same := List.mergeSort_perm scans fun a b => (compareFiles a b).isLE
  have counts := (ProjectCount.counts_zero name kinds).addFiles
    fun scan mem => known scan (same.mem_iff.1 mem)
  exact counts.perm (same.flatMap_right _)

theorem name_build (name : String) (kinds : List Kind) (scans : List FileScan) :
    (build name kinds scans).count.name = name :=
  ProjectCount.name_addFiles ..

end ProjectReport

/-- Of the parts of a list by a name of each element nothing is left over. -/
theorem perm_flatMap_filter {α : Type} (name : α → String) {names : List String} {l : List α}
    (nodup : names.Nodup) (named : ∀ a ∈ l, name a ∈ names) :
    (names.flatMap fun n => l.filter (name · == n)).Perm l := by
  induction names generalizing l with
  | nil =>
    cases l with
    | nil => rfl
    | cons a l => simpa using named a (List.mem_cons_self ..)
  | cons n names ih =>
    obtain ⟨fresh, nodup⟩ := List.nodup_cons.1 nodup
    have others := ih (l := l.filter (name · != n)) nodup (by
      intro a mem
      obtain ⟨mem, other⟩ := List.mem_filter.1 mem
      exact (List.mem_cons.1 (named a mem)).resolve_left (by simpa using other))
    have parts : (names.flatMap fun n' => l.filter (name · == n')) =
        names.flatMap fun n' => (l.filter (name · != n)).filter (name · == n') := by
      apply List.flatMap_congr
      intro n' mem
      rw [List.filter_filter]
      apply List.filter_congr
      intro a _
      by_cases same : name a = n'
      · have other : n' ≠ n := fun bad => fresh (bad ▸ mem)
        simp [same, other]
      · simp [same]
    rw [List.flatMap_cons, parts]
    exact (others.append_left _).trans (List.filter_append_perm _ l)

namespace ProjectMap

theorem deeper_eq_or (best : Option Project) (project : Project) :
    deeper best project = best ∨ deeper best project = some project := by
  unfold deeper
  split
  · exact .inr rfl
  · split
    · exact .inl rfl
    · exact .inr rfl

theorem mem_of_foldl_deeper {projects : List Project} {best : Option Project} {project : Project}
    (h : projects.foldl deeper best = some project) : best = some project ∨ project ∈ projects := by
  induction projects generalizing best with
  | nil => exact .inl h
  | cons first projects ih =>
    rcases ih h with same | mem
    · rcases deeper_eq_or best first with kept | taken
      · exact .inl (kept ▸ same)
      · obtain rfl := Option.some.inj (taken.symm.trans same)
        exact .inr (List.mem_cons_self ..)
    · exact .inr (List.mem_cons_of_mem _ mem)

/-- The owner of a path is one of the projects. -/
theorem mem_of_ownerOf? {map : ProjectMap} {path : Path} {project : Project}
    (h : map.ownerOf? path = some project) : project ∈ map.projects := by
  rcases mem_of_foldl_deeper h with bad | mem
  · simp at bad
  · exact (List.mem_filter.1 mem).1

end ProjectMap

namespace Aggregation
open ProjectReport

/-- A name is that of a report when a project has it or it is the name for files of none. -/
theorem mem_reportNames {map : ProjectMap} {name : String} :
    name ∈ reportNames map ↔ name ∈ map.names ∨ name = unassigned := by
  rw [reportNames, List.mem_append, List.mem_filter, SortedSet.mem_ofList, List.mem_singleton]
  by_cases same : name = unassigned
  · simp [same]
  · simp [same]

theorem nodup_reportNames (map : ProjectMap) : (reportNames map).Nodup := by
  rw [reportNames, List.nodup_append]
  refine ⟨(SortedSet.nodup_members _).filter _, List.pairwise_singleton _ _, ?_⟩
  intro a mem b mem'
  rw [List.mem_singleton.1 mem']
  simpa using (List.mem_filter.1 mem).2

/-- Every file has a report. -/
theorem ownerName_mem (map : ProjectMap) (scan : FileScan) :
    ownerName map scan ∈ reportNames map := by
  rw [mem_reportNames, ownerName]
  cases owner : map.ownerOf? scan.path with
  | none => exact .inr rfl
  | some project =>
    exact .inl (List.mem_map_of_mem (ProjectMap.mem_of_ownerOf? owner))

/-- The report with a name: on the files whose owner has it. -/
def reportOf (session : Session) (map : ProjectMap) (name : String) : ProjectReport :=
  ProjectReport.build name session.kinds.members (session.scans.filter (ownerName map · == name))

theorem projects_build (session : Session) (map : ProjectMap) :
    (build session map).projects = (reportNames map).map (reportOf session map) := rfl

/-- The findings of a report are those of the files it is on. -/
theorem counts_reportOf {session : Session} (sound : session.Sound) (map : ProjectMap)
    (name : String) :
    (reportOf session map name).count.Counts session.kinds.members
      ((session.scans.filter (ownerName map · == name)).flatMap FileScan.findings) := by
  apply ProjectReport.counts_build name
  intro scan mem
  exact sound.kinds scan (List.mem_filter.1 mem).1

/-- An aggregation of a session that loses nothing and counts nothing twice. -/
structure Complete (session : Session) (map : ProjectMap) (aggregation : Aggregation) : Prop where
  /-- The reports are those of the projects by name, and the one for files of none. -/
  names : ∃ names, aggregation.projects.map (·.count.name) = names ++ [unassigned] ∧
    names.Pairwise (fun a b => compare a b = .lt) ∧
    ∀ name, name ∈ names ↔ name ∈ map.names ∧ name ≠ unassigned
  /-- A file is in the report of its owner, and in no other one. -/
  owner : ∀ scan ∈ session.scans, ∃ report ∈ aggregation.projects,
    sortFindings scan ∈ report.files ∧ report.count.name = ownerName map scan ∧
      ∀ other ∈ aggregation.projects, sortFindings scan ∈ other.files → other = report
  /-- Together the reports have each file once, and nothing else. -/
  files : (aggregation.projects.flatMap ProjectReport.files).Perm (session.scans.map sortFindings)
  /-- The total of a report is the sum of its numbers, and the number of findings in its files;
  each number is that of the findings of a kind. -/
  totals : ∀ report ∈ aggregation.projects, report.count.total = sum report.count.kinds.values ∧
    report.count.total = sum (report.files.map FileScan.size) ∧
    ∀ kind, report.count.ofKeyword kind.render =
      sum (report.files.map fun scan => scan.countKind kind)
  /-- All counts have numbers for the kinds of the session and no other ones. -/
  keys : ∀ count, count = aggregation.total ∨ count ∈ aggregation.snapshot → ∀ keyword,
    keyword ∈ count.kinds.keys ↔ ∃ kind ∈ session.kinds.members, kind.render = keyword
  total : aggregation.total.total = session.total
  number : ∀ kind, aggregation.total.ofKeyword kind.render = session.countKind kind

theorem names_build (session : Session) (map : ProjectMap) :
    (build session map).projects.map (·.count.name) = reportNames map := by
  rw [projects_build, List.map_map]
  conv => rhs; rw [← List.map_id (reportNames map)]
  exact List.map_congr_left fun name _ => ProjectReport.name_build ..

/-- A report has the name of a project or that for files of none. -/
theorem name_of_mem_build {session : Session} {map : ProjectMap} {report : ProjectReport}
    (mem : report ∈ (build session map).projects) :
    report.count.name ∈ map.names ∨ report.count.name = unassigned := by
  rw [← mem_reportNames, ← names_build session map]
  exact List.mem_map_of_mem mem

theorem name_total (session : Session) (map : ProjectMap) :
    (build session map).total.name = "Total" :=
  ProjectCount.name_absorbAll ..

/-- What is in a report are the files of its name. -/
theorem mem_files_reportOf {session : Session} {map : ProjectMap} {name : String}
    {scan : FileScan} (mem : sortFindings scan ∈ (reportOf session map name).files) :
    ownerName map scan = name := by
  have mem := (ProjectReport.files_build ..).mem_iff.1 mem
  obtain ⟨scan', filtered, same⟩ := List.mem_map.1 mem
  have path : (sortFindings scan').path = (sortFindings scan).path := by rw [same]
  change scan'.path = scan.path at path
  have owner : ownerName map scan' = ownerName map scan := by
    rw [ownerName, ownerName, path]
  rw [← owner]
  exact eq_of_beq (List.mem_filter.1 filtered).2

theorem owner_build (session : Session) (map : ProjectMap) :
    ∀ scan ∈ session.scans, ∃ report ∈ (build session map).projects,
      sortFindings scan ∈ report.files ∧ report.count.name = ownerName map scan ∧
        ∀ other ∈ (build session map).projects, sortFindings scan ∈ other.files →
          other = report := by
  intro scan mem
  rw [projects_build]
  have filtered : scan ∈ session.scans.filter (ownerName map · == ownerName map scan) :=
    List.mem_filter.2 ⟨mem, beq_self_eq_true _⟩
  refine ⟨reportOf session map (ownerName map scan), List.mem_map_of_mem (ownerName_mem map scan),
    ?_, ProjectReport.name_build .., fun other mem' within => ?_⟩
  · exact (ProjectReport.files_build ..).mem_iff.2 (List.mem_map_of_mem filtered)
  · obtain ⟨name, _, rfl⟩ := List.mem_map.1 mem'
    rw [mem_files_reportOf within]

theorem files_build (session : Session) (map : ProjectMap) :
    ((build session map).projects.flatMap ProjectReport.files).Perm
      (session.scans.map sortFindings) := by
  have parts := perm_flatMap_filter (ownerName map) (l := session.scans) (nodup_reportNames map)
    fun scan _ => ownerName_mem map scan
  rw [projects_build, List.flatMap_map]
  refine List.Perm.trans ?_ (parts.map sortFindings)
  rw [List.map_flatMap]
  exact List.Perm.flatMap_left _ fun name _ => ProjectReport.files_build ..

/-- The total counts all findings of the session. -/
theorem counts_total {session : Session} (sound : session.Sound) (map : ProjectMap) :
    (build session map).total.Counts session.kinds.members session.findings := by
  have parts := perm_flatMap_filter (ownerName map) (l := session.scans) (nodup_reportNames map)
    fun scan _ => ownerName_mem map scan
  have total : (build session map).total = ((reportNames map).map fun name =>
      (reportOf session map name).count).foldl ProjectCount.absorb
        (.zero "Total" session.kinds.members) := by
    rw [build, List.map_map]
    rfl
  have sum := (ProjectCount.counts_zero "Total" session.kinds.members).absorbAll
    fun name (_ : name ∈ reportNames map) => counts_reportOf sound map name
  rw [total]
  refine sum.perm ?_
  rw [List.nil_append, ← List.flatMap_assoc]
  exact parts.flatMap_right _

/-- What is summed up over the files of a report is summed up over those of its name. -/
theorem sum_files_reportOf (session : Session) (map : ProjectMap) (name : String)
    {size : FileScan → Nat} (sorted : ∀ scan, size (sortFindings scan) = size scan) :
    sum ((reportOf session map name).files.map size) =
      sum ((session.scans.filter (ownerName map · == name)).map size) := by
  have files := (ProjectReport.files_build name session.kinds.members
    (session.scans.filter (ownerName map · == name))).map size
  rw [reportOf, sum_perm files, List.map_map]
  exact congrArg sum (List.map_congr_left fun scan _ => sorted scan)

/-- The numbers of a report are those of the findings in its files. -/
theorem totals_reportOf {session : Session} (sound : session.Sound) (map : ProjectMap)
    (name : String) :
    (reportOf session map name).count.total =
        sum ((reportOf session map name).files.map FileScan.size) ∧
      ∀ kind, (reportOf session map name).count.ofKeyword kind.render =
        sum ((reportOf session map name).files.map fun scan => scan.countKind kind) := by
  have counts := counts_reportOf sound map name
  constructor
  · rw [counts.total, length_flatMap, sum_files_reportOf]
    · rfl
    · exact fun scan => (findings_sortFindings scan).length_eq
  · intro kind
    rw [counts.number, countP_flatMap, sum_files_reportOf]
    · rfl
    · exact fun scan => (findings_sortFindings scan).countP_eq _

/-- Aggregation loses nothing and counts nothing twice, whichever scans a session has recorded and
whatever the projects are called. -/
theorem build_complete (scans : List FileScan) (map : ProjectMap) :
    Complete (Session.ofScans scans) map (build (Session.ofScans scans) map) := by
  have sound := Session.sound_ofScans scans
  generalize Session.ofScans scans = session at sound
  have total := counts_total sound map
  constructor
  case names =>
    refine ⟨_, names_build session map, ?_, ?_⟩
    · exact (SortedSet.ofList map.names).increasing.filter _
    · intro name
      rw [List.mem_filter, SortedSet.mem_ofList, decide_eq_true_eq]
  case owner => exact owner_build session map
  case files => exact files_build session map
  case totals =>
    intro report mem
    obtain ⟨name, _, rfl⟩ := List.mem_map.1 mem
    have counts := counts_reportOf sound map name
    exact ⟨counts.total.trans counts.values.symm, totals_reportOf sound map name⟩
  case keys =>
    intro count one
    rcases one with rfl | mem
    · exact total.keys
    · obtain ⟨report, reported, rfl⟩ := List.mem_map.1 mem
      obtain ⟨name, _, rfl⟩ := List.mem_map.1 reported
      exact (counts_reportOf sound map name).keys
  case total =>
    rw [total.total, sound.total, Session.findings, length_flatMap]
    rfl
  case number =>
    intro kind
    rw [total.number, Session.findings, countP_flatMap]
    rfl

end Aggregation
end Markers
