import Markers.Proofs.Aggregation
import Markers.Proofs.Project
import Markers.Report.Markdown

/-!
# The order of files and projects

An aggregation depends on which scans were recorded and which projects were given, but not on their
order (`Aggregation.build_eq_of_perm`). Projects may share a name or a root: the reports are by name,
and the name of a file's owner does not depend on the order (`ownerName_eq_of_perm`).
-/

namespace Markers.Aggregation

theorem reportNames_eq_of_perm {projects projects' : List Project}
    (given : projects.Perm projects') :
    reportNames (.ofList projects) = reportNames (.ofList projects') := by
  have names : SortedSet.ofList (ProjectMap.ofList projects).names =
      SortedSet.ofList (ProjectMap.ofList projects').names := by
    apply SortedSet.ext
    intro name
    have perm := ((ProjectMap.perm_projects_ofList projects).trans given).trans
      (ProjectMap.perm_projects_ofList projects').symm
    rw [SortedSet.mem_ofList, SortedSet.mem_ofList]
    exact (perm.map Project.name).mem_iff
  rw [reportNames, reportNames, names]

/-- The report that a file is in does not depend on the order of the projects. -/
theorem ownerName_eq_of_perm {projects projects' : List Project}
    (given : projects.Perm projects') (scan : FileScan) :
    ownerName (.ofList projects) scan = ownerName (.ofList projects') scan := by
  rw [ownerName, ownerName, ProjectMap.name_ownerOf?_eq_of_perm given]

/-- Neither the order in which the scans of different files are recorded nor the order in which the
projects are given changes the session, the aggregation, its snapshot or a report on it. -/
theorem build_eq_of_perm {scans scans' : List FileScan} {projects projects' : List Project}
    (distinct : scans.Pairwise fun a b => a.path.same b.path = false)
    (recorded : scans.Perm scans') (given : projects.Perm projects') :
    let session := Session.ofScans scans
    let session' := Session.ofScans scans'
    let aggregation := build session (.ofList projects)
    let aggregation' := build session' (.ofList projects')
    session = session' ∧ aggregation = aggregation' ∧
      aggregation.snapshot = aggregation'.snapshot ∧
      ∀ options, Report.render aggregation options = Report.render aggregation' options := by
  intro session session' aggregation aggregation'
  have sessions : session = session' := Session.ofScans_eq_of_perm distinct recorded
  have owners : ownerName (.ofList projects) = ownerName (.ofList projects') :=
    funext (ownerName_eq_of_perm given)
  have aggregations : aggregation = aggregation' := by
    show build session _ = build session' _
    rw [sessions, build, build, reportNames_eq_of_perm given, owners]
  exact ⟨sessions, aggregations, congrArg snapshot aggregations,
    fun options => congrArg (Report.render · options) aggregations⟩

/-- A file in the folder of three projects, two of which share a name, and two files of no project. -/
theorem build_eq_of_perm_shared :
    let todo : Finding := ⟨"a", .todo, ⟨"src/x.cs"⟩, ⟨1, 4⟩, ⟨1, 10⟩⟩
    let bug : Finding := ⟨"b", .bug, ⟨"./run.sh"⟩, ⟨2, 3⟩, ⟨2, 8⟩⟩
    let scans : List FileScan := [⟨⟨"src/x.cs"⟩, [todo]⟩, ⟨⟨"./run.sh"⟩, [bug]⟩, ⟨⟨"run.sh"⟩, []⟩]
    let projects : List Project := [⟨"App", ⟨"src"⟩, some ⟨"src/App.csproj"⟩⟩,
      ⟨"Lib", ⟨"src"⟩, none⟩, ⟨"App", ⟨"src/"⟩, none⟩]
    (scans.Pairwise fun a b => a.path.same b.path = false) ∧ scans.Perm scans.reverse ∧
      projects.Perm projects.reverse ∧
      build (.ofScans scans) (.ofList projects) =
        build (.ofScans scans.reverse) (.ofList projects.reverse) := by
  intro todo bug scans projects
  have distinct : scans.Pairwise fun a b => a.path.same b.path = false := by decide
  have recorded : scans.Perm scans.reverse := scans.reverse_perm.symm
  have given : projects.Perm projects.reverse := projects.reverse_perm.symm
  exact ⟨distinct, recorded, given, (build_eq_of_perm distinct recorded given).2.1⟩

end Markers.Aggregation
