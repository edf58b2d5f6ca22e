import Markers.Proofs.Report.Markdown
import Markers.Proofs.Aggregation
import Markers.Proofs.Text.Anchor

/-!
# Links to sections

Each project has a section in the report and a link to it, which names the section by an anchor. The
anchors of an aggregation are those of the names of its reports (`anchors_build`), so they are all
there and all different exactly if the names are in what an anchor keeps of them
(`nodup_anchors_iff`). A link leads to every heading with its anchor, among them the three headings
that are in each report, and to none if its anchor is empty (`targets_eq_singleton_iff`).
`render_anchors` puts this together.
-/

namespace Markers

namespace Aggregation
open Text

/-- The anchors of the reports are those of their names. -/
theorem anchors_build (session : Session) (map : ProjectMap) :
    (build session map).projects.map ProjectReport.anchor = (reportNames map).map anchor := by
  rw [projects_build, List.map_map]
  rfl

theorem anchor_of_mem_build {session : Session} {map : ProjectMap} {report : ProjectReport}
    (mem : report ∈ (build session map).projects) : report.anchor = anchor report.count.name := by
  obtain ⟨name, _, rfl⟩ := List.mem_map.1 mem
  rw [ProjectReport.name_build]
  rfl

/-- No anchor is empty, and all are different, exactly if every name has something for an anchor and
no two names have the same. -/
theorem nodup_anchors_iff (session : Session) (map : ProjectMap) :
    (∀ report ∈ (build session map).projects, report.anchor ≠ "") ∧
        ((build session map).projects.map ProjectReport.anchor).Nodup ↔
      (∀ name ∈ reportNames map, ∃ c ∈ name.toList, ∃ a, Writes c a) ∧
        (reportNames map).Pairwise fun name name' => ¬SharesAnchor name name' := by
  refine and_congr ?_ ?_
  · have anchors := anchors_build session map
    rw [← List.forall_mem_map (f := ProjectReport.anchor) (P := (· ≠ "")), anchors,
      List.forall_mem_map]
    exact forall₂_congr fun name _ => exists_writes_iff.symm
  · rw [anchors_build, List.Nodup, List.pairwise_map]
    exact List.Pairwise.iff fun name name' => not_congr anchor_eq_anchor_iff

end Aggregation

namespace Report
open Aggregation Text

/-- The headings that are in each report. -/
def fixedHeadings : List String :=
  ["TO-DOs", "Summary", "Projects"]

/-- The headings of a report, the sections of the projects under their names. -/
def headings (aggregation : Aggregation) : List String :=
  fixedHeadings ++ aggregation.projects.map (·.count.name)

/-- The headings that a link to an anchor may lead to. A link without an anchor, `(#)`, leads to no
heading. -/
def targets (aggregation : Aggregation) (target : String) : List String :=
  if target = "" then []
  else (headings aggregation).filter fun heading => anchor heading = target

theorem headings_build (session : Session) (map : ProjectMap) :
    headings (build session map) = fixedHeadings ++ reportNames map := by
  rw [headings, names_build]

/-- Of a list of different elements a filter leaves one exactly if it refuses all others. -/
theorem filter_eq_singleton_iff {α : Type} {l : List α} {p : α → Bool} {a : α} (nodup : l.Nodup)
    (mem : a ∈ l) (kept : p a = true) : l.filter p = [a] ↔ ∀ b ∈ l, p b = true → b = a := by
  constructor
  · intro one b mem' kept'
    have inside := List.mem_filter.2 ⟨mem', kept'⟩
    rw [one] at inside
    exact List.mem_singleton.1 inside
  · intro same
    have all : l.filter p = List.replicate (l.filter p).length a := by
      refine List.eq_replicate_of_mem fun b inside => ?_
      exact same b (List.mem_filter.1 inside).1 (List.mem_filter.1 inside).2
    have most : (l.filter p).length ≤ 1 := by
      have nodup := nodup.filter p
      rw [all] at nodup
      exact List.nodup_replicate.1 nodup
    have least : 0 < (l.filter p).length := List.length_pos_of_mem (List.mem_filter.2 ⟨mem, kept⟩)
    rw [all, Nat.le_antisymm most least]
    rfl

/-- The link of a project leads to its own section alone exactly if its name has something for an
anchor, and none of the headings that are in each report has the same, and no other project. -/
theorem targets_eq_singleton_iff {session : Session} {map : ProjectMap} {name : String}
    (mem : name ∈ reportNames map) :
    targets (build session map) (anchor name) = [name] ↔
      (∃ c ∈ name.toList, ∃ a, Writes c a) ∧
        (∀ heading ∈ fixedHeadings, ¬SharesAnchor heading name) ∧
        ∀ name' ∈ reportNames map, SharesAnchor name' name → name' = name := by
  by_cases empty : anchor name = ""
  · have none := anchor_eq_empty_iff.1 empty
    rw [targets, if_pos empty]
    refine iff_of_false (List.cons_ne_nil _ _).symm ?_
    rintro ⟨⟨c, mem, a, writes⟩, _⟩
    exact none c mem a writes
  have some : ∃ c ∈ name.toList, ∃ a, Writes c a := exists_writes_iff.2 empty
  have one := filter_eq_singleton_iff (p := fun heading => decide (anchor heading = anchor name))
    (nodup_reportNames map) mem (decide_eq_true rfl)
  rw [targets, if_neg empty, headings_build, List.filter_append, and_iff_right some]
  simp only [decide_eq_true_eq, anchor_eq_anchor_iff] at one
  rw [← one]
  constructor
  · intro single
    have own : name ∈ (reportNames map).filter fun heading => anchor heading = anchor name :=
      List.mem_filter.2 ⟨mem, decide_eq_true rfl⟩
    rcases List.append_eq_singleton_iff.1 single with ⟨none, rest⟩ | ⟨_, none⟩
    · refine ⟨fun heading fixed shares => ?_, rest⟩
      exact List.filter_eq_nil_iff.1 none heading fixed
        (decide_eq_true (anchor_eq_anchor_iff.2 shares))
    · rw [none] at own
      cases own
  · rintro ⟨others, rest⟩
    have none :
        fixedHeadings.filter (fun heading => decide (anchor heading = anchor name)) = [] := by
      refine List.filter_eq_nil_iff.2 fun heading fixed shares => ?_
      exact others heading fixed (anchor_eq_anchor_iff.1 (of_decide_eq_true shares))
    rw [none, rest, List.nil_append]

/-- **Where links to projects lead.** The links stand at the top of a report, one for each project,
and the sections follow in the same order. The anchor of a project is empty exactly if no character
of its name is written in anchors, and two are equal exactly if the names agree in those that are,
but for case and for dash and space. So all anchors are there and all are different exactly if each
name has such a character and no two names agree in that way; and a link leads to one section, the
one of its project, exactly if its name has such a character and agrees with no other one and with
none of the headings that are in each report. -/
theorem render_anchors (session : Session) (map : ProjectMap) (options : Options) :
    let aggregation := build session map
    (∃ charts links, (render aggregation options).toList =
      "# TO-DOs\n\n".toList ++ aggregation.projects.flatMap (fun report => line (bullet report)) ++
        "\n## Summary\n\n".toList ++ charts ++ summaryTable aggregation ++
        "\n## Projects\n".toList ++ aggregation.projects.flatMap (projectText options) ++ links) ∧
    (∀ report ∈ aggregation.projects,
      report.anchor = "" ↔ ∀ c ∈ report.count.name.toList, ∀ a, ¬Writes c a) ∧
    (∀ report ∈ aggregation.projects, ∀ other ∈ aggregation.projects,
      report.anchor = other.anchor ↔ SharesAnchor report.count.name other.count.name) ∧
    ((∀ report ∈ aggregation.projects, report.anchor ≠ "") ∧
        (aggregation.projects.map ProjectReport.anchor).Nodup ↔
      (∀ name ∈ reportNames map, ∃ c ∈ name.toList, ∃ a, Writes c a) ∧
        (reportNames map).Pairwise fun name name' => ¬SharesAnchor name name') ∧
    ∀ report ∈ aggregation.projects,
      targets aggregation report.anchor = [report.count.name] ↔
        (∃ c ∈ report.count.name.toList, ∃ a, Writes c a) ∧
          (∀ heading ∈ fixedHeadings, ¬SharesAnchor heading report.count.name) ∧
          ∀ name ∈ reportNames map, SharesAnchor name report.count.name →
            name = report.count.name := by
  intro aggregation
  refine ⟨exists_parts aggregation options, ?_, ?_, nodup_anchors_iff session map, ?_⟩
  · intro report mem
    rw [anchor_of_mem_build mem, anchor_eq_empty_iff]
  · intro report mem other mem'
    rw [anchor_of_mem_build mem, anchor_of_mem_build mem', anchor_eq_anchor_iff]
  · intro report mem
    have named : report.count.name ∈ reportNames map := by
      rw [← names_build session map]
      exact List.mem_map_of_mem mem
    rw [anchor_of_mem_build mem]
    exact targets_eq_singleton_iff named

/-- A dot is in no anchor, so two names of projects may differ in nothing else; and of some names
nothing is left, so their links lead to no section. -/
theorem render_anchors_dot :
    let map : ProjectMap :=
      ⟨[⟨"App.Tests", ⟨"a"⟩, none⟩, ⟨"AppTests", ⟨"b"⟩, none⟩, ⟨"日本", ⟨"c"⟩, none⟩]⟩
    let aggregation := build .empty map
    aggregation.projects.map ProjectReport.anchor = ["apptests", "apptests", "", "unassigned"] ∧
      ¬(aggregation.projects.map ProjectReport.anchor).Nodup ∧
      targets aggregation "apptests" = ["App.Tests", "AppTests"] ∧ targets aggregation "" = [] ∧
      aggregation.projects.map (fun report => String.ofList (bullet report)) =
        ["- [App.Tests](#apptests)", "- [AppTests](#apptests)", "- [日本](#)",
          "- [unassigned](#unassigned)"] := by
  intro map aggregation
  exact ⟨by decide +kernel, by decide +kernel, by decide +kernel, rfl, by decide +kernel⟩

end Report

end Markers
