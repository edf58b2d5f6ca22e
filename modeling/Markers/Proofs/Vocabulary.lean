import Markers.Proofs.Aggregation
import Markers.Proofs.Scan.Run

/-!
# One vocabulary

The vocabulary is there twice, in what is read at the start of a text (`Keyword.readings`) and in
what names a kind (`Kind.ofToken?`). Both know the same keywords (`InVocabulary`), and a kind is
read from its own token only. So every keyword that a scan matches names a kind, and no match is
dropped for its keyword (`Step.Named`); and as two kinds have two tokens, a count that goes by
tokens counts each kind for itself (`vocabulary_agrees`).
-/

namespace Markers

namespace Keyword

/-- The keywords of the vocabulary. -/
inductive InVocabulary : List Char → Prop where
  | todo : InVocabulary "TODO".toList
  | note : InVocabulary "NOTE".toList
  | bug : InVocabulary "BUG".toList
  | kill : InVocabulary "KILL".toList
  | urgent : InVocabulary "URGENT".toList
  /-- `NET` with at most two digits. -/
  | net {digits : List Char} (short : digits.length ≤ 2) (all : ∀ c ∈ digits, c.isDigit = true) :
      InVocabulary ("NET".toList ++ digits)

theorem inVocabulary_token (kind : Kind) : InVocabulary kind.token := by
  cases kind with
  | todo => exact .todo
  | note => exact .note
  | bug => exact .bug
  | kill => exact .kill
  | urgent => exact .urgent
  | net digits => exact .net digits.token_spec.1 digits.token_spec.2

theorem Reads.inVocabulary {keyword : List Char} (reads : Reads keyword) :
    InVocabulary keyword := by
  obtain ⟨kind, _, rfl⟩ := reads.exists_token
  exact inVocabulary_token kind

theorem InVocabulary.exists_ofToken? {s : List Char} (h : InVocabulary s) :
    ∃ kind, Kind.ofToken? s = some kind := by
  cases h with
  | net short all => exact (reads_net short all).named
  | _ => exact ⟨_, rfl⟩

/-- A keyword is the longest one in itself, so it is read as a whole. -/
theorem read?_token (kind : Kind) : read? kind.token = some (kind.token, []) := by
  have longest : IsLongest kind.token (kind.token ++ []) := by
    intro _ front
    rw [List.append_nil] at front
    exact front.length_le
  have read := read?_of_isLongest longest
  rwa [List.append_nil] at read

theorem exists_ofToken?_iff {s : List Char} :
    (∃ kind, Kind.ofToken? s = some kind) ↔ InVocabulary s := by
  constructor
  · rintro ⟨kind, named⟩
    rw [← Kind.token_of_ofToken? named]
    exact inVocabulary_token kind
  · exact InVocabulary.exists_ofToken?

theorem read?_whole_iff {s : List Char} : read? s = some (s, []) ↔ InVocabulary s := by
  constructor
  · exact fun read => (read?_spec read).1.inVocabulary
  · intro h
    obtain ⟨kind, named⟩ := h.exists_ofToken?
    rw [← Kind.token_of_ofToken? named]
    exact read?_token kind

theorem whole_mem_readings_iff {s : List Char} : (s, []) ∈ readings s ↔ InVocabulary s := by
  constructor
  · exact fun mem => (readings_spec mem).1.inVocabulary
  · intro h
    have first := head?_readings s
    rw [read?_whole_iff.2 h] at first
    exact List.mem_of_mem_head? first

end Keyword

theorem Kind.ofToken?_eq_some_iff {s : List Char} {kind : Kind} :
    ofToken? s = some kind ↔ kind.token = s := by
  constructor
  · exact token_of_ofToken?
  · rintro rfl
    exact ofToken?_token kind

/-! ## Keywords in scans -/

namespace Scan
open Text

/-- What a step does with the keyword of its match: it names a kind, so the match is dropped only if
a letter follows the keyword, its line goes on without a colon, or there is neither keyword nor
body. -/
structure Step.Named (family : Family) (text : List Char) (step : Step) : Prop where
  parses : step.candidate.place.shape.keyword ≠ [] →
    ∃ kind, Kind.ofToken? step.candidate.place.shape.keyword = some kind
  named : ∀ reading, reading? family text step.candidate.place = some (some reading) →
    ∃ kind, reading.kind? family = some kind ∧
      (reading.keyword ≠ [] → Kind.ofToken? reading.keyword = some kind) ∧
      ∀ marker, step.outcome.marker = some marker → marker.kind = kind
  dropped : step.outcome.marker = none →
    Keyword.endsAt? text step.candidate.place.keywordEnd = some false ∨
      (∃ tail, step.candidate.place.shape.body = .tail tail ∧
        tailEnds step.candidate.form tail = false) ∨
      ∃ reading kept, reading? family text step.candidate.place = some (some reading) ∧
        reading.kept? step.candidate.form = some kept ∧ reading.keyword = [] ∧ trimEnd kept = []

theorem Step.Possible.named {family : Family} {text : List Char} {step : Step}
    (h : step.Possible family text) : step.Named family text where
  parses some := by
    obtain ⟨_, pieces⟩ := pieces_of_matches h.found
    exact (pieces.keyword.resolve_left fun item => some item.1).named
  named reading read := by
    obtain ⟨kind, kinds, token⟩ := (placed_of_reading? h.form_mem h.found read).exists_kind
    refine ⟨kind, kinds, fun some => Kind.ofToken?_eq_some_iff.2 (token some), ?_⟩
    intro marker some
    obtain ⟨reading', _, _, _, _, marked⟩ := h.exists_marked some
    cases read.symm.trans marked.read
    exact Option.some.inj (marked.named.symm.trans kinds)
  dropped none := by
    have judged := h.judged
    generalize step.outcome = o at judged none
    cases judged with
    | glued read => exact .inl (reading?_eq_none_iff.1 read).2.1
    | unended tail body goesOn => exact .inr (.inl ⟨tail, body, goesOn⟩)
    | blank reading kept read _ cut bare empty =>
      exact .inr (.inr ⟨reading, kept, read, cut, bare, empty⟩)
    | marked => cases none

end Scan

open Scan Keyword in
/-- **The keywords that are read are those that name kinds.** A text names a kind exactly if it is a
keyword of the vocabulary, and exactly if it can be read as a keyword and nothing else; the kind is
the one with this text as its token, so no other text names it. Hence no match of a scan is dropped
because its keyword names no kind. And counts by token never merge two kinds: each of their keywords
is the token of one kind, and a file adds to the number under it as many as it has findings of that
kind. -/
theorem vocabulary_agrees :
    (∀ s, ((∃ kind, Kind.ofToken? s = some kind) ↔ InVocabulary s) ∧
      ((s, []) ∈ readings s ↔ InVocabulary s) ∧ (read? s = some (s, []) ↔ InVocabulary s)) ∧
    (∀ s kind, Kind.ofToken? s = some kind ↔ kind.token = s) ∧
    (∀ s s' kind, Kind.ofToken? s = some kind → Kind.ofToken? s' = some kind → s = s') ∧
    (∀ (family : Family) text, ∃ steps, Run family text 0 steps ∧
      family.scan? text = some (markers steps) ∧ ∀ step ∈ steps, step.Named family text) ∧
    (∀ name kinds, ∀ keyword ∈ (ProjectCount.zero name kinds).kinds.keys,
      ∃! kind, kind ∈ kinds ∧ Kind.render kind = keyword) ∧
    ∀ (count : ProjectCount) scan kind, (count.addFile scan).ofKeyword kind.render =
      count.ofKeyword kind.render + scan.countKind kind := by
  refine ⟨fun s => ⟨exists_ofToken?_iff, whole_mem_readings_iff, read?_whole_iff⟩,
    fun s kind => Kind.ofToken?_eq_some_iff, fun s s' kind named named' => ?_,
    fun family text => ?_, fun name kinds keyword mem => ?_, ProjectCount.ofKeyword_addFile⟩
  · exact (Kind.token_of_ofToken? named).symm.trans (Kind.token_of_ofToken? named')
  · obtain ⟨steps, run, found⟩ := exists_scan? family text
    exact ⟨steps, run, found, fun step mem => (run.possible_of_mem mem).named⟩
  · obtain ⟨kind, known, rfl⟩ := ((ProjectCount.counts_zero name kinds).keys keyword).1 mem
    exact ⟨kind, ⟨known, rfl⟩, fun other same => Kind.render_inj.1 same.2⟩

end Markers
