import UiLint.Proofs.Engine.RunLayout
import UiLint.Proofs.Linter.Attribution
import UiLint.Proofs.Text.Columns

/-! The order of a report and that of offsets. Reports are sorted by position, so that their offsets
ascend except where a position counts the bytes of a line and a later one its characters. -/
namespace UiLint

namespace Entry

variable {text : String} {first second : Entry}

/-- Where the violation is in the text. -/
def offset (entry : Entry) : Nat := entry.violation.location.offset

/-- The entry is shown at the position of its offset. -/
def Located (text : String) (entry : Entry) : Prop :=
  entry.violation.location = .ofOffset text entry.offset

/-- The first entry is inside a character and comes after the second, which is at the end of this or a
later character: it has more bytes before it on the line than the second has characters, or as many
and the second is found by an earlier rule, or earlier by the same rule. -/
def ShownBehind (text : String) (first second : Entry) : Prop :=
  ∃ bytes chars, Text.Straddles text first.offset second.offset bytes chars ∧
    [chars, second.rule, second.number] < [bytes, first.rule, first.number]

theorem Located.key_eq {entry : Entry} (h : entry.Located text) :
    entry.key = [((Text.LineIndex.ofText text).position entry.offset).line,
      ((Text.LineIndex.ofText text).position entry.offset).column, entry.rule, entry.number] := by
  rw [key, h]
  rfl

theorem key_lt_of_position_lt (hFirst : first.Located text) (hSecond : second.Located text)
    (hLess : (Text.LineIndex.ofText text).position first.offset <
      (Text.LineIndex.ofText text).position second.offset) : first.key < second.key := by
  rw [hFirst.key_eq, hSecond.key_eq, List.cons_lt_cons_iff, List.cons_lt_cons_iff]
  exact hLess.imp id fun hLine => ⟨hLine.1, .inl hLine.2⟩

theorem key_lt_iff_of_straddles (hFirst : first.Located text) (hSecond : second.Located text)
    {bytes chars : Nat} (h : Text.Straddles text first.offset second.offset bytes chars) :
    second.key < first.key ↔
      [chars, second.rule, second.number] < [bytes, first.rule, first.number] := by
  obtain ⟨line, hInner, hOuter⟩ := h.positions
  rw [hFirst.key_eq, hSecond.key_eq, hInner, hOuter]
  simp [List.cons_lt_cons_iff]

/-- Of two entries in a text, the one with the greater offset comes first only if the other is shown
behind it. -/
theorem key_lt_iff_shownBehind (hFirst : first.Located text) (hSecond : second.Located text)
    (hLess : first.offset < second.offset) (hEnd : second.offset ≤ text.utf8ByteSize) :
    second.key < first.key ↔ first.ShownBehind text second := by
  constructor
  · intro hBefore
    rcases Text.position_lt_or_straddles hLess hEnd with hAfter | ⟨bytes, chars, hStraddles⟩
    · exact absurd hBefore (List.lt_asymm (key_lt_of_position_lt hFirst hSecond hAfter))
    · exact ⟨bytes, chars, hStraddles, (key_lt_iff_of_straddles hFirst hSecond hStraddles).mp hBefore⟩
  · rintro ⟨bytes, chars, hStraddles, hFewer⟩
    exact (key_lt_iff_of_straddles hFirst hSecond hStraddles).mpr hFewer

/-- Entries in the order of their keys are in that of their offsets exactly if none is shown behind
another one. -/
theorem pairwise_offset_iff {entries : List Entry}
    (hKeys : entries.Pairwise fun first second => first.key < second.key)
    (hLocated : ∀ entry ∈ entries, entry.Located text)
    (hEnd : ∀ entry ∈ entries, entry.offset ≤ text.utf8ByteSize) :
    entries.Pairwise (fun first second => first.offset ≤ second.offset) ↔
      ∀ first ∈ entries, ∀ second ∈ entries, ¬ first.ShownBehind text second := by
  constructor
  · intro hOffsets
    refine List.Pairwise.forall_of_forall_of_flip ?_ ?_ ?_
    · rintro entry - ⟨bytes, chars, hStraddles, -⟩
      exact Nat.lt_irrefl _ hStraddles.lt
    · refine hKeys.imp_of_mem fun {first second} hFirst hSecond hLess => ?_
      rintro ⟨bytes, chars, hStraddles, hFewer⟩
      have hBefore := (key_lt_iff_of_straddles (hLocated first hFirst) (hLocated second hSecond)
        hStraddles).mpr hFewer
      exact List.lt_asymm hLess hBefore
    · refine hOffsets.imp fun {first second} hLe => ?_
      rintro ⟨bytes, chars, hStraddles, -⟩
      exact Nat.not_lt.mpr hLe hStraddles.lt
  · intro hNone
    refine hKeys.imp_of_mem fun {first second} hFirst hSecond hLess => Nat.le_of_not_lt fun hMore => ?_
    have hBehind := (key_lt_iff_shownBehind (hLocated second hSecond) (hLocated first hFirst) hMore
      (hEnd first hFirst)).mp hLess
    exact hNone second hSecond first hFirst hBehind

end Entry

namespace Linter

theorem located_of_mem_entries (linter : Linter) {findings : List Finding}
    (h : Finding.Numbered findings) (text : String) :
    ∀ entry ∈ linter.entries text findings, entry.Located text := by
  intro entry hEntry
  obtain ⟨finding, rule, -, -, -, hViolation⟩ := mem_entries h hEntry
  rw [Entry.Located, Entry.offset, hViolation]
  rfl

/-- The later of two offsets in a text is shown before the other exactly if that one is inside a
character and has more bytes before it on the line than the later one has characters. So a report on
findings in the text is in the order of their offsets exactly if none of them is shown behind another,
and it is if all are at ends of characters. -/
theorem lint_in_offset_order_iff {linter : Linter} {rules : List ActiveRule}
    (hRules : linter.start = .ok rules) (file : SourceFile) :
    (∀ text first second, first ≤ second → second ≤ text.utf8ByteSize →
      ((Text.LineIndex.ofText text).position second < (Text.LineIndex.ofText text).position first ↔
        ∃ bytes chars, Text.Straddles text first second bytes chars ∧ chars < bytes)) ∧
    ∃ report entries, linter.lint file = .ok report ∧
      entries = linter.entries file.tree.text (runRules rules file.tree false).findings ∧
      report.violations = entries.map Entry.violation ∧
      ((∀ found ∈ report.violations, found.location.offset ≤ file.tree.text.utf8ByteSize) →
        (report.violations.Pairwise
            (fun first second => first.location.offset ≤ second.location.offset) ↔
          ∀ first ∈ entries, ∀ second ∈ entries, ¬ first.ShownBehind file.tree.text second)) ∧
      ((∀ found ∈ report.violations,
          String.Pos.Raw.IsValid file.tree.text ⟨found.location.offset⟩) →
        report.violations.Pairwise
          fun first second => first.location.offset ≤ second.location.offset) := by
  have hNumbered := Progress.numbered_runRules rules file.tree false
  have hLint : linter.lint file = .ok ⟨file.path, linter.violations file.tree.text
      (runRules rules file.tree false).findings, (runRules rules file.tree false).aborted⟩ := by
    rw [lint, run_eq_ok hRules, (tree_runRules_of_lint rules file.tree).1]
    rfl
  have hEntries := violations_eq_entries linter file.tree.text (runRules rules file.tree false).findings
  have hOrder := Entry.pairwise_offset_iff (pairwise_entries hNumbered file.tree.text)
    (located_of_mem_entries linter hNumbered file.tree.text)
  refine ⟨fun text first second => Text.position_lt_iff_straddles, _, _, hLint, rfl, hEntries, ?_, ?_⟩
  · rw [hEntries, List.pairwise_map, List.forall_mem_map]
    exact hOrder
  · rw [hEntries, List.pairwise_map, List.forall_mem_map]
    intro hValid
    refine (hOrder fun entry hEntry => (hValid entry hEntry).le_rawEndPos).mpr ?_
    rintro first hFirst second - ⟨bytes, chars, hStraddles, -⟩
    exact hStraddles.not_isValid (hValid first hFirst)

end Linter

namespace Accents

/-- A file with two characters of two bytes. -/
def file : SourceFile :=
  ⟨"f", (SourceTree.ofEvents [.start .file (.file {}), .token "éé!", .finish]).toOption.getD default⟩

/-- A rule that reports at the given offsets of every file. -/
def script (offsets : List Nat) : Script.RuleScript where
  name := "note"
  code := "N"
  entries := [⟨.file, none, offsets.map fun offset => .report "note" (.offset offset) false⟩]

def linter (offsets : List Nat) : Linter := Linter.build [(script offsets).rule] {}

def rules (offsets : List Nat) : List ActiveRule := (linter offsets).start.toOption.getD []

end Accents

/-- The ends of the two characters are reported in their order, though the rule found the second one
first. -/
theorem Linter.lint_in_offset_order_iff_ends :
    ∃ report, (Accents.linter [4, 2]).start = .ok (Accents.rules [4, 2]) ∧
      (Accents.linter [4, 2]).lint Accents.file = .ok report ∧
      (∀ offset ∈ [2, 4], ∃ found ∈ report.violations, found.location.offset = offset) ∧
      report.violations.Pairwise
        fun first second => first.location.offset ≤ second.location.offset := by
  have hStart : (Accents.linter [4, 2]).start = .ok (Accents.rules [4, 2]) := rfl
  obtain ⟨-, report, -, hReport, -, -, -, hOrdered⟩ := lint_in_offset_order_iff hStart Accents.file
  refine ⟨report, hStart, hReport, ?_, hOrdered ?_⟩
  · have hBoth : ∀ offset ∈ [2, 4],
        ∃ finding ∈ (runRules (Accents.rules [4, 2]) Accents.file.tree false).findings,
          finding.offset = offset ∧ finding.rule = 0 := by decide +kernel
    cases hReport
    intro offset hOffset
    obtain ⟨finding, hFinding, rfl, hRule⟩ := hBoth offset hOffset
    exact ⟨_, mem_violations.mpr ⟨finding, hFinding, _, by rw [hRule]; rfl, rfl⟩, rfl⟩
  · have hEnds : ∀ finding ∈ (runRules (Accents.rules [4, 2]) Accents.file.tree false).findings,
        String.Pos.Raw.IsValid Accents.file.tree.text ⟨finding.offset⟩ := by decide +kernel
    cases hReport
    intro found hFound
    obtain ⟨finding, hFinding, rule, -, rfl⟩ := mem_violations.mp hFound
    exact hEnds finding hFinding

/-- A finding inside the second character comes after one at the end of that character. Both are in the
text. -/
theorem Linter.lint_inside_behind_end :
    ∃ report, (Accents.linter [3, 4]).lint Accents.file = .ok report ∧
      Accents.file.tree.text.utf8ByteSize = 5 ∧
      report.violations.map (·.location) = [⟨1, 3, 4⟩, ⟨1, 4, 3⟩] ∧
      ¬ report.violations.Pairwise
        (fun first second => first.location.offset ≤ second.location.offset) ∧
      (Text.LineIndex.ofText Accents.file.tree.text).position 4 <
        (Text.LineIndex.ofText Accents.file.tree.text).position 3 := by
  have hText : Accents.file.tree.text = "éé!" := by decide +kernel
  obtain ⟨report, hReport⟩ : ∃ report, (Accents.linter [3, 4]).lint Accents.file = .ok report :=
    ⟨_, congrArg (Except.map _) (run_eq_ok rfl Accents.file false)⟩
  have hLocations : report.violations.map (·.location) = [⟨1, 3, 4⟩, ⟨1, 4, 3⟩] := by
    cases hReport
    change List.map _ (List.filterMap _ (List.mergeSort _ _)) = _
    rw [mergeSort_eq_of_perm
      [(⟨1, 3⟩, ⟨4, 0, 1, "note", false, false⟩), (⟨1, 4⟩, ⟨3, 0, 0, "note", false, false⟩)]]
    · rfl
    all_goals decide +kernel
  refine ⟨report, hReport, by rw [hText]; decide, hLocations, fun hOrder => ?_, ?_⟩
  · have hOffsets : (report.violations.map (·.location)).Pairwise
        fun first second => first.offset ≤ second.offset := List.pairwise_map.mpr hOrder
    rw [hLocations] at hOffsets
    exact absurd hOffsets (by decide)
  · rw [hText]
    exact .inr (by decide +kernel)

end UiLint
