import Mathlib.Algebra.GroupWithZero.Nat
import UiLint.Proofs.Checks.PresetRun
import UiLint.Proofs.Text.LineIndex

/-! Linting and fixing report the same. A run that fixes looks at a file that it has changed already,
and reports positions in the text after all changes; yet it says the same things as a run that leaves
the file alone, on the same lines. -/
namespace UiLint

open HandleDefault

namespace Node

/-- The number of newlines in the text of a node. -/
def newlines (node : Node) : Nat :=
  node.text.toList.count '\n'

/-- The number of newlines before the node at a path. -/
def newlinesAbove (node : Node) (path : Path) : Nat :=
  (node.textAbove path).toList.count '\n'

theorem count_textOfAll (nodes : List Node) :
    (textOfAll nodes).toList.count '\n' = (nodes.map newlines).sum := by
  induction nodes with
  | nil => rfl
  | cons node nodes ih =>
      rw [textOfAll, String.toList_append, List.count_append, ih, List.map_cons, List.sum_cons,
        newlines]

/-- Growth by something without newlines adds no lines. -/
theorem newlines_appendAt {extra : Node} (hExtra : extra.newlines = 0) (node : Node)
    (chosen : Path → Bool) : (node.appendAt extra chosen).newlines = node.newlines := by
  induction node using inductionOn generalizing chosen with
  | step kind span payload children ih =>
      have hOld : ∀ index, (appendAtAll children extra chosen index).map newlines =
          children.map newlines := by
        induction children with
        | nil => exact fun _ => rfl
        | cons child children ihAll =>
            intro index
            rw [appendAtAll, List.map_cons, List.map_cons, ih child (by simp),
              ihAll fun c hc => ih c (by simp [hc])]
      have hNew : ((if chosen [] then [extra] else []).map newlines).sum = 0 := by
        split
        · simpa using hExtra
        · rfl
      rw [newlines, newlines, text_eq, text_eq, payload_appendAt]
      cases hText : payload.tokenText? with
      | some text => rfl
      | none =>
          simp only [Option.getD_none]
          rw [count_textOfAll, count_textOfAll, children_appendAt, List.map_append, hOld,
            List.sum_append, hNew, Nat.add_zero]

theorem GrownTo.newlines {extra node grown : Node} {chosen : Path → Bool}
    (h : GrownTo extra node chosen grown) (hExtra : extra.newlines = 0) :
    grown.newlines = node.newlines := by
  rw [Node.newlines, ← text_shape, h, text_shape, ← Node.newlines, newlines_appendAt hExtra]

/-- Growth by something without newlines moves no old node to another line. -/
theorem GrownTo.newlinesAbove {extra node grown : Node} {chosen : Path → Bool}
    (h : GrownTo extra node chosen grown) (hExtra : extra.newlines = 0) {path : Path}
    (hPath : (node.descendant? path).isSome = true) :
    grown.newlinesAbove path = node.newlinesAbove path := by
  induction path generalizing node grown chosen with
  | nil => rfl
  | cons index path ih =>
      rw [descendant?_cons] at hPath
      cases hPart : node.children[index]? with
      | none =>
          rw [hPart] at hPath
          cases hPath
      | some part =>
          rw [hPart] at hPath
          obtain ⟨found, hFound, hGrown⟩ := h.child hPart
          have hBelow := ih hGrown hPath
          have hBefore : (grown.children.take index).map Node.newlines =
              (node.children.take index).map Node.newlines := by
            apply List.ext_getElem?
            intro place
            rw [List.getElem?_map, List.getElem?_map]
            by_cases hPlace : place < index
            · obtain ⟨hLength, -⟩ := List.getElem?_eq_some_iff.mp hPart
              have hThere := List.getElem?_eq_getElem (Nat.lt_trans hPlace hLength)
              obtain ⟨other, hOther, hOtherGrown⟩ := h.child hThere
              rw [List.getElem?_take_of_lt hPlace, List.getElem?_take_of_lt hPlace, hOther, hThere,
                Option.map_some, Option.map_some, hOtherGrown.newlines hExtra]
            · rw [List.getElem?_take_eq_none (Nat.le_of_not_lt hPlace),
                List.getElem?_take_eq_none (Nat.le_of_not_lt hPlace)]
          rw [Node.newlinesAbove, Node.newlinesAbove] at hBelow ⊢
          rw [textAbove, textAbove, hFound, hPart, String.toList_append, String.toList_append,
            List.count_append, List.count_append, count_textOfAll, count_textOfAll, hBefore, hBelow]

/-- A node starts on the line after the newlines before it. -/
theorem line_offsetAt {root : Node} (h : root.WellFormed) {path : Path}
    (hPath : (root.descendant? path).isSome = true) :
    ((Text.LineIndex.ofText root.text).position (root.offsetAt path)).line =
      root.newlinesAbove path + 1 := by
  obtain ⟨below, hBelow⟩ := Option.isSome_iff_exists.mp hPath
  obtain ⟨after, hText, -⟩ := exists_text_replaceAt h hBelow
  rw [← utf8ByteSize_textAbove, ← Text.byteLength_toList]
  have hParts : root.text.toList = (root.textAbove path).toList ++ (below.text ++ after).toList := by
    rw [hText, String.append_assoc, String.toList_append]
  exact Text.line_of_append hParts

end Node

/-- The finding at an offset is on the line of an anchor in the file as it was. -/
def SameLine (root file : Node) (place : Path) (offset : Nat) : Prop :=
  ((Text.LineIndex.ofText file.text).position offset).line = root.newlinesAbove place + 1

theorem HandleDefault.text_withHandle {parameter : Node} (h : parameter.WellFormed)
    (hKind : parameter.kind = .parameter) :
    (withHandle parameter).text = parameter.text ++ emptyHandle.text := by
  have hInner : parameter.payload.tokenText? = none := by
    have hFits := h.fits
    rw [hKind] at hFits
    cases hPayload : parameter.payload <;> simp_all [Payload.fits, Payload.tokenText?]
  rw [Node.text_eq, Node.text_eq parameter, withHandle, hInner, Option.getD_none, Option.getD_none,
    Node.textOfAll_append, Node.textOfAll, Node.textOfAll, String.append_empty]

/-- Findings stay on the lines of their anchors while default values are given to parameters. -/
theorem tracks_sameLine (root : Node) : Tracks root (SameLine root) where
  fresh {chosen grown place} hGrown hCanonical _ hPlace := by
    obtain ⟨below, hBelow⟩ := Option.isSome_iff_exists.mp hPlace
    obtain ⟨found, hFound, -⟩ := hGrown.descendant hBelow
    have hNone : emptyHandle.newlines = 0 := by decide
    rw [SameLine, Node.line_offsetAt hCanonical.wellFormed (by rw [hFound]; rfl),
      hGrown.newlinesAbove hNone hPlace]
  kept {chosen grown parameter target place offset} _ hCanonical hStart hParameter hKind _ _ _ hFits
      hLine := by
    obtain ⟨after, hText, hNew⟩ := Node.exists_text_replaceAt hCanonical.wellFormed hParameter
    obtain ⟨hInner, hAt⟩ := hCanonical.descendant hParameter
    have hWith := text_withHandle hInner.wellFormed hKind
    have hBefore : Text.byteLength (grown.textAbove target ++ parameter.text).toList =
        parameter.span.stop := by
      rw [Text.byteLength_toList, String.utf8ByteSize_append, Node.utf8ByteSize_textAbove,
        hInner.stop_eq, hAt, hStart, Nat.zero_add]
      rfl
    have hOld : grown.text.toList =
        (grown.textAbove target ++ parameter.text).toList ++ after.toList := by
      rw [hText, String.toList_append]
    have hLonger : (grown.replaceAt target (withHandle parameter)).text.toList =
        (grown.textAbove target ++ parameter.text).toList ++ emptyHandle.text.toList ++
          after.toList := by
      rw [hNew, hWith]
      simp only [String.toList_append, List.append_assoc]
    have hGrowth : ((grown.replaceAt target (withHandle parameter)).size : Int) - grown.size =
        (Text.byteLength emptyHandle.text.toList : Int) := by
      rw [Text.byteLength_toList, Node.size, Node.size, hNew, hText, hWith]
      simp only [String.utf8ByteSize_append]
      omega
    have hBound : distanceBound < offsetBound := by decide
    have hLimit : (grown.replaceAt target (withHandle parameter)).text.utf8ByteSize ≤
        offsetBound - 1 := by
      rw [Node.size] at hFits
      omega
    have hInserted := Text.line_insert hOld hLonger (by decide) hLimit offset
    rw [SameLine, ← hLine, Node.text_layout, ← hInserted, Shift.carry, hBefore, hGrowth,
      moveOffsetWithin]
    simp only [← Int.natCast_add, Int.toNat_natCast]

/-- What a violation says, apart from its place in the line and from whether it has been fixed. -/
structure Violation.Gist where
  rule : String
  code : String
  severity : Severity
  message : String
  fixable : Bool
  line : Nat
  deriving DecidableEq

def Violation.gist (violation : Violation) : Violation.Gist :=
  ⟨violation.rule, violation.code, violation.severity, violation.message, violation.fixable,
    violation.location.line⟩

/-- What the violation for a note of a rule says, by the file as it was. -/
def Note.gist (config : Config) (root : Node) (rule : Rule) (note : Note) : Violation.Gist :=
  ⟨rule.name, rule.code, (config.ruleSeverity? rule.name).getD rule.severity, note.message,
    note.fixable, root.newlinesAbove (root.anchorPath note.place) + 1⟩

section Run

variable {preset : Preset} {config : Config} {rules : List ActiveRule} {tree : SourceTree}

/-- What either kind of run of a preset reports, told from the file as it was. -/
theorem Preset.gists_perm (hRules : (preset.linter config).start = .ok rules)
    (hTree : tree.Canonical) (hFile : tree.root.kind = .file)
    (hSize : (completed (settingsIn? config) tree.root).size < distanceBound) (fixing : Bool) :
    (((preset.linter config).violations (runRules rules tree fixing).tree.text
      (runRules rules tree fixing).findings).map fun found => (found.gist, found.autoFixed)).Perm
      (((schedule rules tree.root).flatMap
        (Turn.notes (BuiltIn.checkAt? preset.entries config) tree.root)).filterMap fun entry =>
          (preset.linter config).rules[entry.1]?.map fun rule =>
            (entry.2.gist config tree.root rule, fixing && entry.2.fixable)) := by
  obtain ⟨-, hTurns⟩ := Preset.turns_runRules hRules hTree hFile hSize fixing
  obtain ⟨given, hReporting⟩ :=
    Preset.reporting hRules hTree hFile hSize fixing (tracks_sameLine tree.root)
  have hRecorded := hReporting.recorded
  rw [hTurns] at hRecorded
  refine Linter.map_violations_perm _ _ hRecorded (fun found => (found.gist, found.autoFixed))
    (fun rule note => (note.gist config tree.root rule, fixing && note.fixable))
    (fun entry finding hRecords => hRecords.rule) ?_
  intro entry finding rule hRecords _
  have hLine : _ = _ := hRecords.offset
  have hFixed : (finding.fixable && finding.autoFixed) = (fixing && entry.2.fixable) := by
    rw [hRecords.fixable, hRecords.autoFixed, Bool.and_left_comm, Bool.and_self]
  simp only [Violation.gist, Note.gist, Linter.violation, Violation.withFix, Prod.mk.injEq,
    Violation.Gist.mk.injEq]
  exact ⟨⟨trivial, trivial, rfl, hRecords.message, hRecords.fixable, hLine⟩, hFixed⟩

end Run

/-- A run of a preset that fixes a file that a builder made reports the same as one that leaves the
file alone: the same rules with the same codes and severities say the same on the same lines, equally
often. Without fixing, nothing has been fixed; with it, everything that can be. -/
theorem Preset.lintAndFix_perm_lint {events : List Event} {tree : SourceTree}
    (hTree : SourceTree.ofEvents events = .ok tree) (preset : Preset) (config : Config)
    {rules : List ActiveRule} (hRules : (preset.linter config).start = .ok rules) (path : String)
    (hFits : (completed (settingsIn? config) tree.root).text.utf8ByteSize < distanceBound) :
    ∃ report fixed, (preset.linter config).lint ⟨path, tree⟩ = .ok report ∧
      (preset.linter config).lintAndFix ⟨path, tree⟩ = .ok fixed ∧
      (fixed.report.violations.map Violation.gist).Perm
        (report.violations.map Violation.gist) ∧
      (∀ found ∈ report.violations, found.autoFixed = false) ∧
      ∀ found ∈ fixed.report.violations, found.autoFixed = found.fixable := by
  obtain ⟨hCanonical, hFile⟩ := SourceTree.canonical_of_ofEvents hTree
  have hLint := Preset.gists_perm hRules hCanonical hFile hFits false
  have hFix := Preset.gists_perm hRules hCanonical hFile hFits true
  refine ⟨_, _, by rw [Linter.lint, Linter.run_eq_ok hRules]; rfl,
    Linter.run_eq_ok hRules ⟨path, tree⟩ true, ?_, ?_, ?_⟩
  · have hBoth := (hFix.map Prod.fst).trans (.trans (.of_eq ?_) (hLint.map Prod.fst).symm)
    · rwa [List.map_map, List.map_map] at hBoth
    · rw [List.map_filterMap, List.map_filterMap]
      simp only [Option.map_map]
      rfl
  · intro found hFound
    have hMember := hLint.subset (List.mem_map_of_mem hFound)
    obtain ⟨entry, -, hTold⟩ := List.mem_filterMap.mp hMember
    obtain ⟨rule, -, hSame⟩ := Option.map_eq_some_iff.mp hTold
    exact (congrArg Prod.snd hSame).symm
  · intro found hFound
    have hMember := hFix.subset (List.mem_map_of_mem hFound)
    obtain ⟨entry, -, hTold⟩ := List.mem_filterMap.mp hMember
    obtain ⟨rule, -, hSame⟩ := Option.map_eq_some_iff.mp hTold
    obtain ⟨hGist, hFixed⟩ := Prod.mk.inj hSame
    exact hFixed.symm.trans (congrArg Violation.Gist.fixable hGist)

namespace TwoLines

/-- Two functions with a handle, on two lines. -/
def events : List Event :=
  [.start .file (.file {})] ++ Nested.function "A" [] [] ++ [.token "\n"] ++
    Nested.function "B" [] [] ++ [.finish]

end TwoLines

/-- Both runs find a handle without a default value on the second line, at different offsets. -/
theorem Preset.lintAndFix_perm_lint_lines :
    ∃ tree report fixed, SourceTree.ofEvents TwoLines.events = .ok tree ∧
      (Preset.recommended.linter {}).lint ⟨"A", tree⟩ = .ok report ∧
      (Preset.recommended.linter {}).lintAndFix ⟨"A", tree⟩ = .ok fixed ∧
      (fixed.report.violations.map Violation.gist).Perm (report.violations.map Violation.gist) ∧
      (∃ found ∈ report.violations, found.fixable = true ∧ found.autoFixed = false ∧
        found.location = ⟨2, 7, 33⟩) ∧
      ∃ found ∈ fixed.report.violations, found.fixable = true ∧ found.autoFixed = true ∧
        found.location = ⟨2, 7, 44⟩ := by
  have hTree : SourceTree.ofEvents TwoLines.events = .ok _ := rfl
  obtain ⟨report, fixed, hReport, hFixed, hSame, -, -⟩ :=
    Preset.lintAndFix_perm_lint hTree .recommended {} rfl "A" (by decide +kernel)
  refine ⟨_, report, fixed, hTree, hReport, hFixed, hSame, ?_, ?_⟩
  · cases hReport
    refine ⟨_, Linter.mem_violations.mpr ⟨⟨33, 0, 1, HandleDefault.message, true, false⟩, ?_,
      _, rfl, rfl⟩, rfl, rfl, ?_⟩
    · decide +kernel
    · decide +kernel
  · cases hFixed
    refine ⟨_, Linter.mem_violations.mpr ⟨⟨44, 0, 1, HandleDefault.message, true, true⟩, ?_,
      _, rfl, rfl⟩, rfl, rfl, ?_⟩
    · decide +kernel
    · decide +kernel

end UiLint
