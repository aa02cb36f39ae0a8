import UiLint.Proofs.Engine.Drift

/-! Violations and the nodes they were found at. A violation names its node in the new text unless
an edit takes the finding away from it. -/
namespace UiLint

theorem Linter.index_lt_of_startFrom {config : Config} {index : Nat} {rules : List Rule}
    {active : List ActiveRule} (hActive : startFrom config index rules = .ok active) :
    ∀ rule ∈ active, rule.index < index + rules.length := by
  induction rules generalizing index active with
  | nil =>
      cases hActive
      simp
  | cons rule rules ih =>
      rw [List.length_cons]
      rcases startFrom_cons hActive with ⟨-, hRest⟩ | ⟨first, others, -, hFirst, hOthers, rfl⟩
      · intro other hOther
        have hLater := ih hRest other hOther
        omega
      · obtain ⟨options, visitor, -, -, rfl⟩ := startRule_eq_ok hFirst
        rw [List.forall_mem_cons]
        refine ⟨by simp only; omega, fun other hOther => ?_⟩
        have hLater := ih hOthers other hOther
        omega

/-- The location of an offset in a text. -/
def Location.ofOffset (text : String) (offset : Nat) : Location :=
  let position := (Text.LineIndex.ofText text).position offset
  ⟨position.line, position.column, offset⟩

/-- A finding at the start of a node, in a run that fixes: the call it is made in, between the
calls before and after that one, its place among the findings, and the path of the node in the
file as it then is. -/
structure Sighting (rules : List ActiveRule) (tree : SourceTree) where
  before : List Call
  call : Call
  after : List Call
  index : Nat
  finding : Finding
  place : Path
  anchor : Node
  calls_eq : (runRules rules tree true).calls = before ++ call :: after
  finding_eq : ((Progress.replay { tree } before).report call)[index]? = some finding
  anchor_eq : call.site.root.descendant? place = some anchor
  offset_eq : finding.offset = anchor.span.start

namespace Sighting

variable {rules : List ActiveRule} {tree : SourceTree}

/-- The sighting of a finding at the node with the given path, in the call with the given number,
if the finding is there. -/
def at? (rules : List ActiveRule) (tree : SourceTree) (number index : Nat) (place : Path) :
    Option (Sighting rules tree) :=
  let calls := (runRules rules tree true).calls
  if hCall : number < calls.length then
    match hFinding : ((Progress.replay { tree } (calls.take number)).report calls[number])[index]?,
        hAnchor : calls[number].site.root.descendant? place with
    | some finding, some anchor =>
        if hOffset : finding.offset = anchor.span.start then
          some ⟨calls.take number, calls[number], calls.drop (number + 1), index, finding, place,
            anchor, by simp [calls], hFinding, hAnchor, hOffset⟩
        else none
    | _, _ => none
  else none

/-- The edits that the file goes through from then on. -/
def changes (sighting : Sighting rules tree) : List Edit :=
  (sighting.call :: sighting.after).flatMap Call.changes

/-- These edits, each with the file that it is made in. -/
def history (sighting : Sighting rules tree) : List (Node × Edit) :=
  Edit.history sighting.call.site.root sighting.changes

/-- How far the finding is from the start of its node after some of these edits. -/
def driftAfter (sighting : Sighting rules tree) (count : Nat) : Int :=
  Edit.driftAll sighting.call.site.root sighting.place sighting.finding.offset
    (sighting.changes.take count)

/-- At the end of the run the node is still there, and the finding has drifted away from it by the
sum of what the edits did. It has kept to the node all along exactly if no edit strayed, and while
the node has text, the edits that stray are those that misplace its findings. -/
theorem tracked (sighting : Sighting rules tree) (hTree : tree.Canonical)
    (hFits : tree.root.size < distanceBound)
    (hCalls : ∀ call ∈ (runRules rules tree true).calls, call.Fits)
    (hSpared : ∀ step ∈ sighting.history, step.2.spares step.1 sighting.place = true) :
    ∃ last moved,
      (runRules rules tree true).tree.root.descendant? sighting.place = some last ∧
      last.kind = sighting.anchor.kind ∧ last.payload = sighting.anchor.payload ∧
      (runRules rules tree true).findings[sighting.index]? = some moved ∧
      moved.rule = sighting.finding.rule ∧ moved.message = sighting.finding.message ∧
      (moved.offset : Int) = last.span.start + sighting.driftAfter sighting.changes.length ∧
      ((∀ count, sighting.driftAfter count = 0) ↔
        ∀ step ∈ sighting.history, step.2.strays step.1 sighting.place = false) ∧
      ∀ step ∈ sighting.history, ∀ node, step.1.descendant? sighting.place = some node →
        0 < node.size →
        (step.2.strays step.1 sighting.place = true ↔ step.2.Misplaces step.1 sighting.place) := by
  obtain ⟨hReplay, hAdmits⟩ := Progress.runRules_eq_replay rules tree true
  have hFinal := Progress.sound_runRules rules true hTree hFits hCalls
  rw [sighting.calls_eq] at hAdmits hCalls
  rw [sighting.calls_eq, Progress.replay_append] at hReplay
  obtain ⟨hBefore, hRest⟩ := Progress.admits_append.mp hAdmits
  rw [List.forall_mem_append] at hCalls
  have hStart : Progress.Sound { tree } := ⟨rfl, hTree, hFits⟩
  have hSound := hStart.replay hBefore hCalls.1
  obtain ⟨hRedraft, hDrafts, -⟩ := hSound.replay_changes hRest hCalls.2
  obtain ⟨moved, hMoved, hOffset, hRule, hMessage⟩ :=
    hSound.replay_report hRest hCalls.2 sighting.finding_eq
  have hRoot : sighting.call.site.root = (Progress.replay { tree } sighting.before).tree.root :=
    hRest.1.1.site.1
  rw [← hRoot] at hRedraft hDrafts hOffset
  obtain ⟨hCanonical, hZero⟩ := hSound.canonical.root
  rw [← hRoot] at hCanonical hZero
  have hAnchor := (hCanonical.descendant sighting.anchor_eq).2
  rw [hZero, Nat.zero_add, ← sighting.offset_eq] at hAnchor
  obtain ⟨⟨last, hLast, hKind, hPayload⟩, hCarried⟩ := Edit.carryAll_eq_add_driftAll hCanonical
    hRedraft hSpared sighting.anchor_eq sighting.finding.offset
  rw [← hReplay] at hLast hMoved hCarried
  obtain ⟨hFinalRoot, hFinalZero⟩ := hFinal.canonical.root
  have hLastStart := (hFinalRoot.descendant hLast).2
  refine ⟨last, moved, hLast, hKind, hPayload, hMoved, hRule, hMessage, ?_, ?_, ?_⟩
  · rw [driftAfter, List.take_length, hOffset, hCarried, changes]
    omega
  · unfold driftAfter history
    rw [hAnchor]
    exact Edit.driftAll_take_eq_zero_iff hCanonical hZero hRedraft hSpared sighting.anchor_eq hDrafts
  · intro step hStep node hNode hText
    obtain ⟨hThere, hSame, next, hNext⟩ := Edit.canonical_of_mem_history hCanonical hRedraft hStep
    exact Edit.strays_iff_misplaces hThere (hSame.trans hZero) hNext (hSpared step hStep) hNode hText

end Sighting

/-- A finding made at the start of a node, in a run of any rules over a file that a builder made,
becomes a violation that has drifted away from the node by the sum of what the later edits did.
It keeps to the node all along exactly if no edit strays, which while the node has text means that
no edit misplaces its findings; then the violation names the line and column of the node in the
new text. -/
theorem Linter.violation_at_anchor {events : List Event} {tree : SourceTree}
    (hTree : SourceTree.ofEvents events = .ok tree) (linter : Linter) {rules : List ActiveRule}
    (hRules : linter.start = .ok rules) (path : String)
    (hFits : tree.text.utf8ByteSize < distanceBound)
    (hCalls : ∀ call ∈ (runRules rules tree true).calls, call.Fits)
    (sighting : Sighting rules tree)
    (hSpared : ∀ step ∈ sighting.history, step.2.spares step.1 sighting.place = true) :
    ∃ fixed last found,
      linter.lintAndFix ⟨path, tree⟩ = .ok fixed ∧
      fixed.tree.root.descendant? sighting.place = some last ∧
      last.kind = sighting.anchor.kind ∧ last.payload = sighting.anchor.payload ∧
      found ∈ fixed.report.violations ∧
      linter.rules[sighting.finding.rule]?.map (·.name) = some found.rule ∧
      found.message = sighting.finding.message ∧
      found.location = .ofOffset fixed.source found.location.offset ∧
      (found.location.offset : Int) =
        last.span.start + sighting.driftAfter sighting.changes.length ∧
      ((∀ count, sighting.driftAfter count = 0) ↔
        ∀ step ∈ sighting.history, step.2.strays step.1 sighting.place = false) ∧
      (∀ step ∈ sighting.history, ∀ node, step.1.descendant? sighting.place = some node →
        0 < node.size →
        (step.2.strays step.1 sighting.place = true ↔ step.2.Misplaces step.1 sighting.place)) ∧
      ((∀ step ∈ sighting.history, step.2.strays step.1 sighting.place = false) →
        found.location = .ofOffset fixed.source last.span.start) := by
  obtain ⟨hCanonical, -⟩ := SourceTree.canonical_of_ofEvents hTree
  obtain ⟨last, moved, hLast, hKind, hPayload, hMoved, hRule, hMessage, hOffset, hExact, hCause⟩ :=
    sighting.tracked hCanonical hFits hCalls hSpared
  have hMember := List.mem_of_getElem? hMoved
  obtain ⟨active, hActive, hIndex⟩ :=
    List.mem_map.mp (Progress.ofRules_runRules rules tree true moved hMember)
  have hLess := index_lt_of_startFrom hRules active hActive
  rw [Nat.zero_add, hIndex] at hLess
  refine ⟨_, last, _, run_eq_ok hRules ⟨path, tree⟩ true, hLast, hKind, hPayload,
    mem_violations.mpr ⟨moved, hMember, _, List.getElem?_eq_getElem hLess, rfl⟩, ?_, hMessage, rfl,
    hOffset, hExact, hCause, ?_⟩
  · rw [← hRule, List.getElem?_eq_getElem hLess]
    rfl
  · intro hNone
    have hSame : moved.offset = last.span.start := by
      rw [hExact.mpr hNone] at hOffset
      omega
    rw [← hSame]
    rfl

namespace Trailing

/-- The events of `fun f(a: A = A() /* c */, b: B)`. -/
def events : List Event :=
  [.start .file (.file {}), .start .functionDeclaration (.function { name := "f" }),
    .token "fun f", .start .parameterList .plain, .token "(",
    .start .parameter (.parameter ⟨"a", "A"⟩), .token "a: A",
    .start .defaultValue .plain, .token " = A()", .finish, .token " /* c */", .finish, .token ", ",
    .start .parameter (.parameter ⟨"b", "B"⟩), .token "b: B", .finish, .token ")", .finish, .finish,
    .finish]

/-- A rule that reports the comment behind a default value and the parameter after it, and gives
the first parameter another default value. -/
def script : Script.RuleScript where
  name := "trailing"
  code := "T"
  entries := [{ hook := .function, actions := [
    .report "comment" (.node (.below [1, 1, 2])) false, .report "next" (.node (.parameter 1)) false,
    .setDefault "Modifier" (.parameter 0)] }]

def linter : Linter := Linter.build [script.rule] {}

def tree : SourceTree := (SourceTree.ofEvents events).toOption.getD default

def rules : List ActiveRule := linter.start.toOption.getD []

end Trailing

/-- A finding at the parameter after the one that grows moves with it. -/
theorem Linter.violation_at_anchor_next :
    ∃ (sighting : Sighting Trailing.rules Trailing.tree) (fixed : FixedFile) (last : Node),
      ∃ found ∈ fixed.report.violations,
        SourceTree.ofEvents Trailing.events = .ok Trailing.tree ∧
        Trailing.linter.start = .ok Trailing.rules ∧
        Trailing.linter.lintAndFix ⟨"f", Trailing.tree⟩ = .ok fixed ∧
        sighting.place = [0, 1, 3] ∧ sighting.finding.offset = 26 ∧
        fixed.tree.root.descendant? sighting.place = some last ∧ last.span.start = 31 ∧
        found.message = "next" ∧ found.location = ⟨1, 32, 31⟩ := by
  have hTree : SourceTree.ofEvents Trailing.events = .ok Trailing.tree := rfl
  let sighting := (Sighting.at? Trailing.rules Trailing.tree 1 1 [0, 1, 3]).get (by decide +kernel)
  obtain ⟨fixed, last, found, hFixed, hLast, -, -, hFound, -, hMessage, -, -, -, -, hFollows⟩ :=
    Linter.violation_at_anchor hTree Trailing.linter rfl "f" (by decide +kernel)
      (by decide +kernel) sighting (by decide +kernel)
  have hStart : last.span.start = 31 := by
    cases hFixed
    cases hLast
    decide +kernel
  have hLocation := hFollows (by decide +kernel)
  rw [hStart] at hLocation
  refine ⟨sighting, fixed, last, found, hFound, hTree, rfl, hFixed, by decide +kernel,
    by decide +kernel, hLast, hStart, ?_, ?_⟩
  · rw [hMessage]
    decide +kernel
  · rw [hLocation]
    cases hFixed
    decide +kernel

/-- A finding at the comment behind a default value that grows loses it: the comment moves by five
bytes and the finding stays, and no violation is where the comment is. -/
theorem Linter.violation_loses_comment :
    ∃ (sighting : Sighting Trailing.rules Trailing.tree) (fixed : FixedFile) (last : Node),
      SourceTree.ofEvents Trailing.events = .ok Trailing.tree ∧
      Trailing.linter.start = .ok Trailing.rules ∧
      Trailing.linter.lintAndFix ⟨"f", Trailing.tree⟩ = .ok fixed ∧
      sighting.finding.message = "comment" ∧ sighting.anchor.text = " /* c */" ∧
      (∀ step ∈ sighting.history, step.2.spares step.1 sighting.place = true) ∧
      fixed.tree.root.descendant? sighting.place = some last ∧ last.text = " /* c */" ∧
      (∃ found ∈ fixed.report.violations, found.message = "comment" ∧ found.location.offset = 16) ∧
      last.span.start = 21 ∧
      ∀ found ∈ fixed.report.violations, found.location.offset ≠ last.span.start := by
  let sighting := (Sighting.at? Trailing.rules Trailing.tree 1 0 [0, 1, 1, 2]).get
    (by decide +kernel)
  refine ⟨sighting, _, _, rfl, rfl, run_eq_ok rfl ⟨"f", Trailing.tree⟩ true, by decide +kernel,
    by decide +kernel, by decide +kernel, rfl, by decide +kernel, ?_, by decide +kernel, ?_⟩
  · exact ⟨_, mem_violations.mpr ⟨⟨16, 0, 0, "comment", false, false⟩, by decide +kernel, _, rfl, rfl⟩,
      rfl, rfl⟩
  · intro found hFound
    obtain ⟨finding, hFinding, rule, -, rfl⟩ := mem_violations.mp hFound
    have hElsewhere : ∀ finding ∈ (runRules Trailing.rules Trailing.tree true).findings,
        finding.offset ≠ 21 := by decide +kernel
    exact hElsewhere finding hFinding

end UiLint
