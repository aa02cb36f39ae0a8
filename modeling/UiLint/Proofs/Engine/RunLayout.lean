import UiLint.Linter.Basic
import UiLint.Proofs.Engine.Run
import UiLint.Proofs.Tree.Builder
import UiLint.Proofs.Tree.Position
import UiLint.Script

/-! Runs keep the tree laid out. Offsets are kept up edit by edit, and never computed again for
the whole file; as long as the text fits, the run is never stopped and ends in a tree whose
spans are exactly those of its text. -/
namespace UiLint

namespace Call

/-- The whole files that a call leads through, one after each of its edits. A call that did
not end well has none of its edits made. -/
def stages (call : Call) : List Node :=
  match call.response.ending.failure? with
  | some _ => []
  | none =>
      (Edit.drafts call.site.node call.edits).map (call.site.root.replaceAt call.site.path)

/-- The text of the file can be measured at every stage of the call. -/
def Fits (call : Call) : Prop :=
  ∀ stage ∈ call.stages, stage.text.utf8ByteSize < distanceBound

instance (call : Call) : Decidable call.Fits :=
  inferInstanceAs (Decidable (∀ stage ∈ call.stages, stage.text.utf8ByteSize < distanceBound))

theorem fits_of_no_edits {call : Call} (hEdits : call.edits = []) : call.Fits := by
  intro stage hStage
  rw [stages, hEdits] at hStage
  split at hStage
  · cases hStage
  · simp [Edit.drafts] at hStage

/-- The visited node as the call leaves it, if the call changes it. -/
def draft? (call : Call) : Option Node :=
  match call.response.ending.failure? with
  | some _ => none
  | none => if call.edits.isEmpty then none else Edit.redraftAll? call.site.node call.edits

end Call

namespace Progress

/-- The run has not been stopped, and its tree is laid out and can be measured. -/
structure Sound (progress : Progress) : Prop where
  running : progress.aborted = none
  canonical : progress.tree.Canonical
  fits : progress.tree.root.size < distanceBound

variable {progress : Progress} {call : Call}

/-- The visited node is laid out and ends within the file. -/
theorem Sound.node (h : progress.Sound) (hAt : call.IsAt progress) :
    call.site.node.Canonical ∧
      call.site.node.span.start = progress.tree.root.offsetAt call.site.path ∧
      call.site.node.span.stop < distanceBound := by
  obtain ⟨hRoot, hZero⟩ := h.canonical.root
  obtain ⟨hNode, hStart⟩ := hRoot.descendant hAt.site.2
  rw [hZero, Nat.zero_add] at hStart
  have hInside := Node.offsetAt_add_size_le h.canonical.wellFormed hAt.site.2
  have hStop := hNode.stop_eq
  have hFits := h.fits
  exact ⟨hNode, hStart, by omega⟩

/-- Every stage of the visited node ends within the file. -/
theorem Sound.stop_of_mem_drafts (h : progress.Sound) (hAt : call.IsAt progress)
    (hEnding : call.response.ending.failure? = none) (hFits : call.Fits) :
    ∀ draft ∈ Edit.drafts call.site.node call.edits, draft.span.stop < distanceBound := by
  intro draft hDraft
  obtain ⟨hNode, hStart, -⟩ := h.node hAt
  obtain ⟨hCanonical, hSame⟩ := Edit.canonical_of_mem_drafts hNode hDraft
  have hStage : (progress.tree.root.replaceAt call.site.path draft).size < distanceBound := by
    apply hFits
    rw [Call.stages, hEnding, hAt.site.1]
    exact List.mem_map_of_mem hDraft
  have hSize := Node.size_replaceAt h.canonical.wellFormed hAt.site.2 draft
  have hInside := Node.offsetAt_add_size_le h.canonical.wellFormed hAt.site.2
  have hStop := hCanonical.stop_eq
  omega

theorem draft?_eq_some {next : Node} (hNext : call.draft? = some next) :
    call.response.ending.failure? = none ∧ call.edits ≠ [] ∧
      Edit.redraftAll? call.site.node call.edits = some next := by
  unfold Call.draft? at hNext
  split at hNext
  · cases hNext
  · rename_i hEnding
    split at hNext
    · cases hNext
    · rename_i hSome
      exact ⟨hEnding, by simpa using hSome, hNext⟩

/-- The tree with the changed node in it is well-formed and can be measured. -/
theorem Sound.replaceAt_of_draft {next : Node} (h : progress.Sound) (hAt : call.IsAt progress)
    (hFits : call.Fits) (hNext : call.draft? = some next) :
    (progress.tree.root.replaceAt call.site.path next).WellFormed ∧
      (progress.tree.root.replaceAt call.site.path next).size < distanceBound := by
  obtain ⟨hEnding, hSome, hAll⟩ := draft?_eq_some hNext
  refine ⟨h.canonical.wellFormed.replaceAt ?_ _, ?_⟩
  · exact (Edit.canonical_redraftAll? (h.node hAt).1 hAll).1.wellFormed
  · apply hFits
    rw [Call.stages, hEnding, hAt.site.1]
    exact List.mem_map_of_mem (Edit.mem_drafts_of_redraftAll? hSome hAll)

/-- A call that changes its node puts the changed node into the tree and lays the tree out. -/
theorem Sound.take_of_draft {next : Node} (h : progress.Sound) (hAt : call.IsAt progress)
    (hFits : call.Fits) (hNext : call.draft? = some next) :
    progress.take call =
      { progress.tell call with
        tree := ⟨(progress.tree.root.replaceAt call.site.path next).layout 0⟩
        findings := Finding.fixFrom
          (Finding.moveAll (progress.tell call).findings (Edit.shifts call.site.node call.edits))
          progress.findings.length } := by
  obtain ⟨hEnding, hSome, hAll⟩ := draft?_eq_some hNext
  obtain ⟨hNode, hStart, hStop⟩ := h.node hAt
  obtain ⟨hCanonical, hSame⟩ := Edit.canonical_redraftAll? hNode hAll
  have hLaid : next.layout (progress.tree.root.offsetAt call.site.path) = next := by
    rw [← hStart, ← hSame, hCanonical.laid]
  have hApply := Edit.applyAll_eq_ok call.site.path hNode hAll hStop
    (h.stop_of_mem_drafts hAt hEnding hFits)
  have hReplace := SourceTree.replaceSubtree_eq_ok h.canonical.wellFormed h.canonical.laid
    hAt.site.2 hCanonical.wellFormed hLaid h.fits (h.replaceAt_of_draft hAt hFits hNext).2
  have hEdits : ¬ call.edits.isEmpty = true := by simpa using hSome
  simp only [take, hEnding, if_neg hEdits, edit, hApply]
  rw [show (progress.tell call).tree = progress.tree from rfl, hReplace]

/-- A call that does not change its node leaves the tree alone, and is recorded as failed
unless it asked for nothing. -/
theorem Sound.take_of_no_draft (h : progress.Sound) (hAt : call.IsAt progress)
    (hFits : call.Fits) (hNone : call.draft? = none) :
    progress.take call = progress.tell call ∨
      ∃ detail, progress.take call =
        (progress.tell call).fail call.rule call.site.node.span.start detail := by
  unfold Call.draft? at hNone
  split at hNone
  · rename_i detail hEnding
    exact .inr ⟨detail, by simp only [take, hEnding]⟩
  · rename_i hEnding
    split at hNone
    · rename_i hEmpty
      exact .inl (by simp only [take, hEnding, if_pos hEmpty])
    · rename_i hSome
      obtain ⟨hNode, -, hStop⟩ := h.node hAt
      obtain ⟨error, hError⟩ := Edit.applyAll_eq_error call.site.path hNode hNone hStop
        (h.stop_of_mem_drafts hAt hEnding hFits)
      exact .inr ⟨error.message, by simp only [take, hEnding, if_neg hSome, edit, hError]⟩

/-- A call whose stages fit keeps the run sound, whatever the visitor answered. -/
theorem Sound.take (h : progress.Sound) (hAt : call.IsAt progress) (hFits : call.Fits) :
    (progress.take call).Sound := by
  cases hDraft : call.draft? with
  | none =>
      rcases h.take_of_no_draft hAt hFits hDraft with hTake | ⟨detail, hTake⟩
      · rw [hTake]
        exact ⟨h.running, h.canonical, h.fits⟩
      · rw [hTake]
        exact ⟨h.running, h.canonical, h.fits⟩
  | some next =>
      rw [h.take_of_draft hAt hFits hDraft]
      obtain ⟨hWell, hStillFits⟩ := h.replaceAt_of_draft hAt hFits hDraft
      exact ⟨h.running, ⟨hWell.layout 0, Node.layout_layout 0 0 _⟩, by rwa [Node.size_layout]⟩

/-- A run over a canonical tree is sound at its end, if the text fits all along. -/
theorem sound_runRules (rules : List ActiveRule) (fixing : Bool) {tree : SourceTree}
    (hTree : tree.Canonical) (hFits : tree.root.size < distanceBound)
    (hCalls : ∀ call ∈ (runRules rules tree fixing).calls, call.Fits) :
    (runRules rules tree fixing).Sound := by
  refine runRules_induction (P := fun progress => (∀ call ∈ progress.calls, call.Fits) →
    progress.Sound) fixing ?_ rules (fun rule => List.mem_map_of_mem) tree
    (fun _ => ⟨rfl, hTree, hFits⟩) hCalls
  intro progress call hBefore _ _ _ hAt hAll
  rw [calls_take, List.forall_mem_append, List.forall_mem_singleton] at hAll
  exact (hBefore hAll.1).take hAt hAll.2

end Progress

/-- A run that does not fix leaves the tree alone, so that there is nothing to measure. -/
theorem tree_runRules_of_lint (rules : List ActiveRule) (tree : SourceTree) :
    (runRules rules tree false).tree = tree ∧
      ∀ call ∈ (runRules rules tree false).calls, call.Fits := by
  refine runRules_induction (P := fun progress => progress.tree = tree ∧
    ∀ call ∈ progress.calls, call.Fits) false ?_ rules (fun rule => List.mem_map_of_mem) tree
    ⟨rfl, by simp⟩
  rintro progress call ⟨rfl, hBefore⟩ _ hFixing _ _
  have hEdits : call.edits = [] := by
    rw [Call.edits, hFixing]
    rfl
  constructor
  · unfold Progress.take
    split
    · rfl
    · rw [hEdits]
      rfl
  · rw [Progress.calls_take, List.forall_mem_append, List.forall_mem_singleton]
    exact ⟨hBefore, Call.fits_of_no_edits hEdits⟩

theorem Linter.startRule_eq_ok {config : Config} {rule : Rule} {index : Nat} {active : ActiveRule}
    (hActive : startRule config rule index = .ok active) :
    ∃ options visitor, Options.resolve rule.options config.settings = .ok options ∧
      rule.start options = .ok visitor ∧ active = ⟨index, rule.name, rule.hooks, visitor⟩ := by
  unfold startRule at hActive
  split at hActive
  · cases hActive
  · rename_i options hOptions
    split at hActive
    · cases hActive
    · rename_i visitor hVisitor
      cases hActive
      exact ⟨options, visitor, hOptions, hVisitor, rfl⟩

/-- A rule that is turned off is passed over, and any other is started before those after it. -/
theorem Linter.startFrom_cons {config : Config} {index : Nat} {rule : Rule} {rules : List Rule}
    {active : List ActiveRule} (hActive : startFrom config index (rule :: rules) = .ok active) :
    (config.isRuleEnabled rule.name = false ∧ startFrom config (index + 1) rules = .ok active) ∨
      ∃ first others, config.isRuleEnabled rule.name = true ∧
        startRule config rule index = .ok first ∧
        startFrom config (index + 1) rules = .ok others ∧ active = first :: others := by
  rw [startFrom] at hActive
  split at hActive
  · rename_i hEnabled
    split at hActive
    · cases hActive
    · rename_i first hFirst
      split at hActive
      · cases hActive
      · rename_i others hOthers
        cases hActive
        exact .inr ⟨first, others, hEnabled, hFirst, hOthers, rfl⟩
  · rename_i hDisabled
    exact .inl ⟨by simpa using hDisabled, hActive⟩

/-- Rules that have been started are in the order of their places. -/
theorem Linter.pairwise_startFrom {config : Config} {index : Nat} {rules : List Rule}
    {active : List ActiveRule} (hActive : startFrom config index rules = .ok active) :
    (∀ rule ∈ active, index ≤ rule.index) ∧
      active.Pairwise fun first second => first.index < second.index := by
  induction rules generalizing index active with
  | nil =>
      cases hActive
      exact ⟨by simp, .nil⟩
  | cons rule rules ih =>
      rcases startFrom_cons hActive with ⟨-, hRest⟩ | ⟨first, others, -, hFirst, hOthers, rfl⟩
      · obtain ⟨hAbove, hOrder⟩ := ih hRest
        exact ⟨fun other hOther => Nat.le_of_succ_le (hAbove other hOther), hOrder⟩
      · obtain ⟨hAbove, hOrder⟩ := ih hOthers
        obtain ⟨options, visitor, -, -, rfl⟩ := startRule_eq_ok hFirst
        refine ⟨List.forall_mem_cons.mpr ⟨Nat.le_refl _, fun other hOther => ?_⟩, .cons ?_ hOrder⟩
        · exact Nat.le_of_succ_le (hAbove other hOther)
        · exact fun other hOther => hAbove other hOther

/-- The violations are those that the findings of the linter's rules amount to. -/
theorem Linter.mem_violations {linter : Linter} {text : String} {findings : List Finding}
    {found : Violation} :
    found ∈ linter.violations text findings ↔
      ∃ finding ∈ findings, ∃ rule, linter.rules[finding.rule]? = some rule ∧
        found = violation linter.config rule
          ((Text.LineIndex.ofText text).position finding.offset, finding) := by
  simp only [violations, locate, List.mem_filterMap, List.mem_mergeSort, List.mem_map,
    Option.map_eq_some_iff]
  constructor
  · rintro ⟨located, ⟨finding, hFinding, rfl⟩, rule, hRule, rfl⟩
    exact ⟨finding, hFinding, rule, hRule, rfl⟩
  · rintro ⟨finding, hFinding, rule, hRule, rfl⟩
    exact ⟨_, ⟨finding, hFinding, rfl⟩, rule, hRule, rfl⟩

/-- Once the rules have been started, a linter reports what their run comes to. -/
theorem Linter.run_eq_ok {linter : Linter} {rules : List ActiveRule}
    (hRules : linter.start = .ok rules) (file : SourceFile) (fixing : Bool) :
    linter.run file fixing =
      .ok ⟨⟨file.path, linter.violations (runRules rules file.tree fixing).tree.text
        (runRules rules file.tree fixing).findings, (runRules rules file.tree fixing).aborted⟩,
        (runRules rules file.tree fixing).tree⟩ := by
  rw [Linter.run, hRules]

/-- A run over a file that a builder made, by any rules with any visitors, is never stopped as
long as the length of the text can be measured at every stage. In the tree it ends with, each
node spans the bytes of its own text right after the tokens before it in pre-order; the tree
is its own layout, as long as its text, and in order. -/
theorem Linter.run_layout_exact {events : List Event} {tree : SourceTree}
    (hTree : SourceTree.ofEvents events = .ok tree) (linter : Linter) {rules : List ActiveRule}
    (hRules : linter.start = .ok rules) (path : String) (fixing : Bool)
    (hFits : tree.text.utf8ByteSize < distanceBound)
    (hCalls : ∀ call ∈ (runRules rules tree fixing).calls, call.Fits) :
    ∃ fixed, linter.run ⟨path, tree⟩ fixing = .ok fixed ∧
      fixed.report.aborted = none ∧
      fixed.tree.root.layout 0 = fixed.tree.root ∧
      fixed.tree.length = fixed.tree.text.utf8ByteSize ∧
      (∀ place node, fixed.tree.root.descendant? place = some node →
        node.span = ⟨(fixed.tree.root.textBefore place).utf8ByteSize,
          (fixed.tree.root.textBefore place).utf8ByteSize + node.text.utf8ByteSize⟩ ∧
        fixed.tree.text.toByteArray.extract node.span.start node.span.stop =
          node.text.toByteArray) ∧
      fixed.tree.fault? = none := by
  obtain ⟨hCanonical, -⟩ := SourceTree.canonical_of_ofEvents hTree
  have hSound := Progress.sound_runRules rules fixing hCanonical hFits hCalls
  obtain ⟨hRunning, ⟨hWell, hLaid⟩, -⟩ := hSound
  refine ⟨_, run_eq_ok hRules ⟨path, tree⟩ fixing, hRunning, hLaid, ?_, ?_, ?_⟩
  · have hStop := Node.stop_of_layout_eq hLaid
    rw [Nat.zero_add] at hStop
    exact hStop
  · intro place node hNode
    exact ⟨Node.span_eq_of_layout hWell hLaid hNode,
      Node.extract_text_of_layout hWell hLaid hNode⟩
  · rw [SourceTree.fault?, if_pos (Node.start_of_layout_eq hLaid)]
    have hFault := Node.subtreeFault?_layout hWell 0
    rwa [hLaid] at hFault

namespace Reshaping

/-- The events of `fun f(a: A, b: B)`. -/
def events : List Event :=
  [.start .file (.file {}), .start .functionDeclaration (.function { name := "f" }),
    .token "fun f", .start .parameterList .plain, .token "(",
    .start .parameter (.parameter ⟨"a", "A"⟩), .token "a: A", .finish, .token ", ",
    .start .parameter (.parameter ⟨"b", "B"⟩), .token "b: B", .finish, .token ")", .finish, .finish,
    .finish]

/-- A rule that lengthens the first parameter of a function twice and cuts the second short. -/
def script : Script.RuleScript where
  name := "reshape"
  code := "R"
  entries := [{ hook := .function, actions := [.setDefault "é" (.parameter 0),
    .replaceLastToken "b" (.parameter 1), .setDefault "A()" (.parameter 0)] }]

def linter : Linter := Linter.build [script.rule] {}

end Reshaping

/-- Three edits in one call, of growing and shrinking parameters. -/
theorem Linter.run_layout_exact_reshaping :
    ∃ tree fixed, SourceTree.ofEvents Reshaping.events = .ok tree ∧
      Reshaping.linter.run ⟨"f", tree⟩ true = .ok fixed ∧ fixed.report.aborted = none ∧
      fixed.source = "fun f(a: A = A(), b)" ∧ fixed.tree.root.layout 0 = fixed.tree.root ∧
      fixed.tree.length = 20 := by
  have hTree : SourceTree.ofEvents Reshaping.events = .ok _ := rfl
  obtain ⟨fixed, hFixed, hRunning, hLaid, -⟩ := Linter.run_layout_exact hTree Reshaping.linter rfl
    "f" true (by decide +kernel) (by decide +kernel)
  refine ⟨_, fixed, rfl, hFixed, hRunning, ?_, hLaid, ?_⟩
  · cases hFixed
    decide +kernel
  · cases hFixed
    decide +kernel

end UiLint
