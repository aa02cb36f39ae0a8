import UiLint.Proofs.Engine.Emission
import UiLint.Proofs.Engine.History

/-! Calls are all or nothing. In every state that a run can be in, a call of any rule either has all
its edits made and adds its own findings only, or leaves the tree and the findings as they are and
adds one more finding that says why. -/
namespace UiLint

theorem Ending.failure?_eq_none_iff {ending : Ending} : ending.failure? = none ↔ ending = .done := by
  cases ending <;> simp [failure?]

/-- The states that runs can be in. A run starts with a tree that a builder made; after that any rule
may be called at any hook for any node of the tree as it then is, and may answer anything as long as
the text can be measured. The order in which a run calls its rules is not required here. -/
inductive Progress.Reachable (fixing : Bool) : Progress → Prop where
  | start {events : List Event} {tree : SourceTree} (built : SourceTree.ofEvents events = .ok tree)
      (fits : tree.text.utf8ByteSize < distanceBound) : Reachable fixing { tree }
  | step {progress : Progress} {call : Call} (prior : Reachable fixing progress)
      (here : call.IsAt progress) (mode : call.fixing = fixing) (fits : call.Fits) :
      Reachable fixing (progress.take call)

namespace Progress

variable {fixing : Bool} {progress : Progress} {call : Call}

theorem Reachable.sound (h : progress.Reachable fixing) : progress.Sound := by
  induction h with
  | start built fits => exact ⟨rfl, (SourceTree.canonical_of_ofEvents built).1, fits⟩
  | step _ here _ fits ih => exact ih.take here fits

theorem Reachable.replay {indices : List Nat} {calls : List Call} (h : progress.Reachable fixing)
    (hAdmits : Admits fixing indices progress calls) (hFits : ∀ call ∈ calls, call.Fits) :
    (progress.replay calls).Reachable fixing := by
  induction calls generalizing progress with
  | nil => exact h
  | cons call calls ih =>
      rw [List.forall_mem_cons] at hFits
      obtain ⟨⟨hAt, hMode, -⟩, hRest⟩ := hAdmits
      exact ih (h.step hAt hMode hFits.1) hRest hFits.2

/-- Every state on the way of a run is reachable. -/
theorem reachable_of_run {events : List Event} {tree : SourceTree}
    (hTree : SourceTree.ofEvents events = .ok tree) (hFits : tree.text.utf8ByteSize < distanceBound)
    (rules : List ActiveRule) (fixing : Bool)
    (hCalls : ∀ call ∈ (runRules rules tree fixing).calls, call.Fits) (number : Nat) :
    (Progress.replay { tree } ((runRules rules tree fixing).calls.take number)).Reachable fixing := by
  obtain ⟨-, hAdmits⟩ := runRules_eq_replay rules tree fixing
  rw [← List.take_append_drop number (runRules rules tree fixing).calls, admits_append] at hAdmits
  exact (Reachable.start hTree hFits).replay hAdmits.1 fun call hCall =>
    hCalls call (List.mem_of_mem_take hCall)

end Progress

namespace Call

/-- The call is carried out. It ended well and each of its edits can be made, in their order; the node
that they lead to stands in the place of the old one. The findings are the old ones and those of the
call, all of them moved by the edits, and those of the call are fixed if there were edits. -/
structure CarriedOut (call : Call) (before after : Progress) : Prop where
  ended : call.response.ending = .done
  edited : ∃ node, Edit.redraftAll? call.site.node call.edits = some node ∧
    Edit.applyAll call.site.path call.site.node call.edits =
      .ok (node, Edit.shifts call.site.node call.edits) ∧
    after.tree.root = (before.tree.root.replaceAt call.site.path node).layout 0
  findings : after.findings =
    before.findings.map (Finding.moveThrough (Edit.shifts call.site.node call.edits)) ++
      (Finding.ofRemarks call.rule before.findings.length call.response.remarks).map fun finding =>
        if call.edits = [] then finding
        else (finding.moveThrough (Edit.shifts call.site.node call.edits)).fix

/-- The call is discarded. It did not end well, or one of its edits cannot be made after those before
it. The tree and the old findings are as they were, the findings of the call are kept as it reported
them, and one more says that the call failed. -/
structure Discarded (call : Call) (before after : Progress) : Prop where
  failed : call.response.ending ≠ .done ∨ Edit.redraftAll? call.site.node call.edits = none
  tree : after.tree = before.tree
  findings : ∃ detail, call.failure? = some detail ∧ after.findings = before.findings ++
    Finding.ofRemarks call.rule before.findings.length call.response.remarks ++
      [⟨call.site.node.span.start, call.rule,
        before.findings.length + call.response.remarks.length, "rule-failure: " ++ detail, false,
        false⟩]

end Call

namespace Progress

variable {progress : Progress} {call : Call}

/-- A call that asked for no edit and ended well is carried out. -/
theorem Sound.carriedOut_of_no_edits (h : progress.Sound) (hAt : call.IsAt progress)
    (hEnding : call.response.ending = .done) (hEdits : call.edits = []) :
    call.CarriedOut progress (progress.take call) := by
  have hTake : progress.take call = progress.tell call := by
    simp only [Progress.take, Ending.failure?_eq_none_iff.mpr hEnding, hEdits, List.isEmpty_nil, if_true]
  refine ⟨hEnding, ⟨call.site.node, ?_, ?_, ?_⟩, ?_⟩
  · rw [hEdits, Edit.redraftAll?]
  · rw [hEdits, Edit.applyAll, Edit.shifts]
  · rw [hTake, Node.replaceAt_self hAt.site.2, h.canonical.laid]
    rfl
  · have hStill : Finding.moveThrough [] = id := funext fun _ => rfl
    rw [hTake, findings_tell, hEdits, Edit.shifts, hStill]
    simp

/-- A call whose edits can all be made is carried out. -/
theorem Sound.carriedOut_of_draft {next : Node} (h : progress.Sound) (hAt : call.IsAt progress)
    (hFits : call.Fits) (hNext : call.draft? = some next) :
    call.CarriedOut progress (progress.take call) := by
  obtain ⟨hEnding, hSome, hAll⟩ := draft?_eq_some hNext
  obtain ⟨hNode, -, hStop⟩ := h.node hAt
  have hApply := Edit.applyAll_eq_ok call.site.path hNode hAll hStop
    (h.stop_of_mem_drafts hAt hEnding hFits)
  refine ⟨Ending.failure?_eq_none_iff.mp hEnding, ⟨next, hAll, hApply, ?_⟩, ?_⟩
  · rw [h.take_of_draft hAt hFits hNext]
  · rw [h.findings_take_of_draft hAt hFits hNext, List.map_map]
    simp only [if_neg hSome]
    rfl

theorem discarded_of_failure {detail : String} (hFailure : call.failure? = some detail)
    (hFailed : call.response.ending ≠ .done ∨ Edit.redraftAll? call.site.node call.edits = none)
    (hTree : (progress.take call).tree = progress.tree) :
    call.Discarded progress (progress.take call) := by
  refine ⟨hFailed, hTree, detail, hFailure, ?_⟩
  rw [findings_take_of_failure hFailure, Finding.push, findings_tell]
  simp [Finding.ofRemarks]

/-- In a sound state a call is carried out or discarded. -/
theorem Sound.carriedOut_or_discarded (h : progress.Sound) (hAt : call.IsAt progress)
    (hFits : call.Fits) :
    call.CarriedOut progress (progress.take call) ∨ call.Discarded progress (progress.take call) := by
  cases hEnding : call.response.ending.failure? with
  | some detail =>
      have hFailure : call.failure? = some detail := by simp only [Call.failure?, hEnding]
      refine .inr (discarded_of_failure hFailure (.inl fun hDone => ?_) ?_)
      · rw [Ending.failure?_eq_none_iff.mpr hDone] at hEnding
        cases hEnding
      · simp only [Progress.take, hEnding]
        rfl
  | none =>
      by_cases hEdits : call.edits = []
      · exact .inl (h.carriedOut_of_no_edits hAt (Ending.failure?_eq_none_iff.mp hEnding) hEdits)
      · cases hAll : Edit.redraftAll? call.site.node call.edits with
        | some next =>
            have hNext : call.draft? = some next := by
              simp only [Call.draft?, hEnding, List.isEmpty_iff, if_neg hEdits, hAll]
            exact .inl (h.carriedOut_of_draft hAt hFits hNext)
        | none =>
            obtain ⟨hNode, -, hStop⟩ := h.node hAt
            obtain ⟨error, hError⟩ := Edit.applyAll_eq_error call.site.path hNode hAll hStop
              (h.stop_of_mem_drafts hAt hEnding hFits)
            have hFailure : call.failure? = some error.message := by
              simp only [Call.failure?, hEnding, hError]
            refine .inr (discarded_of_failure hFailure (.inr hAll) ?_)
            simp only [Progress.take, hEnding, List.isEmpty_iff, if_neg hEdits, edit, hError]
            rfl

end Progress

/-- The findings before a call that is carried out keep everything but their offsets. -/
theorem Call.CarriedOut.kept {call : Call} {before after : Progress} (h : call.CarriedOut before after)
    {index : Nat} {finding : Finding} (hFinding : before.findings[index]? = some finding) :
    ∃ offset, after.findings[index]? = some { finding with offset } := by
  obtain ⟨hIndex, -⟩ := List.getElem?_eq_some_iff.mp hFinding
  rw [h.findings, List.getElem?_append_left (by simpa using hIndex), List.getElem?_map, hFinding]
  exact ⟨_, rfl⟩

/-- The findings before a call that is discarded stay as they are. -/
theorem Call.Discarded.kept {call : Call} {before after : Progress} (h : call.Discarded before after)
    {index : Nat} {finding : Finding} (hFinding : before.findings[index]? = some finding) :
    after.findings[index]? = some finding := by
  obtain ⟨hIndex, -⟩ := List.getElem?_eq_some_iff.mp hFinding
  obtain ⟨detail, -, hFindings⟩ := h.findings
  rw [hFindings, List.append_assoc, List.getElem?_append_left hIndex, hFinding]

/-- The call that a rule answers for the node at a site. -/
def ActiveRule.callAt (rule : ActiveRule) (fixing : Bool) (hook : Hook) (site : Site) : Call :=
  ⟨rule.index, hook, site, fixing, (rule.answer fixing hook site).2⟩

/-- In every reachable state, calling any rule at any hook for any node is all or nothing, whatever
the rule answers: the call is carried out or discarded, and the run goes on. Either way the findings
before the call keep their rule, their message and their flags. -/
theorem ActiveRule.invoke_all_or_nothing {fixing : Bool} {progress : Progress}
    (hReachable : progress.Reachable fixing) (rule : ActiveRule) (hook : Hook) (site : Site)
    (hSite : Site.at? progress.tree.root site.path = some site)
    (hFits : (rule.callAt fixing hook site).Fits) :
    ((rule.callAt fixing hook site).CarriedOut progress
        (rule.invoke fixing hook site.path progress).2 ∨
      (rule.callAt fixing hook site).Discarded progress
        (rule.invoke fixing hook site.path progress).2) ∧
    (rule.invoke fixing hook site.path progress).2.aborted = none ∧
    ∀ (index : Nat) (finding : Finding), progress.findings[index]? = some finding →
      ∃ offset, (rule.invoke fixing hook site.path progress).2.findings[index]? =
        some { finding with offset } := by
  have hTake : (rule.invoke fixing hook site.path progress).2 =
      progress.take (rule.callAt fixing hook site) := by
    rw [invoke, hSite]
    rfl
  have hOutcome := hReachable.sound.carriedOut_or_discarded (by exact hSite) hFits
  rw [hTake]
  refine ⟨hOutcome, (hReachable.sound.take (by exact hSite) hFits).running, ?_⟩
  intro index finding hFinding
  rcases hOutcome with hDone | hNone
  · exact hDone.kept hFinding
  · exact ⟨finding.offset, hNone.kept hFinding⟩

namespace Half

/-- A rule that gives the second parameter of a function a default value. -/
def complete : ActiveRule :=
  ⟨0, "complete", Hooks.none.add .function, .stateless fun _ =>
    { remarks := [⟨12, "lacks", true⟩], edits := [⟨[1, 3], .defaultValue "B()"⟩] }⟩

/-- A rule that cuts the first parameter of a function short, and then asks for one that is not
there. -/
def half : ActiveRule :=
  ⟨1, "half", Hooks.none.add .function, .stateless fun _ =>
    { remarks := [⟨12, "wide", true⟩], edits := [⟨[1, 1], .lastToken "a"⟩, ⟨[1, 9], .lastToken "x"⟩] }⟩

end Half

/-- After a call that was carried out, the first of two edits is undone as the second fails. -/
theorem ActiveRule.invoke_all_or_nothing_half :
    ∃ progress : Progress, progress.Reachable true ∧
      progress.tree.text = "fun f(a: A, b: B = B())" ∧
      progress.findings = [⟨12, 0, 0, "lacks", true, true⟩] ∧
      (Half.half.invoke true .function [0] progress).2.tree = progress.tree ∧
      (Half.half.invoke true .function [0] progress).2.findings =
        [⟨12, 0, 0, "lacks", true, true⟩, ⟨12, 1, 1, "wide", true, false⟩,
          ⟨0, 1, 2, "rule-failure: edit target [1, 9] is missing or cannot be edited", false,
            false⟩] := by
  have hTree : SourceTree.ofEvents Reshaping.events = .ok _ := rfl
  have hReachable := Progress.reachable_of_run hTree (by decide +kernel) [Half.complete] true
    (by decide +kernel) 1
  refine ⟨_, hReachable, by decide +kernel, by decide +kernel, ?_⟩
  obtain ⟨hOutcome, -, -⟩ := ActiveRule.invoke_all_or_nothing hReachable Half.half .function
    ⟨_, [0], _⟩ rfl (by decide +kernel)
  rcases hOutcome with hDone | hNone
  · obtain ⟨node, hNode, -⟩ := hDone.edited
    cases hNode
  · exact ⟨hNone.tree, by decide +kernel⟩

end UiLint
