import Mathlib.Data.List.Forall2
import UiLint.Proofs.Engine.Findings

/-! What the calls of a run emit, and whose calls they are. The findings of a run stand one by one
for the remarks of its calls, with one remark more for every call that failed; and every call is
answered by the visitor of the rule that it names, as the earlier calls of that rule left it. -/
namespace UiLint

namespace Call

/-- What a call that failed has to say for itself. A call fails if it does not end well, or if it
asks for impossible edits. -/
def failure? (call : Call) : Option String :=
  match call.response.ending.failure? with
  | some detail => some detail
  | none =>
      match Edit.applyAll call.site.path call.site.node call.edits with
      | .error (.rule error) => some error.message
      | _ => none

/-- The remarks of a call, and after them one more if the call failed. -/
def emissions (call : Call) : List Remark :=
  call.response.remarks ++ (call.failure?.map fun detail =>
    ⟨call.site.node.span.start, "rule-failure: " ++ detail, false⟩).toList

/-- Everything that calls emit, in order, each with its call. -/
def emissionsOfAll (calls : List Call) : List (Call × Remark) :=
  calls.flatMap fun call => call.emissions.map (call, ·)

end Call

/-- The finding keeps what was emitted: the rule, the message, and whether it can be fixed. Only a
run that fixes moves it or marks it as fixed. -/
structure Finding.Keeps (fixing : Bool) (emission : Call × Remark) (finding : Finding) : Prop where
  rule : finding.rule = emission.1.rule
  message : finding.message = emission.2.message
  fixable : finding.fixable = emission.2.fixable
  unmoved : fixing = false → finding.offset = emission.2.offset ∧ finding.autoFixed = false

namespace Finding

variable {fixing : Bool} {emissions : List (Call × Remark)} {findings : List Finding}

theorem keeps_push (h : List.Forall₂ (Keeps fixing) emissions findings) (call : Call)
    (remark : Remark) :
    List.Forall₂ (Keeps fixing) (emissions ++ [(call, remark)]) (push findings call.rule remark) :=
  List.rel_append h (.cons ⟨rfl, rfl, rfl, fun _ => ⟨rfl, rfl⟩⟩ .nil)

theorem keeps_pushAll (h : List.Forall₂ (Keeps fixing) emissions findings) (call : Call)
    (remarks : List Remark) :
    List.Forall₂ (Keeps fixing) (emissions ++ remarks.map (call, ·))
      (pushAll findings call.rule remarks) := by
  induction remarks generalizing emissions findings with
  | nil => rwa [List.map_nil, List.append_nil]
  | cons remark remarks ih =>
      rw [List.map_cons, List.append_cons]
      exact ih (keeps_push h call remark)

/-- In a run that fixes, findings keep what they stand for while edits move and fix them. -/
theorem keeps_fixFrom_moveAll (h : List.Forall₂ (Keeps true) emissions findings)
    (shifts : List Shift) (place : Nat) :
    List.Forall₂ (Keeps true) emissions (fixFrom (moveAll findings shifts) place) := by
  have hMoved : List.Forall₂ (Keeps true) emissions (findings.map (moveThrough shifts)) :=
    List.forall₂_map_right_iff.mpr
      (h.imp fun _ _ hKeeps => ⟨hKeeps.rule, hKeeps.message, hKeeps.fixable, nofun⟩)
  rw [moveAll_eq, fixFrom, ← List.take_append_drop place emissions]
  refine List.rel_append (List.forall₂_take place hMoved) (List.forall₂_map_right_iff.mpr ?_)
  exact (List.forall₂_drop place hMoved).imp fun _ _ hKeeps =>
    ⟨hKeeps.rule, hKeeps.message, hKeeps.fixable, nofun⟩

end Finding

namespace Progress

/-- The findings stand one by one for what the calls emitted. -/
def Accounts (fixing : Bool) (progress : Progress) : Prop :=
  List.Forall₂ (Finding.Keeps fixing) (Call.emissionsOfAll progress.calls) progress.findings

variable {fixing : Bool} {progress : Progress} {call : Call}

theorem Accounts.length_eq (h : progress.Accounts fixing) :
    (Call.emissionsOfAll progress.calls).length = progress.findings.length :=
  List.Forall₂.length_eq h

/-- The finding with a number stands for the emission with that number. -/
theorem Accounts.exists_emission (h : progress.Accounts fixing) {number : Nat} {finding : Finding}
    (hFinding : progress.findings[number]? = some finding) :
    ∃ emission, (Call.emissionsOfAll progress.calls)[number]? = some emission ∧
      Finding.Keeps fixing emission finding := by
  obtain ⟨hBound, rfl⟩ := List.getElem?_eq_some_iff.mp hFinding
  have hEmitted : number < (Call.emissionsOfAll progress.calls).length := by rwa [h.length_eq]
  exact ⟨_, List.getElem?_eq_getElem hEmitted, List.Forall₂.get h hEmitted hBound⟩

theorem findings_take_of_failure {detail : String} (hFailure : call.failure? = some detail) :
    (progress.take call).findings = Finding.push (progress.tell call).findings call.rule
      ⟨call.site.node.span.start, "rule-failure: " ++ detail, false⟩ := by
  unfold Call.failure? at hFailure
  unfold Progress.take
  cases hEnding : call.response.ending.failure? with
  | some message =>
      rw [hEnding] at hFailure
      cases hFailure
      rfl
  | none =>
      simp only [hEnding] at hFailure
      split at hFailure
      · rename_i error hApply
        cases hFailure
        have hEdits : ¬ call.edits.isEmpty = true := by
          intro hEmpty
          rw [List.isEmpty_iff.mp hEmpty] at hApply
          cases hApply
        simp only [if_neg hEdits, Progress.edit, hApply]
        rfl
      · cases hFailure

/-- A call that does not fail leaves the findings as they are after its remarks, or edits move all of
them and fix its own. -/
theorem findings_take_of_success (hFailure : call.failure? = none) :
    (progress.take call).findings = (progress.tell call).findings ∨
      call.fixing = true ∧ ∃ shifts, (progress.take call).findings = Finding.fixFrom
        (Finding.moveAll (progress.tell call).findings shifts) progress.findings.length := by
  unfold Call.failure? at hFailure
  unfold Progress.take
  cases hEnding : call.response.ending.failure? with
  | some message =>
      rw [hEnding] at hFailure
      cases hFailure
  | none =>
      simp only [hEnding] at hFailure ⊢
      by_cases hEdits : call.edits.isEmpty = true
      · rw [if_pos hEdits]
        exact .inl rfl
      · have hFixing : call.fixing = true := by
          by_contra hLint
          simp [Call.edits, hLint] at hEdits
        rw [if_neg hEdits, Progress.edit]
        cases hApply : Edit.applyAll call.site.path call.site.node call.edits with
        | error failure =>
            cases failure with
            | rule error => simp [hApply] at hFailure
            | layout error => exact .inl rfl
        | ok made =>
            cases hTree : (progress.tell call).tree.replaceSubtree call.site.path made.1 with
            | error error => exact .inl (by simp only [hTree])
            | ok tree => exact .inr ⟨hFixing, made.2, by simp only [hTree]⟩

/-- One call adds what it emits, whether it ends well, fails or stops the run. -/
theorem Accounts.take (h : progress.Accounts fixing) (hFixing : call.fixing = fixing) :
    (progress.take call).Accounts fixing := by
  have hTold : List.Forall₂ (Finding.Keeps fixing)
      (Call.emissionsOfAll progress.calls ++ call.response.remarks.map (call, ·))
      (progress.tell call).findings := Finding.keeps_pushAll h call call.response.remarks
  have hCalls : Call.emissionsOfAll (progress.take call).calls =
      Call.emissionsOfAll progress.calls ++ call.emissions.map (call, ·) := by
    simp [calls_take, Call.emissionsOfAll]
  rw [Accounts, hCalls, Call.emissions]
  cases hFailure : call.failure? with
  | some detail =>
      rw [findings_take_of_failure hFailure, List.map_append, ← List.append_assoc]
      exact Finding.keeps_push hTold call _
  | none =>
      rw [Option.map_none, Option.toList_none, List.append_nil]
      rcases findings_take_of_success hFailure with hSame | ⟨hFixes, shifts, hMoved⟩
      · rwa [hSame]
      · obtain rfl : true = fixing := hFixes.symm.trans hFixing
        rw [hMoved]
        exact Finding.keeps_fixFrom_moveAll hTold shifts _

end Progress

/-- The findings of a run stand one by one for what its calls emitted, in order. -/
theorem accounts_runRules (rules : List ActiveRule) (tree : SourceTree) (fixing : Bool) :
    (runRules rules tree fixing).Accounts fixing := by
  refine runRules_induction (P := Progress.Accounts fixing) fixing ?_ rules
    (fun rule => List.mem_map_of_mem) tree .nil
  intro progress call hBefore _ hFixing _ _
  exact hBefore.take hFixing

namespace ActiveRule

/-- The rule after it has been called as listed. -/
def after (rule : ActiveRule) : List Call → ActiveRule
  | [] => rule
  | call :: calls => ((rule.answer call.fixing call.hook call.site).1).after calls

theorem after_append (rule : ActiveRule) (first second : List Call) :
    rule.after (first ++ second) = (rule.after first).after second := by
  induction first generalizing rule with
  | nil => rfl
  | cons call calls ih => exact ih _

theorem index_after (rule : ActiveRule) (calls : List Call) : (rule.after calls).index = rule.index := by
  induction calls generalizing rule with
  | nil => rfl
  | cons call calls ih =>
      rw [after, ih]
      obtain ⟨visitor, hAnswer⟩ := rule.answer_fst call.fixing call.hook call.site
      rw [hAnswer]

/-- The rule after those of the listed calls that are its own. -/
def afterOwn (rule : ActiveRule) (calls : List Call) : ActiveRule :=
  rule.after (calls.filter (·.rule == rule.index))

theorem index_afterOwn (rule : ActiveRule) (calls : List Call) :
    (rule.afterOwn calls).index = rule.index :=
  rule.index_after _

theorem afterOwn_append_own (rule : ActiveRule) (calls : List Call) {call : Call}
    (hOwn : call.rule = rule.index) :
    rule.afterOwn (calls ++ [call]) =
      ((rule.afterOwn calls).answer call.fixing call.hook call.site).1 := by
  simp [afterOwn, after_append, hOwn, after]

theorem afterOwn_append_other (rule : ActiveRule) (calls : List Call) {call : Call}
    (hOther : call.rule ≠ rule.index) : rule.afterOwn (calls ++ [call]) = rule.afterOwn calls := by
  simp [afterOwn, hOther]

end ActiveRule

/-- The run is where its calls took the rules, and each call has been answered by one of the rules as
its own earlier calls left it. -/
structure Run.Replays (rules : List ActiveRule) (run : Run) : Prop where
  now : ∀ place : Nat, run.rules[place]? = rules[place]?.map (·.afterOwn run.progress.calls)
  answered : ∀ (number : Nat) (call : Call), run.progress.calls[number]? = some call →
    ∃ rule ∈ rules, rule.index = call.rule ∧ call.response =
      ((rule.afterOwn (run.progress.calls.take number)).answer call.fixing call.hook call.site).2

variable {rules : List ActiveRule}

theorem Run.Replays.serve {run : Run} (h : run.Replays rules)
    (hIndices : rules.Pairwise fun first second => first.index < second.index) {place : Nat}
    {rule : ActiveRule} (hRule : run.rules[place]? = some rule) (fixing : Bool) (hook : Hook)
    (site : Site) : (run.serve fixing hook site place rule).Replays rules := by
  have hHere := h.now place
  rw [hRule] at hHere
  obtain ⟨first, hFirst, hAfter⟩ := Option.map_eq_some_iff.mp hHere.symm
  obtain rfl := hAfter
  have hIndex := first.index_afterOwn run.progress.calls
  refine ⟨fun other => ?_, fun number call hCall => ?_⟩
  · rw [Run.serve, Progress.calls_take, List.getElem?_set]
    split
    · rename_i hPlace
      obtain rfl := hPlace
      obtain ⟨hBound, -⟩ := List.getElem?_eq_some_iff.mp hRule
      rw [if_pos hBound, hFirst, Option.map_some,
        first.afterOwn_append_own run.progress.calls (by exact hIndex)]
    · rename_i hPlace
      rw [h.now other]
      refine Option.map_congr fun second hSecond => ?_
      refine (second.afterOwn_append_other run.progress.calls ?_).symm
      have hDistinct : first.index ≠ second.index := by
        obtain ⟨hI, rfl⟩ := List.getElem?_eq_some_iff.mp hFirst
        obtain ⟨hJ, rfl⟩ := List.getElem?_eq_some_iff.mp hSecond
        rw [List.pairwise_iff_getElem] at hIndices
        rcases Nat.lt_or_gt_of_ne hPlace with hLess | hMore
        · exact Nat.ne_of_lt (hIndices _ _ hI hJ hLess)
        · exact Nat.ne_of_gt (hIndices _ _ hJ hI hMore)
      simpa [hIndex] using hDistinct
  · simp only [Run.serve, Progress.calls_take] at hCall ⊢
    rw [List.getElem?_append] at hCall
    split at hCall
    · rename_i hOld
      rw [List.take_append_of_le_length (Nat.le_of_lt hOld)]
      exact h.answered number call hCall
    · rename_i hNew
      obtain ⟨hLast, rfl⟩ : number - run.progress.calls.length = 0 ∧ _ := by
        simpa [List.getElem?_eq_some_iff] using hCall
      obtain rfl : number = run.progress.calls.length := by omega
      rw [List.take_left]
      exact ⟨first, List.mem_of_getElem? hFirst, hIndex.symm, rfl⟩

/-- Every call of a run is answered by the rule that it names, as its own earlier calls left it. -/
theorem exists_rule_of_call (hIndices : rules.Pairwise fun first second => first.index < second.index)
    (tree : SourceTree) (fixing : Bool) {number : Nat} {call : Call}
    (hCall : (runRules rules tree fixing).calls[number]? = some call) :
    ∃ rule ∈ rules, rule.index = call.rule ∧ call.response =
      ((rule.afterOwn ((runRules rules tree fixing).calls.take number)).answer call.fixing call.hook
        call.site).2 := by
  have hStart : Run.Replays rules ⟨rules, { tree }⟩ := by
    refine ⟨fun place => ?_, by simp⟩
    have hSame : (fun rule : ActiveRule => rule.afterOwn []) = id := funext fun _ => rfl
    rw [hSame, Option.map_id]
    rfl
  have hEnd : ((⟨rules, { tree }⟩ : Run).walk fixing).Replays rules :=
    Run.walk_induction fixing
      (fun _ _ _ hook site hBefore _ hRule _ => hBefore.serve hIndices hRule fixing hook site) hStart
  exact hEnd.answered number call hCall

end UiLint
