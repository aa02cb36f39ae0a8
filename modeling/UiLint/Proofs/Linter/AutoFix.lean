import UiLint.Proofs.Engine.Atomicity
import UiLint.Proofs.Linter.Attribution

/-! Which violations are marked as fixed. Marks are set on all findings from a place on, after the
edits of a call have been made; over a whole run this marks exactly what calls with edits reported as
fixable, and no later call takes a mark away. -/
namespace UiLint

/-- The edits of a call are made between two states of a run. It asked for some and ended well; each
of them can be made in a copy of the visited node, after those before it; and the tree afterwards has
that copy in the place of the node. -/
structure Call.Applied (call : Call) (before after : Progress) : Prop where
  asked : call.response.edits ≠ []
  ended : call.response.ending = .done
  made : ∃ node shifts, Edit.applyAll call.site.path call.site.node call.response.edits =
    .ok (node, shifts) ∧ before.tree.replaceSubtree call.site.path node = .ok after.tree

/-- New findings that are fixed are marked where they can be. -/
theorem Finding.map_autoFixed_fix (rule place : Nat) (remarks : List Remark) (shifts : List Shift) :
    (((ofRemarks rule place remarks).map (moveThrough shifts)).map fix).map (·.autoFixed) =
      remarks.map (·.fixable) := by
  conv_rhs => rw [← List.zipIdx_map_fst place remarks]
  rw [ofRemarks, List.map_map, List.map_map, List.map_map, List.map_map]
  exact List.map_congr_left fun entry _ => Bool.false_or _

namespace Progress

/-- Whether a call has its edits made: there are some, the call ended well, and nothing goes wrong
with them or with the tree. -/
def fixes (progress : Progress) (call : Call) : Bool :=
  call.response.ending.failure?.isNone && !call.edits.isEmpty &&
    match Edit.applyAll call.site.path call.site.node call.edits with
    | .ok made => (progress.tree.replaceSubtree call.site.path made.1).isOk
    | .error _ => false

variable {progress : Progress} {call : Call}

theorem fixes_iff : progress.fixes call = true ↔
    call.response.ending.failure? = none ∧ call.edits ≠ [] ∧ ∃ node shifts tree,
      Edit.applyAll call.site.path call.site.node call.edits = .ok (node, shifts) ∧
        progress.tree.replaceSubtree call.site.path node = .ok tree := by
  rw [fixes, Bool.and_eq_true, Bool.and_eq_true, Option.isNone_iff_eq_none, Bool.not_eq_true',
    List.isEmpty_eq_false_iff, and_assoc]
  refine and_congr_right fun _ => and_congr_right fun _ => ?_
  cases Edit.applyAll call.site.path call.site.node call.edits with
  | error failure => simp
  | ok made =>
      obtain ⟨node, shifts⟩ := made
      cases hTree : progress.tree.replaceSubtree call.site.path node <;>
        simp [hTree, Except.isOk, Except.toBool]

/-- A call that has its edits made changes the tree, moves all findings and fixes its own. -/
theorem take_of_fixes (hFixes : progress.fixes call = true) :
    ∃ node shifts tree,
      Edit.applyAll call.site.path call.site.node call.edits = .ok (node, shifts) ∧
      progress.tree.replaceSubtree call.site.path node = .ok tree ∧
      progress.take call = { progress.tell call with
        tree
        findings := Finding.fixFrom (Finding.moveAll (progress.tell call).findings shifts)
          progress.findings.length } := by
  obtain ⟨hEnding, hEdits, node, shifts, tree, hApply, hTree⟩ := fixes_iff.mp hFixes
  refine ⟨node, shifts, tree, hApply, hTree, ?_⟩
  have hSome : ¬ call.edits.isEmpty = true := by simpa using hEdits
  simp only [take, hEnding, if_neg hSome, edit, hApply]
  rw [show (progress.tell call).tree = progress.tree from rfl, hTree]

/-- Any other call adds what it emits, and changes no finding. -/
theorem findings_take_of_not_fixes (hFixes : ¬ progress.fixes call = true) :
    (progress.take call).findings =
      Finding.pushAll progress.findings call.rule call.emissions := by
  cases hFailure : call.failure? with
  | some detail =>
      rw [findings_take_of_failure hFailure, Call.emissions, hFailure, Finding.pushAll,
        List.foldl_append]
      rfl
  | none =>
      rw [Call.emissions, hFailure, Option.map_none, Option.toList_none, List.append_nil]
      unfold Call.failure? at hFailure
      rw [fixes_iff] at hFixes
      unfold take
      cases hEnding : call.response.ending.failure? with
      | some message => simp [hEnding] at hFailure
      | none =>
          by_cases hEdits : call.edits = []
          · rw [hEdits]
            rfl
          · have hSome : ¬ call.edits.isEmpty = true := by simpa using hEdits
            simp only [if_neg hSome, edit]
            cases hApply : Edit.applyAll call.site.path call.site.node call.edits with
            | error failure =>
                cases failure with
                | rule error => simp [hEnding, hApply] at hFailure
                | layout error => rfl
            | ok made =>
                cases hTree : (progress.tell call).tree.replaceSubtree call.site.path made.1 with
                | error error =>
                    simp only [hTree]
                    rfl
                | ok tree =>
                    exact absurd ⟨hEnding, hEdits, made.1, made.2, tree, hApply, hTree⟩ hFixes

/-- A call has its edits made exactly if it is applied, in a run that fixes. -/
theorem fixes_iff_applied : progress.fixes call = true ↔
    call.fixing = true ∧ call.Applied progress (progress.take call) := by
  constructor
  · intro hFixes
    obtain ⟨hEnding, hEdits, -⟩ := fixes_iff.mp hFixes
    obtain ⟨node, shifts, tree, hApply, hTree, hTake⟩ := take_of_fixes hFixes
    have hFixing : call.fixing = true := by
      by_contra hLint
      simp [Call.edits, hLint] at hEdits
    rw [Call.edits, if_pos hFixing] at hEdits hApply
    exact ⟨hFixing, hEdits, Ending.failure?_eq_none_iff.mp hEnding, node, shifts, hApply, by
      rw [hTree, hTake]⟩
  · rintro ⟨hFixing, hEdits, hEnding, node, shifts, hApply, hTree⟩
    have hSame : call.edits = call.response.edits := by rw [Call.edits, if_pos hFixing]
    rw [fixes_iff, hSame]
    exact ⟨Ending.failure?_eq_none_iff.mpr hEnding, hEdits, node, shifts, _, hApply, hTree⟩

/-- One call marks what it emits as fixed where it can be, if it has its edits made. The marks of
earlier findings stay. -/
theorem map_autoFixed_take (progress : Progress) (call : Call) :
    (progress.take call).findings.map (·.autoFixed) = progress.findings.map (·.autoFixed) ++
      call.emissions.map fun remark => remark.fixable && progress.fixes call := by
  cases hFixes : progress.fixes call with
  | false =>
      rw [findings_take_of_not_fixes (by simp [hFixes]), Finding.pushAll_eq, List.map_append]
      simp [Finding.ofRemarks, Function.comp_def]
  | true =>
      obtain ⟨node, shifts, tree, hApply, -, hTake⟩ := take_of_fixes hFixes
      have hNone : call.failure? = none := by
        simp only [Call.failure?, (fixes_iff.mp hFixes).1, hApply]
      have hLength : (progress.findings.map (Finding.moveThrough shifts)).length =
          progress.findings.length := List.length_map ..
      rw [hTake, Call.emissions, hNone]
      simp only [findings_tell, Finding.moveAll_eq, List.map_append]
      rw [← hLength, Finding.fixFrom_append, List.map_append, Finding.map_autoFixed_fix]
      simp [Function.comp_def, Finding.moveThrough]

end Progress

namespace Call

/-- Everything that calls emit, in order, each with its call and the number of the call. -/
def emissionsByTurn (calls : List Call) : List (Nat × Call × Remark) :=
  calls.zipIdx.flatMap fun entry => entry.1.emissions.map (entry.2, entry.1, ·)

theorem emissionsByTurn_concat (calls : List Call) (call : Call) :
    emissionsByTurn (calls ++ [call]) =
      emissionsByTurn calls ++ call.emissions.map (calls.length, call, ·) := by
  simp [emissionsByTurn, List.zipIdx_append]

theorem map_snd_emissionsByTurn (calls : List Call) :
    (emissionsByTurn calls).map (·.2) = emissionsOfAll calls := by
  rw [emissionsByTurn, emissionsOfAll, List.map_flatMap]
  conv_rhs => rw [← List.zipIdx_map_fst 0 calls, List.flatMap_map]
  simp [Function.comp_def]

theorem getElem?_of_mem_emissionsByTurn {calls : List Call} {emission : Nat × Call × Remark}
    (hEmission : emission ∈ emissionsByTurn calls) : calls[emission.1]? = some emission.2.1 := by
  obtain ⟨entry, hEntry, hThere⟩ := List.mem_flatMap.mp hEmission
  obtain ⟨remark, -, rfl⟩ := List.mem_map.mp hThere
  exact List.mem_zipIdx_iff_getElem?.mp hEntry

end Call

namespace Progress

/-- The state of a run over a tree when the call with a number has its turn. -/
def atTurn (tree : SourceTree) (calls : List Call) (turn : Nat) : Progress :=
  replay { tree } (calls.take turn)

theorem atTurn_succ {tree : SourceTree} {calls : List Call} {turn : Nat} {call : Call}
    (hCall : calls[turn]? = some call) :
    atTurn tree calls (turn + 1) = (atTurn tree calls turn).take call := by
  obtain ⟨hTurn, rfl⟩ := List.getElem?_eq_some_iff.mp hCall
  rw [atTurn, List.take_succ_eq_append_getElem hTurn, replay_append]
  rfl

/-- Every call of a run is made for a node of the tree as it is at its turn, in the mode of the run. -/
theorem isAt_atTurn {rules : List ActiveRule} {tree : SourceTree} {fixing : Bool} {turn : Nat}
    {call : Call} (hCall : (runRules rules tree fixing).calls[turn]? = some call) :
    call.IsAt (atTurn tree (runRules rules tree fixing).calls turn) ∧ call.fixing = fixing := by
  obtain ⟨-, hAdmits⟩ := runRules_eq_replay rules tree fixing
  obtain ⟨hTurn, hThere⟩ := List.getElem?_eq_some_iff.mp hCall
  rw [← List.take_append_drop turn (runRules rules tree fixing).calls, admits_append,
    List.drop_eq_getElem_cons hTurn, hThere] at hAdmits
  exact ⟨hAdmits.2.1.1, hAdmits.2.1.2.1⟩

theorem fixes_atTurn_iff {rules : List ActiveRule} {tree : SourceTree} {fixing : Bool} {turn : Nat}
    {call : Call} (hCall : (runRules rules tree fixing).calls[turn]? = some call) :
    (atTurn tree (runRules rules tree fixing).calls turn).fixes call = true ↔
      fixing = true ∧ call.Applied (atTurn tree (runRules rules tree fixing).calls turn)
        (atTurn tree (runRules rules tree fixing).calls (turn + 1)) := by
  rw [fixes_iff_applied, ← atTurn_succ hCall, (isAt_atTurn hCall).2]

/-- The marks of a run are those that its calls set, each in the state in which it was made. -/
theorem map_autoFixed_runRules (rules : List ActiveRule) (tree : SourceTree) (fixing : Bool) :
    (runRules rules tree fixing).findings.map (·.autoFixed) =
      (Call.emissionsByTurn (runRules rules tree fixing).calls).map fun emission =>
        emission.2.2.fixable &&
          (atTurn tree (runRules rules tree fixing).calls emission.1).fixes emission.2.1 := by
  refine (runRules_induction (P := fun progress => progress = replay { tree } progress.calls ∧
    progress.findings.map (·.autoFixed) = (Call.emissionsByTurn progress.calls).map fun emission =>
      emission.2.2.fixable && (atTurn tree progress.calls emission.1).fixes emission.2.1)
    fixing ?_ rules (fun rule => List.mem_map_of_mem) tree ⟨rfl, rfl⟩).2
  rintro progress call ⟨hReplay, hMarks⟩ - - - -
  have hNow : atTurn tree (progress.calls ++ [call]) progress.calls.length = progress := by
    rw [atTurn, List.take_left, ← hReplay]
  rw [calls_take]
  refine ⟨?_, ?_⟩
  · rw [replay_append, ← hReplay]
    rfl
  · rw [map_autoFixed_take, hMarks, Call.emissionsByTurn_concat, List.map_append, List.map_map]
    congr 1
    · refine List.map_congr_left fun emission hEmission => ?_
      obtain ⟨hTurn, -⟩ :=
        List.getElem?_eq_some_iff.mp (Call.getElem?_of_mem_emissionsByTurn hEmission)
      rw [atTurn, atTurn, List.take_append_of_le_length (Nat.le_of_lt hTurn)]
    · refine List.map_congr_left fun remark _ => ?_
      simp only [Function.comp_apply, hNow]

end Progress

namespace Linter

variable {linter : Linter} {rules : List ActiveRule}

/-- Every finding of a run is that of a registered rule. -/
theorem rule_lt_of_mem_findings (hRules : linter.start = .ok rules) {tree : SourceTree} {fixing : Bool}
    {finding : Finding} (hFinding : finding ∈ (runRules rules tree fixing).findings) :
    finding.rule < linter.rules.length := by
  obtain ⟨rule, hRule, hIndex⟩ :=
    List.mem_map.mp (Progress.ofRules_runRules rules tree fixing finding hFinding)
  have hLess := index_lt_of_startFrom hRules rule hRule
  omega

/-- The entry of a finding reports the emission that the finding stands for. -/
theorem reports_of_keeps {text : String} {fixing : Bool} {emission : Call × Remark} {entry : Entry}
    {finding : Finding} {rule : Rule} (hKeeps : Finding.Keeps fixing emission finding)
    (hPlace : entry.rule = finding.rule) (hViolation : entry.violation =
      violation linter.config rule ((Text.LineIndex.ofText text).position finding.offset, finding)) :
    entry.Reports linter.config text fixing rule emission := by
  obtain ⟨number, place, found⟩ := entry
  obtain rfl : found = _ := hViolation
  exact ⟨hPlace.trans hKeeps.rule, rfl, rfl, rfl, hKeeps.message, hKeeps.fixable, rfl,
    fun hLint => (hKeeps.unmoved hLint).1⟩

/-- Whatever the tree is and whatever the rules do, a run that fixes or not marks a violation as fixed
exactly if it was reported as fixable, the run fixes, and the very call that reported it asked for
edits and had all of them made. Each violation stands for one emission, and its call is made in the
state that all calls before it led to. -/
theorem run_marks_applied {linter : Linter} {rules : List ActiveRule}
    (hRules : linter.start = .ok rules) (file : SourceFile) (fixing : Bool) :
    ∃ (fixed : FixedFile) (entries : List Entry), linter.run file fixing = .ok fixed ∧
      fixed.report.violations = entries.map Entry.violation ∧
      (entries.map Entry.number).Perm (List.range
        (Call.emissionsByTurn (runRules rules file.tree fixing).calls).length) ∧
      ∀ entry ∈ entries, ∃ turn call remark rule,
        (Call.emissionsByTurn (runRules rules file.tree fixing).calls)[entry.number]? =
          some (turn, call, remark) ∧
        (runRules rules file.tree fixing).calls[turn]? = some call ∧
        call.IsAt (.atTurn file.tree (runRules rules file.tree fixing).calls turn) ∧
        linter.rules[call.rule]? = some rule ∧
        entry.Reports linter.config fixed.tree.text fixing rule (call, remark) ∧
        (entry.violation.autoFixed = true ↔ remark.fixable = true ∧ fixing = true ∧
          call.Applied (.atTurn file.tree (runRules rules file.tree fixing).calls turn)
            (.atTurn file.tree (runRules rules file.tree fixing).calls (turn + 1))) := by
  have hNumbered := Progress.numbered_runRules rules file.tree fixing
  have hAccounts := accounts_runRules rules file.tree fixing
  have hMarks := Progress.map_autoFixed_runRules rules file.tree fixing
  refine ⟨_, linter.entries (runRules rules file.tree fixing).tree.text
    (runRules rules file.tree fixing).findings, run_eq_ok hRules file fixing,
    violations_eq_entries .., ?_, fun entry hEntry => ?_⟩
  · have hLength := congrArg List.length hMarks
    rw [List.length_map, List.length_map] at hLength
    rw [← hLength]
    exact numbers_entries hNumbered _ fun finding => rule_lt_of_mem_findings hRules
  · obtain ⟨finding, rule, hFinding, hRule, hPlace, hViolation⟩ := mem_entries hNumbered hEntry
    obtain ⟨emission, hEmission, hKeeps⟩ := hAccounts.exists_emission hFinding
    rw [← Call.map_snd_emissionsByTurn, List.getElem?_map] at hEmission
    obtain ⟨⟨turn, call, remark⟩, hTurn, rfl⟩ := Option.map_eq_some_iff.mp hEmission
    have hCall := Call.getElem?_of_mem_emissionsByTurn (List.mem_of_getElem? hTurn)
    have hMark := congrArg (·[entry.number]?) hMarks
    simp only [List.getElem?_map, hFinding, hTurn, Option.map_some, Option.some.injEq] at hMark
    refine ⟨turn, call, remark, rule, hTurn, hCall, (Progress.isAt_atTurn hCall).1,
      by rwa [← hKeeps.rule], reports_of_keeps hKeeps hPlace hViolation, ?_⟩
    rw [hViolation, ← Progress.fixes_atTurn_iff hCall]
    simp only [violation, Violation.withFix, hKeeps.fixable, hMark, Bool.and_eq_true]
    exact ⟨fun h => h.2, fun h => ⟨h.1, h⟩⟩

end Linter

/-- Of the eleven emissions of the rules that fail and the one that edits, the seventh is fixed. The
eighth, by a rule whose edit cannot be made, is as fixable and stays as it is. -/
theorem Linter.run_marks_applied_twice :
    ∃ (fixed : FixedFile) (entries : List Entry),
      Noisy.twice.run ⟨"f", Noisy.tree⟩ true = .ok fixed ∧
      fixed.report.violations = entries.map Entry.violation ∧
      (∃ entry ∈ entries, entry.number = 6 ∧ entry.violation.message = "lacks" ∧
        entry.violation.autoFixed = true) ∧
      ∃ entry ∈ entries, entry.number = 7 ∧ entry.violation.message = "function" ∧
        entry.violation.fixable = true ∧ entry.violation.autoFixed = false := by
  have hStart : Noisy.twice.start = .ok _ := rfl
  obtain ⟨fixed, entries, hFixed, hSame, hNumbers, hEntries⟩ :=
    Linter.run_marks_applied hStart ⟨"f", Noisy.tree⟩ true
  have hEleven : (entries.map Entry.number).Perm (List.range 11) :=
    hNumbers.trans (.of_eq (congrArg List.range (by decide +kernel)))
  refine ⟨fixed, entries, hFixed, hSame, ?_, ?_⟩
  · obtain ⟨entry, hEntry, hNumber⟩ := List.mem_map.mp (hEleven.mem_iff.mpr (by decide : 6 ∈ _))
    obtain ⟨turn, call, remark, rule, hTurn, hCall, -, -, hReports, hMark⟩ := hEntries entry hEntry
    rw [← Progress.fixes_atTurn_iff hCall] at hMark
    rw [hNumber] at hTurn
    cases hTurn
    exact ⟨entry, hEntry, hNumber, hReports.message, hMark.mpr ⟨rfl, by decide +kernel⟩⟩
  · obtain ⟨entry, hEntry, hNumber⟩ := List.mem_map.mp (hEleven.mem_iff.mpr (by decide : 7 ∈ _))
    obtain ⟨turn, call, remark, rule, hTurn, hCall, -, -, hReports, hMark⟩ := hEntries entry hEntry
    rw [← Progress.fixes_atTurn_iff hCall] at hMark
    rw [hNumber] at hTurn
    cases hTurn
    refine ⟨entry, hEntry, hNumber, hReports.message, hReports.fixable, ?_⟩
    rw [Bool.eq_false_iff, ne_eq, hMark]
    decide +kernel

end UiLint
