import UiLint.Proofs.Checks.Reports
import UiLint.Proofs.Engine.Anchor
import UiLint.Proofs.Engine.Emission
import UiLint.Proofs.Engine.LintRun
import UiLint.Proofs.Linter.Isolation

/-! Reports of runs that do not fix. The report is what the calls have emitted, sorted by position and
rule; what is emitted earlier comes first among equals. Fewer emissions therefore give a report that
lacks some violations, and changes none. -/
namespace UiLint

/-- Sorting what is left of a list leaves out of the sorted list what was left out before. -/
theorem sublist_mergeSort_of_sublist {α : Type} {le : α → α → Bool}
    (hTrans : ∀ a b c, le a b = true → le b c = true → le a c = true)
    (hTotal : ∀ a b, (le a b || le b a) = true) {fewer items : List α}
    (hFewer : fewer.Sublist items) : (fewer.mergeSort le).Sublist (items.mergeSort le) := by
  induction hFewer with
  | slnil => exact List.Sublist.refl _
  | @cons fewer items item _ ih =>
      obtain ⟨low, high, hSorted, hRest, -⟩ := List.mergeSort_cons hTrans hTotal item items
      rw [hRest] at ih
      rw [hSorted]
      exact ih.middle item
  | @cons_cons fewer items item _ ih =>
      -- The item stands behind all that is below it and before all that is not, in both lists.
      have hSplit : ∀ items : List α, (item :: items).mergeSort le =
          (items.mergeSort le).filter (!le item ·) ++
            item :: (items.mergeSort le).filter (le item ·) := by
        intro items
        obtain ⟨low, high, hSorted, hRest, hLow⟩ := List.mergeSort_cons hTrans hTotal item items
        have hOrder := List.pairwise_mergeSort hTrans hTotal (item :: items)
        rw [hSorted, List.pairwise_append, List.pairwise_cons] at hOrder
        have hHigh : ∀ other ∈ high, le item other = true := hOrder.2.1.1
        have hNoneLow : low.filter (le item ·) = [] := by
          rw [List.filter_eq_nil_iff]
          intro other hOther
          simpa using hLow other hOther
        have hNoneHigh : high.filter (!le item ·) = [] := by
          rw [List.filter_eq_nil_iff]
          intro other hOther
          simp [hHigh other hOther]
        rw [hSorted, hRest, List.filter_append, List.filter_append, hNoneLow, hNoneHigh,
          List.append_nil, List.nil_append, List.filter_eq_self.mpr hLow,
          List.filter_eq_self.mpr hHigh]
      rw [hSplit, hSplit]
      exact (ih.filter _).append ((ih.filter _).cons_cons item)

/-- The finding that an emission becomes where nothing is fixed: its rule, remark and number. -/
def Finding.ofEmission (emission : (Nat × Remark) × Nat) : Finding :=
  ⟨emission.1.2.offset, emission.1.1, emission.2, emission.1.2.message, emission.1.2.fixable, false⟩

/-- Everything that calls emit, in order, each with the place of its rule. -/
def Call.remarksOfAll (calls : List Call) : List (Nat × Remark) :=
  (emissionsOfAll calls).map fun emission => (emission.1.rule, emission.2)

/-- The findings of a run that does not fix are the emissions of its calls. -/
theorem findings_lint (rules : List ActiveRule) (tree : SourceTree) :
    (runRules rules tree false).findings =
      (Call.remarksOfAll (runRules rules tree false).calls).zipIdx.map Finding.ofEmission := by
  have hAccounts := accounts_runRules rules tree false
  have hNumbered := Progress.numbered_runRules rules tree false
  apply List.ext_getElem?
  intro number
  rw [List.getElem?_map, List.getElem?_zipIdx, Call.remarksOfAll, List.getElem?_map]
  cases hFinding : (runRules rules tree false).findings[number]? with
  | none =>
      rw [List.getElem?_eq_none_iff, ← hAccounts.length_eq, ← List.getElem?_eq_none_iff] at hFinding
      rw [hFinding]
      rfl
  | some finding =>
      obtain ⟨emission, hEmission, hKeeps⟩ := hAccounts.exists_emission hFinding
      obtain ⟨hOffset, hUnfixed⟩ := hKeeps.unmoved rfl
      rw [hEmission]
      cases finding
      simp only [Option.map_some, Option.some.injEq, Finding.ofEmission, Nat.zero_add]
      rw [Finding.mk.injEq]
      exact ⟨hOffset, hKeeps.rule, hNumbered.sequence_eq hFinding, hKeeps.message, hKeeps.fixable,
        hUnfixed⟩

/-- The violation for a remark of a rule where nothing is fixed. -/
def Rule.violationOf (rule : Rule) (config : Config) (text : String) (remark : Remark) :
    Violation where
  code := rule.code
  rule := rule.name
  severity := (config.ruleSeverity? rule.name).getD rule.severity
  location := .ofOffset text remark.offset
  message := remark.message
  fixable := remark.fixable

namespace Linter

/-- What an emission is sorted by, but for its number: line, column and the place of its rule. -/
def placeKey (text : String) (emission : Nat × Remark) : List Nat :=
  let position := (Text.LineIndex.ofText text).position emission.2.offset
  [position.line, position.column, emission.1]

/-- The order of a report, without the numbers of the emissions. -/
def earlier (text : String) (first second : Nat × Remark) : Bool :=
  keyLe (placeKey text first) (placeKey text second)

theorem earlier_trans (text : String) (first second third : Nat × Remark)
    (hFirst : earlier text first second = true) (hSecond : earlier text second third = true) :
    earlier text first third = true :=
  keyLe_trans hFirst hSecond

theorem earlier_total (text : String) (first second : Nat × Remark) :
    (earlier text first second || earlier text second first) = true :=
  keyLe_total _ _

/-- The violations that emissions amount to in a report, in order. -/
def report (linter : Linter) (text : String) (emissions : List (Nat × Remark)) : List Violation :=
  (emissions.mergeSort (earlier text)).filterMap fun emission =>
    linter.rules[emission.1]?.map fun rule => rule.violationOf linter.config text emission.2

/-- What is last in two keys of one length decides where all else is equal. -/
theorem keyLe_append_singleton (first second : List Nat) (i j : Nat)
    (hLength : first.length = second.length) :
    keyLe (first ++ [i]) (second ++ [j]) =
      if keyLe first second then if keyLe second first then decide (i ≤ j) else true else false := by
  induction first generalizing second with
  | nil =>
      obtain rfl := List.length_eq_zero_iff.mp hLength.symm
      simp [keyLe, Bool.beq_eq_decide_eq, Nat.le_iff_lt_or_eq]
  | cons a first ih =>
      cases second with
      | nil => cases hLength
      | cons b second =>
          simp only [List.cons_append, keyLe]
          rw [ih second (by simpa using hLength)]
          rcases Nat.lt_trichotomy a b with hLess | rfl | hMore
          · have hNot : ¬ b < a := by omega
            have hNe : ¬ b = a := by omega
            simp [hLess, hNot, hNe]
          · simp
          · have hNot : ¬ a < b := by omega
            have hNe : ¬ a = b := by omega
            simp [hNot, hNe]

theorem violations_ofEmission (linter : Linter) (text : String) (emissions : List (Nat × Remark)) :
    linter.violations text (emissions.zipIdx.map Finding.ofEmission) =
      linter.report text emissions := by
  let located := fun (emission : (Nat × Remark) × Nat) =>
    ((Text.LineIndex.ofText text).position emission.1.2.offset, Finding.ofEmission emission)
  have hOrder : ∀ first second, List.zipIdxLE (earlier text) first second =
      keyLe (sortKey (located first)) (sortKey (located second)) := fun first second =>
    (keyLe_append_singleton (placeKey text first.1) (placeKey text second.1) first.2 second.2 rfl).symm
  have hSorted : locate text (emissions.zipIdx.map Finding.ofEmission) =
      (emissions.zipIdx.mergeSort (List.zipIdxLE (earlier text))).map located := by
    have hMap := List.map_mergeSort (l := emissions.zipIdx) (f := located)
      (s := fun first second => keyLe (sortKey first) (sortKey second))
      fun first _ second _ => hOrder first second
    rw [locate, List.map_map]
    exact hMap.symm
  have hStable : emissions.mergeSort (earlier text) =
      (emissions.zipIdx.mergeSort (List.zipIdxLE (earlier text))).map (·.1) :=
    List.mergeSort_zipIdx.symm
  have hViolation : ∀ emission : (Nat × Remark) × Nat,
      (linter.rules[(located emission).2.rule]?.map fun rule =>
        violation linter.config rule (located emission)) =
      linter.rules[emission.1.1]?.map fun rule =>
        rule.violationOf linter.config text emission.1.2 := by
    intro emission
    refine congrArg (Option.map · _) (funext fun rule => ?_)
    simp [violation, Violation.withFix, Rule.violationOf, Location.ofOffset, located,
      Finding.ofEmission]
  rw [violations, hSorted, report, hStable, List.filterMap_map, List.filterMap_map]
  exact List.filterMap_congr fun emission _ => hViolation emission

/-- A run that does not fix reports what its calls have emitted. -/
theorem lint_eq_report {linter : Linter} {rules : List ActiveRule} (hRules : linter.start = .ok rules)
    (file : SourceFile) :
    linter.lint file = .ok ⟨file.path, linter.report file.tree.text
      (Call.remarksOfAll (runRules rules file.tree false).calls),
      (runRules rules file.tree false).aborted⟩ := by
  rw [lint, run_eq_ok hRules, findings_lint, violations_ofEmission,
    (tree_runRules_of_lint rules file.tree).1]
  rfl

/-- Where less is emitted, less is reported, and in the same order. -/
theorem report_sublist {emissions more : List (Nat × Remark)} (hFewer : emissions.Sublist more)
    (linter : Linter) (text : String) :
    (linter.report text emissions).Sublist (linter.report text more) :=
  (sublist_mergeSort_of_sublist (earlier_trans text) (earlier_total text) hFewer).filterMap _

theorem perm_report (linter : Linter) (text : String) (emissions : List (Nat × Remark)) :
    (linter.report text emissions).Perm (emissions.filterMap fun emission =>
      linter.rules[emission.1]?.map fun rule => rule.violationOf linter.config text emission.2) :=
  (List.mergeSort_perm ..).filterMap _

end Linter

/-- Checks that cannot fix emit what they have to say about the file, turn by turn. -/
theorem remarks_lint (check? : Nat → Option Check) {rules : List ActiveRule}
    (hRules : ∀ rule ∈ rules, ∃ check, check? rule.index = some check ∧
      rule.visitor = .stateless check.respond)
    {tree : SourceTree} (hWell : tree.root.WellFormed) (hFile : tree.root.kind = .file) :
    Call.remarksOfAll (runRules rules tree false).calls =
      ((schedule rules tree.root).flatMap (Turn.notes check? tree.root)).map fun entry =>
        (entry.1, entry.2.remark tree.root) := by
  obtain ⟨-, hTurns⟩ := turns_lint rules hWell hFile
  have hEach : ∀ call ∈ (runRules rules tree false).calls,
      (call.emissions.map fun remark => (call.rule, remark)) =
        (call.turn.notes check? tree.root).map fun entry => (entry.1, entry.2.remark tree.root) := by
    intro call hCall
    obtain ⟨hFixing, hRoot, hNode⟩ := looks_runRules rules tree call hCall
    have hTurn : call.turn ∈ schedule rules tree.root := by
      rw [← hTurns]
      exact List.mem_map_of_mem hCall
    obtain ⟨subject, hSubject⟩ := exists_subject_of_mem_schedule hWell hFile hTurn
    obtain ⟨check, found, hCheck, hFound, hResponse⟩ :=
      (answers_runRules hRules tree false call hCall).2 subject hSubject
    have hSite : call.site.root.descendant? call.site.path = some call.site.node := by rwa [hRoot]
    have hFailure : call.failure? = none := by
      have hEdits : call.edits = [] := by
        rw [Call.edits, hFixing]
        rfl
      rw [Call.failure?, hResponse, Check.ending_respond, hEdits]
      rfl
    have hSame : (⟨tree.root, call.turn.path, call.site.node⟩ : Site) = call.site := by
      rw [← hRoot]
      rfl
    rw [Call.emissions, hFailure, hResponse, Check.remarks_respond hSite hFound,
      Turn.notes_eq hCheck hFound hNode, hSame, hRoot]
    simp [Call.turn]
  rw [Call.remarksOfAll, Call.emissionsOfAll, List.map_flatMap, List.map_flatMap, ← hTurns,
    List.flatMap_map, List.flatMap_def, List.flatMap_def]
  refine congrArg List.flatten (List.map_congr_left fun call hCall => ?_)
  rw [← hEach call hCall, List.map_map]
  rfl

end UiLint
