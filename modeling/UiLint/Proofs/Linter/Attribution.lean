import UiLint.Proofs.Engine.Anchor
import UiLint.Proofs.Engine.Emission
import UiLint.Proofs.Linter.Isolation

/-! Reports account for all that a run emits. Every violation is one emission of one call and carries
what its rule is called by; no emission is left out or reported twice, and no two violations compare
equal in the order of the report. -/
namespace UiLint

/-- A violation of a report, with its number among all emissions of the run and the place of its rule
among the registered ones. -/
structure Entry where
  number : Nat
  rule : Nat
  violation : Violation

namespace Entry

/-- Line, column, place of the rule and number of the emission. -/
def key (entry : Entry) : List Nat :=
  [entry.violation.location.line, entry.violation.location.column, entry.rule, entry.number]

/-- The entry reports what a call of the rule emitted, under the names of the rule and with the
severity that the project gives to it, or else its own. A run that does not fix reports it where it
was emitted. -/
structure Reports (config : Config) (text : String) (fixing : Bool) (rule : Rule)
    (emission : Call × Remark) (entry : Entry) : Prop where
  place : entry.rule = emission.1.rule
  code : entry.violation.code = rule.code
  name : entry.violation.rule = rule.name
  severity : entry.violation.severity = (config.ruleSeverity? rule.name).getD rule.severity
  message : entry.violation.message = emission.2.message
  fixable : entry.violation.fixable = emission.2.fixable
  location : entry.violation.location = .ofOffset text entry.violation.location.offset
  unmoved : fixing = false → entry.violation.location.offset = emission.2.offset

end Entry

namespace Linter

/-- The rule makes the call with the given number. It is registered at the place that the call names,
and turned on; the call is answered by the visitor it starts with, as its own calls before this one
left it. -/
structure Makes (linter : Linter) (calls : List Call) (rule : Rule) (number : Nat) (call : Call) :
    Prop where
  registered : linter.rules[call.rule]? = some rule
  enabled : linter.config.isRuleEnabled rule.name = true
  answered : ∃ active, startRule linter.config rule call.rule = .ok active ∧ call.response =
    ((active.afterOwn (calls.take number)).answer call.fixing call.hook call.site).2

/-- A rule that has been started is registered at its place, and turned on. -/
theorem exists_rule_of_startFrom {config : Config} {index : Nat} {rules : List Rule}
    {active : List ActiveRule} (hActive : startFrom config index rules = .ok active) :
    ∀ rule ∈ active, ∃ place found, rule.index = index + place ∧ rules[place]? = some found ∧
      config.isRuleEnabled found.name = true ∧ startRule config found rule.index = .ok rule := by
  induction rules generalizing index active with
  | nil =>
      cases hActive
      simp
  | cons first rules ih =>
      have hLater : ∀ {others : List ActiveRule}, startFrom config (index + 1) rules = .ok others →
          ∀ rule ∈ others, ∃ place found, rule.index = index + place ∧
            (first :: rules)[place]? = some found ∧ config.isRuleEnabled found.name = true ∧
            startRule config found rule.index = .ok rule := by
        intro others hOthers rule hRule
        obtain ⟨place, found, hIndex, hFound, hRest⟩ := ih hOthers rule hRule
        exact ⟨place + 1, found, by omega, hFound, hRest⟩
      rcases startFrom_cons hActive with
        ⟨-, hRest⟩ | ⟨started, others, hEnabled, hStarted, hOthers, rfl⟩
      · exact hLater hRest
      · have hIndex := (startRule_of_index hStarted index).2
        refine List.forall_mem_cons.mpr ⟨⟨0, first, hIndex, rfl, hEnabled, ?_⟩, hLater hOthers⟩
        rwa [hIndex]

/-- Every call of a run is made by one of the rules. -/
theorem exists_makes {linter : Linter} {rules : List ActiveRule} (hRules : linter.start = .ok rules)
    (tree : SourceTree) (fixing : Bool) {number : Nat} {call : Call}
    (hCall : (runRules rules tree fixing).calls[number]? = some call) :
    ∃ rule, linter.Makes (runRules rules tree fixing).calls rule number call := by
  obtain ⟨active, hActive, hIndex, hResponse⟩ :=
    exists_rule_of_call (pairwise_startFrom hRules).2 tree fixing hCall
  obtain ⟨place, rule, hPlace, hRule, hEnabled, hStart⟩ :=
    exists_rule_of_startFrom hRules active hActive
  rw [hIndex] at hPlace hStart
  refine ⟨rule, ?_, hEnabled, active, hStart, hResponse⟩
  rwa [hPlace, Nat.zero_add]

theorem lt_of_keyLe {first second : List Nat} (hLe : keyLe first second = true)
    (hNe : first ≠ second) : first < second := by
  induction first generalizing second with
  | nil =>
      cases second with
      | nil => exact absurd rfl hNe
      | cons j second => exact List.nil_lt_cons j second
  | cons i first ih =>
      cases second with
      | nil => cases hLe
      | cons j second =>
          simp only [keyLe, Bool.or_eq_true, Bool.and_eq_true, decide_eq_true_eq, beq_iff_eq] at hLe
          rw [List.cons_lt_cons_iff]
          rcases hLe with hLess | ⟨rfl, hRest⟩
          · exact .inl hLess
          · exact .inr ⟨rfl, ih hRest fun hSame => hNe (by rw [hSame])⟩

theorem perm_locate (text : String) (findings : List Finding) :
    ((locate text findings).map (·.2)).Perm findings := by
  have hPerm := (List.mergeSort_perm (findings.map fun finding =>
    ((Text.LineIndex.ofText text).position finding.offset, finding))
    fun first second => keyLe (sortKey first) (sortKey second)).map (·.2)
  rwa [List.map_map, Function.comp_def, List.map_id'] at hPerm

/-- No two located findings have one key if the findings are numbered. -/
theorem pairwise_locate {findings : List Finding} (h : Finding.Numbered findings) (text : String) :
    (locate text findings).Pairwise fun first second => sortKey first < sortKey second := by
  have hNumbers : ((locate text findings).map (·.2.sequence)).Nodup := by
    have hPerm := (perm_locate text findings).map (·.sequence)
    rw [h, List.map_map] at hPerm
    exact hPerm.nodup_iff.mpr List.nodup_range
  have hSorted : (locate text findings).Pairwise fun first second =>
      keyLe (sortKey first) (sortKey second) = true := pairwise_mergeSort _
  refine (hSorted.and (List.pairwise_map.mp hNumbers)).imp fun hBoth => ?_
  refine lt_of_keyLe hBoth.1 fun hSame => hBoth.2 ?_
  simp only [sortKey, List.cons.injEq] at hSame
  exact hSame.2.2.2.1

/-- The entries of a report on findings in a text, in order. -/
def entries (linter : Linter) (text : String) (findings : List Finding) : List Entry :=
  (locate text findings).filterMap fun located =>
    linter.rules[located.2.rule]?.map fun rule =>
      ⟨located.2.sequence, located.2.rule, violation linter.config rule located⟩

variable {linter : Linter} {findings : List Finding}

theorem violations_eq_entries (linter : Linter) (text : String) (findings : List Finding) :
    linter.violations text findings = (linter.entries text findings).map (·.violation) := by
  simp [violations, entries, List.map_filterMap, Function.comp_def]

/-- No finding is lost if its rule is registered. -/
theorem numbers_entries (h : Finding.Numbered findings) (text : String)
    (hRules : ∀ finding ∈ findings, finding.rule < linter.rules.length) :
    ((linter.entries text findings).map (·.number)).Perm (List.range findings.length) := by
  have hAll : (linter.entries text findings).map (·.number) =
      (locate text findings).map (·.2.sequence) := by
    rw [entries, List.map_filterMap, ← List.filterMap_eq_map]
    refine List.filterMap_congr fun located hLocated => ?_
    have hMember := (perm_locate text findings).subset (List.mem_map_of_mem hLocated)
    rw [List.getElem?_eq_getElem (hRules located.2 hMember)]
    rfl
  rw [hAll, ← h]
  have hPerm := (perm_locate text findings).map (·.sequence)
  rwa [List.map_map] at hPerm

theorem pairwise_entries (h : Finding.Numbered findings) (text : String) :
    (linter.entries text findings).Pairwise fun first second => first.key < second.key := by
  refine (pairwise_locate h text).filterMap _ fun first second hLess one hOne two hTwo => ?_
  obtain ⟨rule, -, rfl⟩ := Option.map_eq_some_iff.mp hOne
  obtain ⟨other, -, rfl⟩ := Option.map_eq_some_iff.mp hTwo
  exact hLess

/-- An entry is that of the finding with its number. -/
theorem mem_entries (h : Finding.Numbered findings) {text : String} {entry : Entry}
    (hEntry : entry ∈ linter.entries text findings) :
    ∃ finding rule, findings[entry.number]? = some finding ∧
      linter.rules[finding.rule]? = some rule ∧ entry.rule = finding.rule ∧
      entry.violation = violation linter.config rule
        ((Text.LineIndex.ofText text).position finding.offset, finding) := by
  obtain ⟨located, hLocated, hFound⟩ := List.mem_filterMap.mp hEntry
  obtain ⟨rule, hRule, rfl⟩ := Option.map_eq_some_iff.mp hFound
  obtain ⟨finding, hFinding, rfl⟩ := List.mem_map.mp (List.mem_mergeSort.mp hLocated)
  obtain ⟨place, hPlace⟩ := List.getElem?_of_mem hFinding
  exact ⟨finding, rule, by rw [h.sequence_eq hPlace, hPlace], hRule, rfl, rfl⟩

/-- Whatever the tree is and whichever rules there are, turned on or off and under equal names, a run
reports each emission of its calls once: the remarks, and one more for each call that failed. Each
call is made by the rule at the place that it names, and its emissions are reported under the names
and the severity of that rule. The report is in the order of line, column, place of the rule and
number of the emission, in which no two violations are equal. -/
theorem run_reports_emissions {linter : Linter} {rules : List ActiveRule}
    (hRules : linter.start = .ok rules) (file : SourceFile) (fixing : Bool) :
    ∃ (fixed : FixedFile) (entries : List Entry), linter.run file fixing = .ok fixed ∧
      fixed.report.violations = entries.map Entry.violation ∧
      (entries.map Entry.number).Perm
        (List.range (Call.emissionsOfAll (runRules rules file.tree fixing).calls).length) ∧
      (entries.Pairwise fun first second => first.key < second.key) ∧
      (∀ entry ∈ entries, ∃ emission rule,
        (Call.emissionsOfAll (runRules rules file.tree fixing).calls)[entry.number]? =
          some emission ∧
        linter.rules[emission.1.rule]? = some rule ∧
        entry.Reports linter.config fixed.tree.text fixing rule emission) ∧
      ∀ number call, (runRules rules file.tree fixing).calls[number]? = some call →
        ∃ rule, linter.Makes (runRules rules file.tree fixing).calls rule number call := by
  have hNumbered := Progress.numbered_runRules rules file.tree fixing
  have hAccounts := accounts_runRules rules file.tree fixing
  refine ⟨_, linter.entries (runRules rules file.tree fixing).tree.text
    (runRules rules file.tree fixing).findings, run_eq_ok hRules file fixing,
    violations_eq_entries .., ?_, pairwise_entries hNumbered _, fun entry hEntry => ?_,
    fun number call hCall => exists_makes hRules file.tree fixing hCall⟩
  · rw [hAccounts.length_eq]
    refine numbers_entries hNumbered _ fun finding hFinding => ?_
    have hOfRules := Progress.ofRules_runRules rules file.tree fixing finding hFinding
    obtain ⟨rule, hRule, hIndex⟩ := List.mem_map.mp hOfRules
    have hLess := index_lt_of_startFrom hRules rule hRule
    rw [← hIndex]
    omega
  · obtain ⟨finding, rule, hFinding, hRule, hPlace, hViolation⟩ := mem_entries hNumbered hEntry
    obtain ⟨emission, hEmission, hKeeps⟩ := hAccounts.exists_emission hFinding
    refine ⟨emission, rule, hEmission, by rwa [← hKeeps.rule], ?_⟩
    obtain ⟨number, place, found⟩ := entry
    obtain rfl : found = _ := hViolation
    exact ⟨hPlace.trans hKeeps.rule, rfl, rfl, rfl, hKeeps.message, hKeeps.fixable, rfl,
      fun hLint => (hKeeps.unmoved hLint).1⟩

end Linter

namespace Noisy

/-- The rule that fails in three ways, twice, after one that is turned off and around one that edits.
The project takes it for an error. -/
def twice : Linter where
  rules := [count, noisy, complete, noisy]
  config.rules := (NameMap.empty.insert "count" { enabled := some false }).insert "noisy"
    { severity := some .error }
  workers := none

end Noisy

/-- The eleven emissions of two rules with one name and of a third one. The ninth is a failure of the
rule that is registered last. -/
theorem Linter.run_reports_emissions_twice :
    ∃ (fixed : FixedFile) (entries : List Entry),
      Noisy.twice.run ⟨"f", Noisy.tree⟩ true = .ok fixed ∧
      fixed.report.violations = entries.map Entry.violation ∧
      (entries.map Entry.number).Perm (List.range 11) ∧
      ∃ entry ∈ entries, entry.number = 8 ∧ entry.rule = 3 ∧ entry.violation.code = "N" ∧
        entry.violation.severity = .error ∧ entry.violation.message =
          "rule-failure: edit target [0, 2] is missing or cannot be edited" := by
  have hStart : Noisy.twice.start = .ok _ := rfl
  obtain ⟨fixed, entries, hFixed, hSame, hNumbers, -, hReports, -⟩ :=
    Linter.run_reports_emissions hStart ⟨"f", Noisy.tree⟩ true
  have hEleven : (entries.map Entry.number).Perm (List.range 11) :=
    hNumbers.trans (.of_eq (congrArg List.range (by decide +kernel)))
  refine ⟨fixed, entries, hFixed, hSame, hEleven, ?_⟩
  obtain ⟨entry, hEntry, hNumber⟩ := List.mem_map.mp (hEleven.mem_iff.mpr (by decide : 8 ∈ _))
  obtain ⟨emission, rule, hEmission, hRule, hReport⟩ := hReports entry hEntry
  rw [hNumber] at hEmission
  cases hEmission
  cases hRule
  exact ⟨entry, hEntry, hNumber, hReport.place, hReport.code, hReport.severity, hReport.message⟩

end UiLint
