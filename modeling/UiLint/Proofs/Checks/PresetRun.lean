import UiLint.Proofs.Checks.BuiltIn
import UiLint.Proofs.Checks.Reports
import UiLint.Proofs.Engine.Walk

/-! Runs of linters made of built-in rules, whether or not they fix. What the rules have to say can be
told from the file and the configuration alone, and the report is made of it. -/
namespace UiLint

open HandleDefault

namespace BuiltIn

/-- The check of a built-in rule with the given options. -/
def check (builtIn : BuiltIn) (options : Options) : Except ConfigError Check :=
  match builtIn with
  | handleDefault => (HandleDefault.Settings.ofOptions options).map .handleDefault
  | handleMissing => (HandleMissing.Settings.ofOptions options).map .handleMissing
  | parameterOrder => (aliasesOf options).map .parameterOrder

/-- The rule that makes a check. -/
def ofCheck : Check → BuiltIn
  | .handleDefault _ => handleDefault
  | .handleMissing _ => handleMissing
  | .parameterOrder _ => parameterOrder

/-- The check that a built-in rule makes in a project, unless its options do not resolve. -/
def checkIn? (builtIn : BuiltIn) (config : Config) : Option Check :=
  (Options.resolve builtIn.rule.options config.settings >>= builtIn.check).toOption

/-- The check of the rule with the given place, where the listed rules are registered. -/
def checkAt? (entries : List (BuiltIn × Severity)) (config : Config) (index : Nat) : Option Check :=
  entries[index]?.bind fun entry => entry.1.checkIn? config

theorem start_rule (builtIn : BuiltIn) (severity : Severity) (options : Options) :
    (builtIn.rule severity).start options =
      (builtIn.check options).map fun check => .stateless check.respond := by
  cases builtIn with
  | handleDefault =>
      show (HandleDefault.Settings.ofOptions options).map _ = Except.map _ (Except.map _ _)
      cases HandleDefault.Settings.ofOptions options <;> rfl
  | handleMissing =>
      show (HandleMissing.Settings.ofOptions options).map _ = Except.map _ (Except.map _ _)
      cases HandleMissing.Settings.ofOptions options <;> rfl
  | parameterOrder =>
      show (aliasesOf options).map _ = Except.map _ (Except.map _ _)
      cases aliasesOf options <;> rfl

/-- A built-in rule that has been started makes its check. -/
theorem visitor_of_startRule {builtIn : BuiltIn} {severity : Severity} {config : Config}
    {index : Nat} {active : ActiveRule}
    (hActive : Linter.startRule config (builtIn.rule severity) index = .ok active) :
    active.index = index ∧ active.hooks = (builtIn.rule severity).hooks ∧
      ∃ check, builtIn.checkIn? config = some check ∧
        active.visitor = .stateless check.respond := by
  obtain ⟨options, visitor, hOptions, hVisitor, rfl⟩ := Linter.startRule_eq_ok hActive
  rw [start_rule] at hVisitor
  have hSame : builtIn.rule.options = (builtIn.rule severity).options := by cases builtIn <;> rfl
  cases hCheck : builtIn.check options with
  | error error =>
      rw [hCheck] at hVisitor
      cases hVisitor
  | ok check =>
      rw [hCheck] at hVisitor
      cases hVisitor
      refine ⟨rfl, rfl, check, ?_, rfl⟩
      rw [checkIn?, hSame, hOptions]
      exact congrArg Except.toOption hCheck

/-- Each built-in rule makes its own kind of check. -/
theorem eq_of_checkIn? {builtIn : BuiltIn} {config : Config} {check : Check}
    (hCheck : builtIn.checkIn? config = some check) : builtIn = ofCheck check := by
  unfold checkIn? at hCheck
  cases hOptions : Options.resolve builtIn.rule.options config.settings with
  | error error =>
      rw [hOptions] at hCheck
      cases hCheck
  | ok options =>
      have hMade : (builtIn.check options).toOption = some check := by
        rw [hOptions] at hCheck
        exact hCheck
      have hOk : ∀ {α : Type} {made : Except ConfigError α} {make : α → Check},
          (made.map make).toOption = some check → ∃ settings, check = make settings := by
        intro α made make hSome
        cases made with
        | error error => cases hSome
        | ok settings => exact ⟨settings, (Option.some.inj hSome).symm⟩
      cases builtIn <;> obtain ⟨settings, rfl⟩ := hOk hMade <;> rfl

end BuiltIn

/-- Each built-in rule that has been started makes the check of the entry at its place, and is not
called for the file as a whole. -/
theorem BuiltIn.checkAt?_of_startFrom {entries : List (BuiltIn × Severity)} {config : Config}
    {index : Nat} {rules : List ActiveRule}
    (hRules : Linter.startFrom config index (entries.map fun entry => entry.1.rule entry.2) =
      .ok rules) :
    ∀ rule ∈ rules, ∃ place check, rule.index = index + place ∧
      checkAt? entries config place = some check ∧ rule.visitor = .stateless check.respond ∧
      rule.hooks.contains .file = false := by
  induction entries generalizing index rules with
  | nil =>
      cases hRules
      simp
  | cons entry entries ih =>
      have hLater : ∀ {others : List ActiveRule} {rule : ActiveRule}, Linter.startFrom config
          (index + 1) (entries.map fun entry => entry.1.rule entry.2) = .ok others → rule ∈ others →
          ∃ place check, rule.index = index + place ∧
            checkAt? (entry :: entries) config place = some check ∧
            rule.visitor = .stateless check.respond ∧ rule.hooks.contains .file = false := by
        intro others rule hOthers hRule
        obtain ⟨place, check, hIndex, hCheck, hRest⟩ := ih hOthers rule hRule
        refine ⟨place + 1, check, by omega, ?_, hRest⟩
        rw [checkAt?, List.getElem?_cons_succ]
        exact hCheck
      rcases Linter.startFrom_cons hRules with ⟨-, hRest⟩ | ⟨first, others, -, hFirst, hOthers, rfl⟩
      · exact fun rule hRule => hLater hRest hRule
      · obtain ⟨hIndex, hHooks, check, hCheck, hVisitor⟩ := visitor_of_startRule hFirst
        have hFile : first.hooks.contains .file = false := by
          rw [hHooks]
          cases entry.1 <;> rfl
        rw [List.forall_mem_cons]
        exact ⟨⟨0, check, hIndex, hCheck, hVisitor, hFile⟩, fun rule hRule => hLater hOthers hRule⟩

/-- A preset has the default-value rule once. -/
theorem Preset.eq_of_handleDefault (preset : Preset) (config : Config) (i j : Nat)
    (settings others : HandleDefault.Settings)
    (hFirst : BuiltIn.checkAt? preset.entries config i = some (.handleDefault settings))
    (hSecond : BuiltIn.checkAt? preset.entries config j = some (.handleDefault others)) : i = j := by
  have hZero : ∀ index settings, BuiltIn.checkAt? preset.entries config index =
      some (.handleDefault settings) → index = 0 := by
    intro index settings hCheck
    obtain ⟨entry, hEntry, hMade⟩ := Option.bind_eq_some_iff.mp hCheck
    have hSame := BuiltIn.eq_of_checkIn? hMade
    cases index with
    | zero => rfl
    | succ index =>
        have hRest : ∀ other ∈ preset.entries.tail, other.1 ≠ .handleDefault := by
          cases preset <;> decide
        refine absurd hSame (hRest entry (List.mem_of_getElem? (i := index) ?_))
        rwa [List.getElem?_tail]
  rw [hZero i settings hFirst, hZero j others hSecond]

theorem HandleDefault.turnsFrom_emptyHandle (listening : Hook → List String → List Nat) (path : Path)
    (suppressed : List String) : emptyHandle.turnsFrom listening path suppressed = [] := by
  simp [Node.turnsFrom_eq, Node.turnsOfAll, emptyHandle, Node.defaultValue, Node.leaf, Node.bare,
    Run.isDeclaration]

section Run

variable {preset : Preset} {config : Config} {rules : List ActiveRule} {tree : SourceTree}
  (hRules : (preset.linter config).start = .ok rules)

include hRules in
theorem Preset.startFrom_entries : Linter.startFrom config 0
    (preset.entries.map fun entry => entry.1.rule entry.2) = .ok rules := by
  rw [← preset.rules_eq]
  exact hRules

variable (hTree : tree.Canonical) (hFile : tree.root.kind = .file)
  (hSize : (completed (settingsIn? config) tree.root).size < distanceBound) (fixing : Bool)
include hRules hTree hFile hSize

omit hRules hTree hFile in
theorem HandleDefault.size_lt_of_completed : tree.root.size < distanceBound :=
  Nat.lt_of_le_of_lt (size_le_completed (Node.grownTo_self emptyHandle tree.root) (by simp)) hSize

/-- A run of a preset can be measured all along and takes the turns that the file asks for at first. -/
theorem Preset.turns_runRules :
    (∀ call ∈ (runRules rules tree fixing).calls, call.Fits) ∧
      (runRules rules tree fixing).calls.map Call.turn = schedule rules tree.root := by
  have hSmall := size_lt_of_completed hSize
  cases fixing with
  | false =>
      obtain ⟨hSame, hFits⟩ := tree_runRules_of_lint rules tree
      have hTurns := UiLint.turns_runRules rules false hTree hFile hSmall hFits
      rw [hSame] at hTurns
      exact ⟨hFits, hTurns⟩
  | true =>
      have hTame := BuiltIn.tame_of_startFrom (Preset.startFrom_entries hRules)
      rw [preset.settingsIn?_entries] at hTame
      have hGiving := Giving.runRules hTame hTree hFile hSize
      have hTurns := UiLint.turns_runRules rules true hTree hFile hSmall hGiving.fits
      rw [schedule_grown rules hGiving.grown hFile
        (turnsFrom_emptyHandle (ActiveRule.listening rules))] at hTurns
      exact ⟨hGiving.fits, hTurns⟩

/-- The findings of a run of a preset stand for what its rules have to say about the file. -/
theorem Preset.reporting {stands : Node → Path → Nat → Prop} (hTracks : Tracks tree.root stands) :
    ∃ given, Reporting (BuiltIn.checkAt? preset.entries config) stands tree.root fixing given
      (runRules rules tree fixing) := by
  obtain ⟨hFits, hTurns⟩ := Preset.turns_runRules hRules hTree hFile hSize fixing
  have hStart := Preset.startFrom_entries hRules
  have hSmall := size_lt_of_completed hSize
  refine reporting_runRules hTracks hTree hFile hSmall ?_ (Linter.pairwise_startFrom hStart).2
    (preset.eq_of_handleDefault config) hFits hTurns
  intro rule hRule
  obtain ⟨place, check, hIndex, hCheck, hVisitor, -⟩ :=
    BuiltIn.checkAt?_of_startFrom hStart rule hRule
  rw [Nat.zero_add] at hIndex
  exact ⟨check, by rw [hIndex]; exact hCheck, hVisitor⟩

end Run

/-- Violations are those of the findings, in some order. -/
theorem Linter.violations_perm (linter : Linter) (text : String) (findings : List Finding) :
    (linter.violations text findings).Perm (findings.filterMap fun finding =>
      linter.rules[finding.rule]?.map fun rule => violation linter.config rule
        ((Text.LineIndex.ofText text).position finding.offset, finding)) := by
  have hSorted := (List.mergeSort_perm (findings.map fun finding =>
    ((Text.LineIndex.ofText text).position finding.offset, finding))
    fun first second => keyLe (sortKey first) (sortKey second)).filterMap fun located =>
      linter.rules[located.2.rule]?.map fun rule => violation linter.config rule located
  rw [List.filterMap_map] at hSorted
  exact hSorted

/-- What is read of the violations can be told from the notes that the findings stand for, if this is
so one by one. -/
theorem Linter.map_violations_perm {β : Type} (linter : Linter) (text : String)
    {R : Nat × Note → Finding → Prop} {noted : List (Nat × Note)} {findings : List Finding}
    (hRecorded : List.Forall₂ R noted findings) (read : Violation → β) (told : Rule → Note → β)
    (hRule : ∀ entry finding, R entry finding → finding.rule = entry.1)
    (hRead : ∀ entry finding rule, R entry finding → linter.rules[entry.1]? = some rule →
      read (violation linter.config rule
        ((Text.LineIndex.ofText text).position finding.offset, finding)) = told rule entry.2) :
    ((linter.violations text findings).map read).Perm
      (noted.filterMap fun entry => linter.rules[entry.1]?.map (told · entry.2)) := by
  refine ((linter.violations_perm text findings).map read).trans (.of_eq ?_)
  rw [List.map_filterMap]
  induction hRecorded with
  | nil => rfl
  | @cons entry finding noted findings hFirst _ ih =>
      have hSame : (linter.rules[finding.rule]?.map fun rule => violation linter.config rule
          ((Text.LineIndex.ofText text).position finding.offset, finding)).map read =
          linter.rules[entry.1]?.map (told · entry.2) := by
        rw [hRule entry finding hFirst, Option.map_map]
        cases hFound : linter.rules[entry.1]? with
        | none => rfl
        | some rule => exact congrArg some (hRead entry finding rule hFirst hFound)
      rw [List.filterMap_cons, List.filterMap_cons, hSame, ih]

end UiLint
