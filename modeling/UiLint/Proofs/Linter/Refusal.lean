import Mathlib.Data.List.Forall2
import UiLint.Linter.Batch
import UiLint.Proofs.Checks.PresetRun
import UiLint.Proofs.Options.Resolve

/-! When linters made of built-in rules refuse to run. They do so for a setting that an enabled rule
cannot read and for nothing else, whatever the file is; so either every file is refused with the same
error or none is. -/
namespace UiLint

theorem HandleDefault.exists_settings {config : UiLint.Settings} {options : Options}
    (hOptions : Options.resolve HandleDefault.rule.options config = .ok options) :
    ∃ settings, Settings.ofOptions options = .ok settings := by
  have hNames : (HandleDefault.rule.options.map (·.name)).Nodup := by decide
  obtain ⟨scope, hScope⟩ := Options.exists_requireChoice hNames hOptions
    (show visibilitySpec ∈ _ by simp [HandleDefault.rule]) rfl
  obtain ⟨aliases, hAliases⟩ := Options.exists_requireSet hNames hOptions
    (show aliasesSpec ∈ _ by simp [HandleDefault.rule]) rfl
  refine ⟨⟨.ofChoice scope, aliases⟩, ?_⟩
  simp only [Settings.ofOptions, VisibilityScope.ofOptions, aliasesOf, hScope, hAliases]
  rfl

theorem ParameterOrder.exists_aliases {config : UiLint.Settings} {options : Options}
    (hOptions : Options.resolve ParameterOrder.rule.options config = .ok options) :
    ∃ aliases, aliasesOf options = .ok aliases :=
  Options.exists_requireSet (by decide) hOptions
    (show aliasesSpec ∈ _ by simp [ParameterOrder.rule]) rfl

/-- A built-in rule can be started once its options resolve. -/
theorem BuiltIn.exists_visitor (builtIn : BuiltIn) (severity : Severity) {config : UiLint.Settings}
    {options : Options}
    (hOptions : Options.resolve (builtIn.rule severity).options config = .ok options) :
    ∃ visitor, (builtIn.rule severity).start options = .ok visitor := by
  rw [start_rule]
  cases builtIn with
  | handleDefault =>
      obtain ⟨settings, hSettings⟩ := HandleDefault.exists_settings hOptions
      exact ⟨_, by rw [check, hSettings]; rfl⟩
  | handleMissing =>
      obtain ⟨settings, hSettings⟩ := HandleMissing.exists_settings hOptions
      exact ⟨_, by rw [check, hSettings]; rfl⟩
  | parameterOrder =>
      obtain ⟨aliases, hAliases⟩ := ParameterOrder.exists_aliases hOptions
      exact ⟨_, by rw [check, hAliases]; rfl⟩

/-- Whether the rule is enabled and the setting of one of its options misfits. -/
def Rule.misfits (rule : Rule) (config : Config) : Bool :=
  config.isRuleEnabled rule.name && rule.options.any (·.misfits config.settings)

/-- The error names the first of the rules that misfits, in the order of their registration, and the
first option of that rule that does, in the order of their declaration. It says what the setting is
and what would be expected. -/
def Rule.Blames (rules : List Rule) (config : Config) (error : LintError) : Prop :=
  ∃ rule spec setting, rules.find? (·.misfits config) = some rule ∧
    rule.options.find? (·.misfits config.settings) = some spec ∧
    config.settings.get? spec.name = some setting ∧
    error = ⟨rule.name, .invalidValue spec.name setting.display spec.type.expectation⟩

theorem Rule.exists_blames_iff {rules : List Rule} {config : Config} :
    (∃ error, Blames rules config error) ↔
      ∃ rule ∈ rules, config.isRuleEnabled rule.name = true ∧ ∃ spec ∈ rule.options,
        ∃ setting, config.settings.get? spec.name = some setting ∧
          spec.type.read? setting = none := by
  have hMisfits : (∃ rule ∈ rules, rule.misfits config = true) ↔
      ∃ rule ∈ rules, config.isRuleEnabled rule.name = true ∧ ∃ spec ∈ rule.options,
        ∃ setting, config.settings.get? spec.name = some setting ∧
          spec.type.read? setting = none := by
    simp only [misfits, Bool.and_eq_true, List.any_eq_true, OptionSpec.misfits_eq_true_iff]
  rw [← hMisfits, ← List.find?_isSome, Option.isSome_iff_exists]
  constructor
  · rintro ⟨-, rule, -, -, hRule, -⟩
    exact ⟨rule, hRule⟩
  · rintro ⟨rule, hRule⟩
    have hFound := List.find?_some hRule
    rw [misfits, Bool.and_eq_true, ← Options.exists_resolve_error_iff] at hFound
    obtain ⟨-, source, hSource⟩ := hFound
    obtain ⟨spec, setting, hSpec, hSetting, -⟩ := Options.resolveOnto_eq_error_iff.mp hSource
    exact ⟨_, rule, spec, setting, hRule, hSpec, hSetting, rfl⟩

namespace BuiltIn

variable {config : Config}

/-- Built-in rules are not started just when one of them misfits, and the error says which. -/
theorem startFrom_eq_error_iff {entries : List (BuiltIn × Severity)} (index : Nat)
    {error : LintError} :
    Linter.startFrom config index (entries.map fun entry => entry.1.rule entry.2) = .error error ↔
      Rule.Blames (entries.map fun entry => entry.1.rule entry.2) config error := by
  induction entries generalizing index with
  | nil => simp [Linter.startFrom, Rule.Blames]
  | cons entry entries ih =>
      obtain ⟨builtIn, severity⟩ := entry
      rw [List.map_cons, Linter.startFrom, Rule.Blames, List.find?_cons, Rule.misfits]
      by_cases hEnabled : config.isRuleEnabled (builtIn.rule severity).name = true
      · rw [if_pos hEnabled, hEnabled, Bool.true_and]
        cases hOptions : Options.resolve (builtIn.rule severity).options config.settings with
        | error source =>
            have hMisfits := Options.exists_resolve_error_iff.mp ⟨source, hOptions⟩
            obtain ⟨spec, setting, hSpec, hSetting, rfl⟩ :=
              Options.resolveOnto_eq_error_iff.mp hOptions
            simp [Linter.startRule, hOptions, hMisfits, hSpec, hSetting, eq_comm]
        | ok options =>
            have hFits : (builtIn.rule severity).options.any (·.misfits config.settings) = false := by
              rw [Bool.eq_false_iff, ne_eq, ← Options.exists_resolve_error_iff, hOptions]
              rintro ⟨source, hSource⟩
              cases hSource
            obtain ⟨visitor, hVisitor⟩ := builtIn.exists_visitor severity hOptions
            have hRest := ih (index + 1)
            simp only [Linter.startRule, hOptions, hVisitor, hFits]
            cases hOthers : Linter.startFrom config (index + 1)
              (entries.map fun entry => entry.1.rule entry.2) with
            | error found => rwa [hOthers] at hRest
            | ok others =>
                rw [hOthers] at hRest
                refine iff_of_false (fun hFailed => ?_) fun hBlames => ?_
                · cases hFailed
                · cases hRest.mpr hBlames
      · rw [if_neg hEnabled, ih]
        simp [hEnabled, Rule.Blames]

end BuiltIn

namespace Linter

variable {config : Config} {settings : Settings} {rules : List Rule}

/-- Rules start in the same way under settings that give the same values to the options of those
that are enabled. -/
theorem startFrom_congr (hSame : ∀ rule ∈ rules, config.isRuleEnabled rule.name = true →
      ∀ spec ∈ rule.options, spec.value settings = spec.value config.settings) (index : Nat) :
    startFrom { config with settings } index rules = startFrom config index rules := by
  induction rules generalizing index with
  | nil => rfl
  | cons rule rules ih =>
      rw [List.forall_mem_cons] at hSame
      rw [startFrom, startFrom, ih hSame.2,
        show ({ config with settings } : Config).isRuleEnabled rule.name =
          config.isRuleEnabled rule.name from rfl]
      by_cases hEnabled : config.isRuleEnabled rule.name = true
      · have hOptions : Options.resolve rule.options settings =
            Options.resolve rule.options config.settings :=
          Options.resolveOnto_congr_of_value (hSame.1 hEnabled) _
        rw [startRule, startRule, hOptions]
      · rw [if_neg hEnabled, if_neg hEnabled]

theorem run_congr_of_value (hSame : ∀ rule ∈ rules, config.isRuleEnabled rule.name = true →
      ∀ spec ∈ rule.options, spec.value settings = spec.value config.settings)
    (workers : Option Nat) (file : SourceFile) (fixing : Bool) :
    run ⟨rules, { config with settings }, workers⟩ file fixing =
      run ⟨rules, config, workers⟩ file fixing := by
  rw [run, run, start, start, startFrom_congr hSame]
  rfl

theorem run_congr (hSame : ∀ rule ∈ rules, config.isRuleEnabled rule.name = true →
      ∀ spec ∈ rule.options, settings.get? spec.name = config.settings.get? spec.name)
    (workers : Option Nat) (file : SourceFile) (fixing : Bool) :
    run ⟨rules, { config with settings }, workers⟩ file fixing =
      run ⟨rules, config, workers⟩ file fixing :=
  run_congr_of_value (fun rule hRule hEnabled spec hSpec =>
    OptionSpec.value_congr (hSame rule hRule hEnabled spec hSpec)) workers file fixing

/-- A linter that cannot start says so for every file and in either mode. -/
theorem run_eq_error_iff {linter : Linter} {file : SourceFile} {fixing : Bool} {error : LintError} :
    linter.run file fixing = .error error ↔ linter.start = .error error := by
  rw [run]
  cases linter.start <;> simp

theorem lint_eq_error_iff {linter : Linter} {file : SourceFile} {error : LintError} :
    linter.lint file = .error error ↔ linter.start = .error error := by
  rw [← run_eq_error_iff, lint]
  cases linter.run file false <;> simp [Except.map]

theorem lintAll_of_ok {linter : Linter} {files : List SourceFile}
    (hFiles : ∀ file ∈ files, ∃ report, linter.lint file = .ok report) :
    (linter.lintAll files).failures = [] ∧
      List.Forall₂ (fun file report => linter.lint file = .ok report) files
        (linter.lintAll files).reports := by
  induction files with
  | nil => exact ⟨rfl, .nil⟩
  | cons file files ih =>
      rw [List.forall_mem_cons] at hFiles
      obtain ⟨⟨report, hReport⟩, hRest⟩ := hFiles
      obtain ⟨hNone, hReports⟩ := ih hRest
      simp only [lintAll, List.filterMap_cons, hReport] at hNone hReports ⊢
      exact ⟨hNone, .cons hReport hReports⟩

theorem lintAll_of_error {linter : Linter} {files : List SourceFile} {error : LintError}
    (hFiles : ∀ file ∈ files, linter.lint file = .error error) :
    (linter.lintAll files).reports = [] ∧
      (linter.lintAll files).failures = files.map fun file => ⟨file.path, error⟩ := by
  induction files with
  | nil => exact ⟨rfl, rfl⟩
  | cons file files ih =>
      rw [List.forall_mem_cons] at hFiles
      obtain ⟨hNone, hFailures⟩ := ih hFiles.2
      simp only [lintAll, List.filterMap_cons, hFiles.1] at hNone hFailures ⊢
      rw [hFailures]
      exact ⟨hNone, rfl⟩

end Linter

/-- A linter of built-in rules, each with the severity of its violations. -/
def BuiltIn.linter (entries : List (BuiltIn × Severity)) (config : Config) (workers : Option Nat) :
    Linter :=
  Linter.build (entries.map fun entry => entry.1.rule entry.2) config workers

/-- A linter of built-in rules refuses a file, whether or not it is to be fixed, with just the error
about the first enabled rule and its first option whose setting cannot be read; so there is an error
if and only if there is such a rule. Settings that no enabled rule declares change nothing about any
run. Of several files, either each is reported as it is when it is linted alone, or each fails with
the same error. -/
theorem BuiltIn.refuses_iff_misfits (entries : List (BuiltIn × Severity)) (config : Config)
    (workers : Option Nat) :
    (∀ file error,
      ((linter entries config workers).lint file = .error error ↔
        Rule.Blames (linter entries config workers).rules config error) ∧
      ((linter entries config workers).lintAndFix file = .error error ↔
        Rule.Blames (linter entries config workers).rules config error)) ∧
    ((∃ error, Rule.Blames (linter entries config workers).rules config error) ↔
      ∃ rule ∈ (linter entries config workers).rules, config.isRuleEnabled rule.name = true ∧
        ∃ spec ∈ rule.options, ∃ setting, config.settings.get? spec.name = some setting ∧
          spec.type.read? setting = none) ∧
    (∀ settings : Settings,
      (∀ rule ∈ (linter entries config workers).rules, config.isRuleEnabled rule.name = true →
        ∀ spec ∈ rule.options, settings.get? spec.name = config.settings.get? spec.name) →
      ∀ file fixing, (linter entries { config with settings } workers).run file fixing =
        (linter entries config workers).run file fixing) ∧
    ∀ files,
      (((linter entries config workers).lintAll files).failures = [] ∧
        List.Forall₂ (fun file report => (linter entries config workers).lint file = .ok report)
          files ((linter entries config workers).lintAll files).reports) ∨
      (((linter entries config workers).lintAll files).reports = [] ∧
        ∃ error, Rule.Blames (linter entries config workers).rules config error ∧
          ((linter entries config workers).lintAll files).failures =
            files.map fun file => ⟨file.path, error⟩) := by
  have hStart : ∀ error, (linter entries config workers).start = .error error ↔
      Rule.Blames (linter entries config workers).rules config error :=
    fun error => startFrom_eq_error_iff 0
  refine ⟨fun file error => ⟨?_, ?_⟩, Rule.exists_blames_iff,
    fun settings hSame => Linter.run_congr hSame _, fun files => ?_⟩
  · rw [Linter.lint_eq_error_iff, hStart]
  · rw [Linter.lintAndFix, Linter.run_eq_error_iff, hStart]
  · cases hRules : (linter entries config workers).start with
    | ok rules =>
        refine .inl (Linter.lintAll_of_ok fun file _ => ?_)
        exact ⟨_, by rw [Linter.lint, Linter.run_eq_ok hRules]; rfl⟩
    | error error =>
        obtain ⟨hNone, hFailures⟩ := Linter.lintAll_of_error fun file (_ : file ∈ files) =>
          Linter.lint_eq_error_iff.mpr hRules
        exact .inr ⟨hNone, error, (hStart error).mp hRules, hFailures⟩

/-- With the first rule turned off, the second is the one that cannot read its options. -/
example : Rule.Blames Preset.recommended.rules
    { settings := NameMap.empty.insert visibilitySpec.name (.text "friends")
      rules := NameMap.empty.insert HandleDefault.rule.name { enabled := some false } }
    ⟨HandleMissing.rule.name, .invalidValue visibilitySpec.name "friends"
      "one of public, public_and_internal, all"⟩ :=
  ⟨_, _, _, rfl, rfl, rfl, rfl⟩

end UiLint
