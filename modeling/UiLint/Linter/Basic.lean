import UiLint.Config.Basic
import UiLint.Engine.Run
import UiLint.Report.FileReport
import UiLint.Text.LineIndex

/-! Linters: rules with a configuration. A run resolves the options of every enabled rule
first; if that fails no rule is called. -/
namespace UiLint

/-- Why a file was not linted: the options of a rule do not resolve. -/
structure LintError where
  rule : String
  source : ConfigError

/-- The error in words. Its source says what is wrong. -/
def LintError.message (error : LintError) : String :=
  s!"invalid configuration for rule {error.rule}"

/-- A file to lint. -/
structure SourceFile where
  path : String
  tree : SourceTree

/-- Rules in the order of their registration, the project's configuration, and the number
of workers that runs over several files have for themselves. -/
structure Linter where
  rules : List Rule
  config : Config
  workers : Option Nat

namespace Linter

/-- A linter. A number of workers given here wins over that of the configuration. -/
def build (rules : List Rule) (config : Config) (workers : Option Nat := none) : Linter :=
  ⟨rules, config, workers <|> config.parallelism⟩

/-- Start one rule for a file. -/
def startRule (config : Config) (rule : Rule) (index : Nat) : Except LintError ActiveRule :=
  match Options.resolve rule.options config.settings with
  | .error error => .error ⟨rule.name, error⟩
  | .ok options =>
    match rule.start options with
    | .error error => .error ⟨rule.name, error⟩
    | .ok visitor => .ok ⟨index, rule.name, rule.hooks, visitor⟩

/-- Start the enabled rules, of which the first has the given index. -/
def startFrom (config : Config) (index : Nat) : List Rule → Except LintError (List ActiveRule)
  | [] => .ok []
  | rule :: rules =>
    if config.isRuleEnabled rule.name then
      match startRule config rule index with
      | .error error => .error error
      | .ok active =>
        match startFrom config (index + 1) rules with
        | .error error => .error error
        | .ok others => .ok (active :: others)
    else startFrom config (index + 1) rules

/-- Start every enabled rule for a file, or name the first whose options do not resolve. -/
def start (linter : Linter) : Except LintError (List ActiveRule) :=
  startFrom linter.config 0 linter.rules

/-- What reports are sorted by: line, column, the rule's place and the finding's place. -/
def sortKey (located : Text.Position × Finding) : List Nat :=
  [located.1.line, located.1.column, located.2.rule, located.2.sequence]

/-- The lexicographic order of sort keys. -/
def keyLe : (first second : List Nat) → Bool
  | [], _ => true
  | _ :: _, [] => false
  | i :: first, j :: second => i < j || (i == j && keyLe first second)

/-- The findings with their positions in a text, sorted. -/
def locate (text : String) (findings : List Finding) : List (Text.Position × Finding) :=
  let index := Text.LineIndex.ofText text
  (findings.map fun finding => (index.position finding.offset, finding)).mergeSort
    fun first second => keyLe (sortKey first) (sortKey second)

/-- The violation that a finding of a rule amounts to. The project's severity for the rule
wins over the rule's own. -/
def violation (config : Config) (rule : Rule) (located : Text.Position × Finding) : Violation :=
  let finding := located.2
  Violation.withFix
    { code := rule.code
      rule := rule.name
      severity := (config.ruleSeverity? rule.name).getD rule.severity
      location := ⟨located.1.line, located.1.column, finding.offset⟩
      message := finding.message }
    finding.fixable finding.autoFixed

/-- The violations that findings in a text amount to, in order. -/
def violations (linter : Linter) (text : String) (findings : List Finding) : List Violation :=
  (locate text findings).filterMap fun located =>
    linter.rules[located.2.rule]?.map fun rule => violation linter.config rule located

/-- Run over a file: the report, and the tree in which the run ended. -/
def run (linter : Linter) (file : SourceFile) (fixing : Bool) : Except LintError FixedFile :=
  match linter.start with
  | .error error => .error error
  | .ok rules =>
    let progress := runRules rules file.tree fixing
    .ok ⟨⟨file.path, linter.violations progress.tree.text progress.findings, progress.aborted⟩,
      progress.tree⟩

/-- Lint a file and leave it as it is. -/
def lint (linter : Linter) (file : SourceFile) : Except LintError FileReport :=
  (linter.run file false).map (·.report)

/-- Lint a file and make the fixes that the rules offer. -/
def lintAndFix (linter : Linter) (file : SourceFile) : Except LintError FixedFile :=
  linter.run file true

end Linter

end UiLint
