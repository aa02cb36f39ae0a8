import UiLint.Checks.HandleDefault
import UiLint.Checks.HandleMissing
import UiLint.Checks.ParameterOrder
import UiLint.Linter.Basic

/-! The built-in rules and the usual selections of them. -/
namespace UiLint

/-- The built-in rules. -/
inductive BuiltIn where
  | handleDefault
  | handleMissing
  | parameterOrder
  deriving DecidableEq, Repr

/-- A built-in rule with the severity of its violations. -/
def BuiltIn.rule (builtIn : BuiltIn) (severity : Severity := .warning) : Rule :=
  match builtIn with
  | handleDefault => HandleDefault.rule severity
  | handleMissing => HandleMissing.rule severity
  | parameterOrder => ParameterOrder.rule severity

/-- Selections of rules: all as warnings, all as errors, or only the one with a fix. -/
inductive Preset where
  | recommended
  | strict
  | minimal
  deriving DecidableEq, Repr

/-- Every built-in rule, in the order of their codes. -/
def BuiltIn.all : List BuiltIn :=
  [handleDefault, handleMissing, parameterOrder]

/-- The rules of a preset. -/
def Preset.rules : Preset → List Rule
  | recommended => BuiltIn.all.map (·.rule .warning)
  | strict => BuiltIn.all.map (·.rule .error)
  | minimal => [BuiltIn.handleDefault.rule .warning]

/-- A linter with the rules of a preset. -/
def Preset.linter (preset : Preset) (config : Config) : Linter :=
  Linter.build preset.rules config

end UiLint
