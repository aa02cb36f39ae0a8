import UiLint.Options.Setting
import UiLint.Report.Severity

/-! The configuration of a project. -/
namespace UiLint

/-- What a project says about one rule. -/
structure RuleConfig where
  enabled : Option Bool := none
  severity : Option Severity := none
  deriving DecidableEq, Repr, Inhabited

/-- The settings that all rules share, what is said about single rules, and the number of
workers for runs over several files. -/
structure Config where
  settings : Settings := NameMap.empty
  rules : NameMap RuleConfig := NameMap.empty
  parallelism : Option Nat := none
  deriving Inhabited

namespace Config

/-- A rule runs unless the project turns it off. -/
def isRuleEnabled (config : Config) (rule : String) : Bool :=
  match config.rules.get? rule with
  | some entry => entry.enabled.getD true
  | none => true

/-- The severity that the project gives to a rule. -/
def ruleSeverity? (config : Config) (rule : String) : Option Severity :=
  (config.rules.get? rule).bind (·.severity)

end Config

end UiLint
