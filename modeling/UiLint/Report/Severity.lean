/-! How serious a violation is. -/
namespace UiLint

/-- The severities, from least to most serious. -/
inductive Severity where
  | info
  | warning
  | error
  deriving DecidableEq, Repr, Inhabited

namespace Severity

/-- The severity in words, in reports and in configurations alike. -/
def name : Severity → String
  | info => "info"
  | warning => "warning"
  | error => "error"

/-- The rank in the order of seriousness. -/
def rank : Severity → Nat
  | info => 0
  | warning => 1
  | error => 2

/-- The order of seriousness. -/
def order (first second : Severity) : Ordering :=
  compare first.rank second.rank

/-- The severity with exactly the given name. -/
def ofName? (text : String) : Option Severity :=
  [info, warning, error].find? (·.name == text)

theorem ofName?_name (severity : Severity) : ofName? severity.name = some severity := by
  cases severity <;> decide

end Severity

end UiLint
