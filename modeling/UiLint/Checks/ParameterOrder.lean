import UiLint.Checks.SharedOptions
import UiLint.Declaration.Members
import UiLint.Engine.Rule

/-! The rule that parameters stand in a uniform order: required ones, the styling handle,
those with a default value, and a lambda that can trail the call. -/
namespace UiLint.ParameterOrder

/-- The groups of parameters in the order in which they should stand. -/
inductive Group where
  | required
  | stylingHandle
  | defaulted
  | trailingLambda
  deriving DecidableEq, Repr

/-- The place of a group in the order. -/
def Group.rank : Group → Nat
  | required => 0
  | stylingHandle => 1
  | defaulted => 2
  | trailingLambda => 3

/-- The group of a parameter. A function type makes a trailing lambda only of the last one,
and not of a styling handle. -/
def group (aliases : NameSet) (parameter : Placed ParameterHeader) (isLast : Bool) : Group :=
  let isHandle := parameter.header.isStylingHandle aliases
  if isLast && parameter.header.isFunctionType && !isHandle then .trailingLambda
  else if !parameter.node.hasDefault then .required
  else if isHandle then .stylingHandle
  else .defaulted

/-- Parameters with their groups. -/
def grouped (aliases : NameSet) (parameters : List (Placed ParameterHeader)) :
    List (Group × Placed ParameterHeader) :=
  parameters.zipIdx.map fun entry =>
    (group aliases entry.1 (entry.2 + 1 == parameters.length), entry.1)

/-- The parameters in the order in which they should stand. Inside a group they keep the
order in which they are declared. -/
def expected (aliases : NameSet) (parameters : List (Placed ParameterHeader)) :
    List (Placed ParameterHeader) :=
  ((grouped aliases parameters).mergeSort fun first second =>
    decide (first.1.rank ≤ second.1.rank)).map (·.2)

/-- Names in a row. -/
def names (parameters : List (Placed ParameterHeader)) : String :=
  String.intercalate ", " (parameters.map (·.header.name))

/-- What the rule says about a function. -/
def message (current expected : List (Placed ParameterHeader)) : String :=
  "Parameters should be ordered: required parameters, the styling handle, " ++
    "parameters with defaults, then a trailing lambda. " ++
    "Current order is (" ++ names current ++ ") but should be (" ++ names expected ++ ")."

/-- Report a function whose parameters stand in another order. -/
def check (aliases : NameSet) (visit : Visit) : Response :=
  match visit.subject with
  | .function header =>
    let function := visit.site.node
    let current := function.parameters
    let sorted := expected aliases current
    if current.map (·.path) = sorted.map (·.path) then {}
    else { remarks := [⟨function.nameOffset header.name, message current sorted, false⟩] }
  | _ => {}

/-- The rule, with the severity of its violations. -/
def rule (severity : Severity := .warning) : Rule where
  name := "compose:param-order-check"
  code := "CM003"
  description := "Parameters follow required, styling handle, defaulted, trailing lambda order"
  severity
  options := [aliasesSpec]
  hooks := Hooks.none.add .function
  start options := (aliasesOf options).map fun aliases => .stateless (check aliases)

end UiLint.ParameterOrder
