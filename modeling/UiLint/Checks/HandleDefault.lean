import UiLint.Checks.SharedOptions
import UiLint.Declaration.Members
import UiLint.Engine.Rule

/-! The rule that styling-handle parameters of UI functions have a default value, so that
callers can leave them out. Functions whose signature is dictated elsewhere are exempt.
The fix gives the parameter the empty handle as default. -/
namespace UiLint.HandleDefault

/-- The options that the rule reads. -/
structure Settings where
  scope : VisibilityScope
  aliases : NameSet

/-- Read the options. -/
def Settings.ofOptions (options : Options) : Except ConfigError Settings := do
  let scope ← VisibilityScope.ofOptions options
  let aliases ← aliasesOf options
  return { scope, aliases }

/-- What the rule says about a parameter. -/
def message : String :=
  "UI function has a styling-handle parameter without a default value."

/-- Whether a function is not inspected. -/
def isExempt (settings : Settings) (header : FunctionHeader) (site : Site) : Bool :=
  site.isInInterface || header.isActual || header.isOverride || header.isAbstract ||
    !settings.scope.includes header.visibility

/-- The styling handles of a function that lack a default value. -/
def missing (settings : Settings) (function : Node) : List (Placed ParameterHeader) :=
  function.parameters.filter fun parameter =>
    parameter.header.isStylingHandle settings.aliases && !parameter.node.hasDefault

/-- Report each handle without default and, in a run that fixes, give it one. -/
def check (settings : Settings) (visit : Visit) : Response :=
  match visit.subject with
  | .composable header =>
    if isExempt settings header visit.site then {}
    else
      let parameters := missing settings visit.site.node
      { remarks := parameters.map fun parameter => ⟨parameter.node.span.start, message, true⟩
        edits :=
          if visit.fixing then
            parameters.map fun parameter => ⟨parameter.path, .defaultValue stylingHandleName⟩
          else [] }
  | _ => {}

/-- The rule, with the severity of its violations. -/
def rule (severity : Severity := .warning) : Rule where
  name := "compose:modifier-without-default-check"
  code := "CM001"
  description := "Styling-handle parameters must have a default value"
  severity
  options := [visibilitySpec, aliasesSpec]
  hooks := Hooks.none.add .composable
  start options := (Settings.ofOptions options).map fun settings =>
    .stateless (check settings)

end UiLint.HandleDefault
