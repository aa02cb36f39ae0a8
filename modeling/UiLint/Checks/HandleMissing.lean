import UiLint.Checks.ContentEmitters
import UiLint.Engine.Rule

/-! The rule that UI functions which emit content take a styling handle, so that callers
can place and decorate the content. Previews, functions that return a value and functions
whose signature is dictated elsewhere are exempt. -/
namespace UiLint.HandleMissing

/-- The options that the rule reads. -/
structure Settings where
  scope : VisibilityScope
  aliases : NameSet
  markers : NameSet
  emitters : ContentEmitters

/-- Read the options. -/
def Settings.ofOptions (options : Options) : Except ConfigError Settings := do
  let scope ← VisibilityScope.ofOptions options
  let aliases ← aliasesOf options
  let markers ← previewMarkersOf options
  let emitters ← ContentEmitters.ofOptions options
  return { scope, aliases, markers, emitters }

/-- What the rule says about a function. -/
def message : String :=
  "Content-emitting UI function is missing a styling-handle parameter."

/-- Whether a function is not inspected. -/
def isExempt (settings : Settings) (header : FunctionHeader) (site : Site) : Bool :=
  !header.returnsUnit || header.isOverride || site.isInInterface ||
    header.isPreview settings.markers || !settings.scope.includes header.visibility

/-- The first styling-handle parameter of a function. -/
def handle? (aliases : NameSet) (function : Node) : Option (Placed ParameterHeader) :=
  function.parameters.find? (·.header.isStylingHandle aliases)

/-- Report a function that emits content and takes no handle. -/
def check (settings : Settings) (visit : Visit) : Response :=
  match visit.subject with
  | .composable header =>
    let function := visit.site.node
    if isExempt settings header visit.site || (handle? settings.aliases function).isSome then {}
    else if settings.emitters.isEmitting function then
      { remarks := [⟨function.nameOffset header.name, message, false⟩] }
    else {}
  | _ => {}

/-- The rule, with the severity of its violations. -/
def rule (severity : Severity := .warning) : Rule where
  name := "compose:modifier-missing-check"
  code := "CM002"
  description := "Content-emitting UI functions must accept a styling handle"
  severity
  options := [visibilitySpec, aliasesSpec, previewMarkersSpec, contentEmittersSpec]
  hooks := Hooks.none.add .composable
  start options := (Settings.ofOptions options).map fun settings =>
    .stateless (check settings)

end UiLint.HandleMissing
