import UiLint.Options.Setting
import UiLint.Options.Spec
import UiLint.Text.Blank
import UiLint.Text.Split

/-! Resolving declared options against the settings of a project. A rule reads typed
values only; a setting that no option declares is never looked at. -/
namespace UiLint

open UiLint.Text

/-- What can be wrong with a configuration. -/
inductive ConfigError where
  | invalidValue (key value expected : String)
  | missingOption (key : String)
  | unreadable
  deriving DecidableEq, Repr

namespace ConfigError

/-- The error in words. -/
def message : ConfigError → String
  | invalidValue key value expected =>
    "invalid value " ++ quoted value ++ s!" for option `{key}`: expected {expected}"
  | missingOption key => s!"option `{key}` was not declared by the rule"
  | unreadable => "failed to parse config"

/-- The identifier of the error for tools. -/
def code : ConfigError → String
  | invalidValue _ _ _ => "compose_lint::config::invalid_value"
  | missingOption _ => "compose_lint::config::missing_option"
  | unreadable => "compose_lint::config::parse"

/-- What to do about the error. -/
def help? : ConfigError → Option String
  | invalidValue _ _ _ => some "check the `[settings]` table of your configuration"
  | _ => none

end ConfigError

/-- The trimmed items, without those that are then empty. -/
def setItems (items : List String) : NameSet :=
  NameSet.ofList ((items.map trim).filter (· ≠ ""))

/-- A flag written as text, in any case of ASCII letters and with padding. -/
def flagOfText? (text : String) : Option Bool :=
  let letters := (trimmed text.toList).map Char.toLower
  if letters = "true".toList then some true
  else if letters = "false".toList then some false
  else none

/-- What an option accepts, in words. -/
def OptionType.expectation : OptionType → String
  | text _ => "a string"
  | flag _ => "true or false"
  | set _ => "a list of strings or a comma-separated string"
  | choice choices _ => "one of " ++ String.intercalate ", " choices

/-- The value that a setting has as an option of the type. -/
def OptionType.read? : OptionType → Setting → Option OptionValue
  | text _, .text value => some (.text value)
  | flag _, .flag value => some (.flag value)
  | flag _, .text value => (flagOfText? value).map .flag
  | set _, .list items => some (.set (setItems items))
  | set _, .text value => some (.set (setItems (parts ',' value)))
  | choice choices _, .text value => (choices.find? (· == trim value)).map .choice
  | _, _ => none

/-- The value of an option under the settings. -/
def OptionSpec.value (spec : OptionSpec) (settings : Settings) : Except ConfigError OptionValue :=
  match settings.get? spec.name with
  | none => .ok spec.defaultValue
  | some setting =>
    match spec.type.read? setting with
    | some value => .ok value
    | none => .error (.invalidValue spec.name setting.display spec.type.expectation)

/-- The resolved options of one rule by name. -/
abbrev Options := NameMap OptionValue

namespace Options

/-- Resolve options one after the other on top of those resolved already. -/
def resolveOnto (settings : Settings) (options : Options) :
    List OptionSpec → Except ConfigError Options
  | [] => .ok options
  | spec :: specs =>
    match spec.value settings with
    | .error error => .error error
    | .ok value => resolveOnto settings (options.insert spec.name value) specs

/-- The declared options under the settings, or the first setting that does not fit. -/
def resolve (specs : List OptionSpec) (settings : Settings) : Except ConfigError Options :=
  resolveOnto settings NameMap.empty specs

/-- The text of an option, if it is a text option. -/
def text? (options : Options) (name : String) : Option String :=
  match options.get? name with
  | some (.text value) => some value
  | _ => none

/-- The value of an option, if it is a flag. -/
def flag? (options : Options) (name : String) : Option Bool :=
  match options.get? name with
  | some (.flag value) => some value
  | _ => none

/-- The members of an option, if it is a set. -/
def set? (options : Options) (name : String) : Option NameSet :=
  match options.get? name with
  | some (.set value) => some value
  | _ => none

/-- The chosen value of an option, if it has choices. -/
def choice? (options : Options) (name : String) : Option String :=
  match options.get? name with
  | some (.choice value) => some value
  | _ => none

/-- The complaint about an option that is missing or of another type. -/
def complaint (options : Options) (name expected : String) : ConfigError :=
  match options.get? name with
  | none => .missingOption name
  | some value => .invalidValue name value.describe expected

/-- The text of a declared text option. -/
def requireText (options : Options) (name : String) : Except ConfigError String :=
  match options.text? name with
  | some value => .ok value
  | none => .error (options.complaint name "a string option")

/-- The value of a declared flag. -/
def requireFlag (options : Options) (name : String) : Except ConfigError Bool :=
  match options.flag? name with
  | some value => .ok value
  | none => .error (options.complaint name "a boolean option")

/-- The members of a declared set option. -/
def requireSet (options : Options) (name : String) : Except ConfigError NameSet :=
  match options.set? name with
  | some value => .ok value
  | none => .error (options.complaint name "a set option")

/-- The value of a declared option with choices. -/
def requireChoice (options : Options) (name : String) : Except ConfigError String :=
  match options.choice? name with
  | some value => .ok value
  | none => .error (options.complaint name "an enumerated option")

end Options

end UiLint
