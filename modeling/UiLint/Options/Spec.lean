import UiLint.Text.NameSet
import UiLint.Text.Quoted

/-! Options that rules declare, and the typed values that they read. -/
namespace UiLint

/-- The type of an option with its default value. -/
inductive OptionType where
  | text (default : String)
  | flag (default : Bool)
  | set (default : List String)
  | choice (choices : List String) (default : String)
  deriving DecidableEq, Repr

/-- An option that a rule declares. -/
structure OptionSpec where
  name : String
  type : OptionType
  description : String := ""
  deriving DecidableEq, Repr

/-- A typed option value. -/
inductive OptionValue where
  | text (value : String)
  | flag (value : Bool)
  | set (value : NameSet)
  | choice (value : String)

/-- The value as messages about its type show it. -/
def OptionValue.describe : OptionValue → String
  | text value => "String(" ++ Text.quoted value ++ ")"
  | flag value => "Bool(" ++ (if value then "true" else "false") ++ ")"
  | set value => "Set(" ++ Text.bracketed "\x7b" "\x7d" (value.names.map Text.quoted) ++ ")"
  | choice value => "Enum(" ++ Text.quoted value ++ ")"

/-- The value an option has when no setting names it. -/
def OptionSpec.defaultValue (spec : OptionSpec) : OptionValue :=
  match spec.type with
  | .text default => .text default
  | .flag default => .flag default
  | .set default => .set (NameSet.ofList default)
  | .choice _ default => .choice default

end UiLint
