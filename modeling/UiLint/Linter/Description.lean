import UiLint.Linter.Basic

/-! Linters in words, for logs. -/
namespace UiLint

open UiLint.Text

/-- A record in words: its name and its fields in order. -/
def describeRecord (name : String) (fields : List (String × String)) : String :=
  name ++ " \x7b " ++ String.intercalate ", " (fields.map fun field => field.1 ++ ": " ++ field.2) ++
    " \x7d"

/-- An optional value in words. -/
def describeOption {α : Type} (describe : α → String) : Option α → String
  | none => "None"
  | some value => "Some(" ++ describe value ++ ")"

/-- A map in words, in the order of its names. -/
def describeMap {α : Type} (describe : α → String) (map : NameMap α) : String :=
  bracketed "\x7b" "\x7d" (map.entries.map fun entry => quoted entry.1 ++ ": " ++ describe entry.2)

/-- A flag in words. -/
def describeFlag (value : Bool) : String :=
  if value then "true" else "false"

/-- A setting in words. -/
def Setting.describe : Setting → String
  | flag value => "Bool(" ++ describeFlag value ++ ")"
  | integer value => "Integer(" ++ Int.repr value ++ ")"
  | text value => "String(" ++ quoted value ++ ")"
  | list values => "List(" ++ bracketed "[" "]" (values.map quoted) ++ ")"

/-- A severity in words. -/
def Severity.describe : Severity → String
  | info => "Info"
  | warning => "Warning"
  | error => "Error"

/-- What is said about one rule, in words. -/
def RuleConfig.describe (config : RuleConfig) : String :=
  describeRecord "RuleConfig"
    [("enabled", describeOption describeFlag config.enabled),
      ("severity", describeOption Severity.describe config.severity)]

/-- A configuration in words. -/
def Config.describe (config : Config) : String :=
  describeRecord "Config"
    [("settings", "ProjectSettings(" ++ describeMap Setting.describe config.settings ++ ")"),
      ("rules", describeMap RuleConfig.describe config.rules),
      ("linter", describeRecord "LinterConfig"
        [("parallelism", describeOption Nat.repr config.parallelism)])]

/-- A linter in words. -/
def Linter.describe (linter : Linter) : String :=
  describeRecord "Linter"
    [("rules", bracketed "[" "]" (linter.rules.map fun rule => quoted rule.name)),
      ("config", linter.config.describe),
      ("threads", describeOption Nat.repr linter.workers)]

end UiLint
