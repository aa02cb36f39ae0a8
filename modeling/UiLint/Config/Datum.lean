import UiLint.Config.Basic

/-! Configurations as data of a language such as TOML or JSON. -/
namespace UiLint

/-- A value of a data language. Fractions, which no part of a configuration can take, are all
`foreign`. -/
inductive Datum where
  | null
  | flag (value : Bool)
  | integer (value : Int)
  | text (value : String)
  | foreign
  | list (items : List Datum)
  | table (entries : List (String × Datum))
  deriving Inhabited

/-- In what a data language differs from others when a configuration is read from it. -/
structure Dialect where
  /-- Whether a list that stands for a record may have more items than the record fields. -/
  allowsSurplus : Bool
  /-- What may stand next to a name that is written as the only key of a table. -/
  isUnit : Datum → Bool

namespace Dialect

/-- JSON refuses surplus items, and a name in a table stands next to `null`. -/
def json : Dialect where
  allowsSurplus := false
  isUnit
    | .null => true
    | _ => false

/-- TOML overlooks surplus items, and a name in a table stands next to an empty list or
table. -/
def toml : Dialect where
  allowsSurplus := true
  isUnit
    | .list [] => true
    | .table [] => true
    | _ => false

end Dialect

namespace Datum

/-- The fields of a record by position. A record is a table with the field names as keys,
or a list of the fields in order; a field may be missing, and other keys are ignored. -/
def fields? (dialect : Dialect) (names : List String) : Datum → Option (List (Option Datum))
  | table entries => some (names.map fun name => entries.lookup name)
  | list items =>
    if items.length ≤ names.length || dialect.allowsSurplus then
      some ((List.range names.length).map (items[·]?))
    else none
  | _ => none

/-- The entries of a table. -/
def entries? : Datum → Option (List (String × Datum))
  | table entries => some entries
  | _ => none

/-- The entries of a table with their values read, if all can be. -/
def entriesWith? {α : Type} (read? : Datum → Option α) (datum : Datum) :
    Option (List (String × α)) :=
  datum.entries?.bind fun entries =>
    entries.mapM fun entry => (read? entry.2).map fun value => (entry.1, value)

/-- A field that may be missing or null, or else has to be readable. -/
def optional? {α : Type} (read? : Datum → Option α) : Option Datum → Option (Option α)
  | none => some none
  | some null => some none
  | some datum => (read? datum).map some

/-- A field that may be missing, or else has to be readable. -/
def orDefault? {α : Type} (default : α) (read? : Datum → Option α) : Option Datum → Option α
  | none => some default
  | some datum => read? datum

def flag? : Datum → Option Bool
  | flag value => some value
  | _ => none

def text? : Datum → Option String
  | text value => some value
  | _ => none

/-- A number of workers is a word of 64 bits. -/
def count? : Datum → Option Nat
  | integer value => if 0 ≤ value ∧ value < 18446744073709551616 then some value.toNat else none
  | _ => none

/-- A setting is a flag, an integer in range, a text or a list of texts. -/
def setting? : Datum → Option Setting
  | flag value => some (.flag value)
  | integer value => if Setting.inRange value then some (.integer value) else none
  | text value => some (.text value)
  | list items => (items.mapM text?).map .list
  | _ => none

/-- A severity is its name, or a table whose only key is its name. -/
def severity? (dialect : Dialect) : Datum → Option Severity
  | text name => Severity.ofName? name
  | table [(name, value)] => if dialect.isUnit value then Severity.ofName? name else none
  | _ => none

/-- What is said about one rule. -/
def ruleConfig? (dialect : Dialect) (datum : Datum) : Option RuleConfig :=
  match datum.fields? dialect ["enabled", "severity"] with
  | some [enabled, severity] =>
    match optional? flag? enabled, optional? (severity? dialect) severity with
    | some enabled, some severity => some ⟨enabled, severity⟩
    | _, _ => none
  | _ => none

/-- The number of workers in the section about the linter itself. -/
def parallelism? (dialect : Dialect) (datum : Datum) : Option (Option Nat) :=
  match datum.fields? dialect ["parallelism"] with
  | some [parallelism] => optional? count? parallelism
  | _ => none

/-- A whole configuration. Every part of it may be missing. -/
def config? (dialect : Dialect) (datum : Datum) : Option Config :=
  match datum.fields? dialect ["settings", "rules", "linter"] with
  | some [settings, rules, linter] =>
    match orDefault? [] (entriesWith? setting?) settings,
      orDefault? [] (entriesWith? (ruleConfig? dialect)) rules,
      orDefault? none (parallelism? dialect) linter with
    | some settings, some rules, some parallelism =>
      some ⟨NameMap.ofList settings, NameMap.ofList rules, parallelism⟩
    | _, _, _ => none
  | _ => none

end Datum

end UiLint
