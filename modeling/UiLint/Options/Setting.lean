import UiLint.Text.NameMap
import UiLint.Text.Quoted

/-! Project settings as they are written, before any rule gives them a type. -/
namespace UiLint

/-- The raw value of a setting. -/
inductive Setting where
  | flag (value : Bool)
  | integer (value : Int)
  | text (value : String)
  | list (values : List String)
  deriving DecidableEq, Repr

namespace Setting

/-- The value as messages show it. A text stands without quotes. -/
def display : Setting → String
  | flag value => if value then "true" else "false"
  | integer value => Int.repr value
  | text value => value
  | list values => Text.bracketed "[" "]" values

/-- Integer settings lie in the range of signed 64-bit words. -/
def inRange (n : Int) : Bool :=
  -9223372036854775808 ≤ n && n < 9223372036854775808

end Setting

/-- The settings of a project by name. -/
abbrev Settings := NameMap Setting

end UiLint
