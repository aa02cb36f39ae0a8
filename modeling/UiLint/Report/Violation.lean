import UiLint.Report.Severity
import UiLint.Text.Quoted

/-! Violations and the forms in which they are handed on. -/
namespace UiLint

/-- Where a violation is: a line and a column counted from one, and a byte offset. -/
structure Location where
  line : Nat
  column : Nat
  offset : Nat
  deriving DecidableEq, Repr, Inhabited

/-- One breach of a rule in a file. -/
structure Violation where
  code : String
  rule : String
  severity : Severity
  location : Location
  message : String
  fixable : Bool := false
  autoFixed : Bool := false
  deriving DecidableEq, Repr, Inhabited

namespace Violation

/-- The violation with its fix recorded. What cannot be fixed has not been fixed. -/
def withFix (violation : Violation) (fixable autoFixed : Bool) : Violation :=
  { violation with fixable, autoFixed := fixable && autoFixed }

/-- The violation on one line of text. -/
def display (violation : Violation) : String :=
  s!"{violation.location.line}:{violation.location.column}: " ++ violation.severity.name ++
    s!" [{violation.code}] {violation.message}"

/-- The heading of the violation in a diagnostic. -/
def heading (violation : Violation) : String :=
  s!"[{violation.code}] {violation.message}"

/-- The advice of a diagnostic, given for what can be fixed. -/
def advice? (violation : Violation) : Option String :=
  if violation.fixable then some "run with fixes enabled to correct this automatically" else none

/-- One character of a string in the record format. Only quotes, backslashes and control
characters are escaped. -/
def recordChar (c : Char) : String :=
  let n := c.toNat
  if c == '"' then "\\\""
  else if c == '\\' then "\\\\"
  else if n == 0x08 then "\\b"
  else if n == 0x0C then "\\f"
  else if c == '\n' then "\\n"
  else if c == '\r' then "\\r"
  else if c == '\t' then "\\t"
  else if n < 0x10 then "\\u000" ++ Text.hexDigits n
  else if n < 0x20 then "\\u00" ++ Text.hexDigits n
  else c.toString

/-- A string in the record format. -/
def recordString (text : String) : String :=
  "\"" ++ String.join (text.toList.map recordChar) ++ "\""

/-- The violation as a record on the wire, without blanks and with its fields in a fixed
order. -/
def wire (violation : Violation) : String :=
  "\x7b\"line\":" ++ Nat.repr violation.location.line ++
    ",\"column\":" ++ Nat.repr violation.location.column ++
    ",\"ruleId\":" ++ recordString violation.rule ++
    ",\"message\":" ++ recordString violation.message ++
    ",\"autoFixed\":" ++ (if violation.autoFixed then "true" else "false") ++ "\x7d"

/-- Violations as a list of records on the wire. -/
def wireAll (violations : List Violation) : String :=
  "[" ++ String.intercalate "," (violations.map wire) ++ "]"

end Violation

end UiLint
