import UiLint.Text.Printable

/-! Text as it is quoted inside messages: between double quotes, with the characters
that would be invisible or ambiguous escaped. -/
namespace UiLint.Text

/-- The lower-case hexadecimal digits of a number, without leading zeros. -/
def hexDigits (n : Nat) : String :=
  String.ofList (Nat.toDigits 16 n)

/-- One character inside quoted text. A single quote stands for itself. -/
def quotedChar (c : Char) : String :=
  if c == '"' then "\\\""
  else if c == '\\' then "\\\\"
  else if c == '\n' then "\\n"
  else if c == '\r' then "\\r"
  else if c == '\t' then "\\t"
  else if c.toNat == 0 then "\\0"
  else if isPrintable c then c.toString
  else "\\u\x7b" ++ hexDigits c.toNat ++ "\x7d"

/-- The text between double quotes. -/
def quoted (text : String) : String :=
  "\"" ++ String.join (text.toList.map quotedChar) ++ "\""

/-- Items between an opening and a closing mark, divided by a comma and a blank. -/
def bracketed (opening closing : String) (items : List String) : String :=
  opening ++ String.intercalate ", " items ++ closing

/-- A list of numbers such as `[0, 1]`. -/
def numberList (ns : List Nat) : String :=
  bracketed "[" "]" (ns.map Nat.repr)

end UiLint.Text
