import UiLint.Config.Datum
import UiLint.Toml.Moment

/-! Flags, numbers, dates and times. Flags and numbers are runs of the same characters, so a
run is cut off first and then has to be one of them as a whole. -/
namespace UiLint.Toml

/-- The characters of scalars other than strings. -/
def isScalarChar (c : Char) : Bool :=
  c.isAlphanum || c == '_' || c == '+' || c == '-' || c == '.' || c == ':'

/-- Digits, between which single underscores may stand. -/
def groupedDigits? (base : Nat) : List Char → Option (List Char)
  | [] => none
  | [c] => if (digit? base c).isSome then some [c] else none
  | c :: '_' :: rest =>
    if (digit? base c).isSome then (groupedDigits? base rest).map (c :: ·) else none
  | c :: rest => if (digit? base c).isSome then (groupedDigits? base rest).map (c :: ·) else none

/-- A sign, which may be missing, and what follows it. -/
def sign : List Char → Bool × List Char
  | '-' :: rest => (true, rest)
  | '+' :: rest => (false, rest)
  | cs => (false, cs)

/-- Decimal digits that do not start with a zero, unless that is all. -/
def decimalDigits? (cs : List Char) : Option (List Char) :=
  match cs with
  | '0' :: _ :: _ => none
  | _ => groupedDigits? 10 cs

/-- An integer, in decimal with a sign or in another base without. -/
def integer? (cs : List Char) : Option Int :=
  let value := match cs with
    | '0' :: 'x' :: rest => ((groupedDigits? 16 rest).bind (numeral? 16)).map Int.ofNat
    | '0' :: 'o' :: rest => ((groupedDigits? 8 rest).bind (numeral? 8)).map Int.ofNat
    | '0' :: 'b' :: rest => ((groupedDigits? 2 rest).bind (numeral? 2)).map Int.ofNat
    | _ =>
      let (negative, rest) := sign cs
      ((decimalDigits? rest).bind (numeral? 10)).map fun n => if negative then -(n : Int) else n
  value.bind fun value => if Setting.inRange value then some value else none

/-- Whether `digits` times a power of ten is rounded to infinity as a double. -/
def roundsToInfinity (digits : Nat) (exponent : Int) : Bool :=
  let least := Nat.pow 2 1024 - Nat.pow 2 970
  if digits == 0 then false
  else if 0 ≤ exponent then 400 < exponent || least ≤ digits * Nat.pow 10 exponent.toNat
  else least ≤ digits / Nat.pow 10 (min (-exponent).toNat (Nat.log2 digits + 1))

/-- The fraction and the exponent after the whole part of a fractional number. -/
def isFloat (cs : List Char) : Bool :=
  let (negative, rest) := sign cs
  if rest = "inf".toList || rest = "nan".toList then true
  else
    let isExponentMark := fun c => c == 'e' || c == 'E'
    let mantissa := rest.takeWhile (!isExponentMark ·)
    let exponentPart := rest.dropWhile (!isExponentMark ·)
    let whole := mantissa.takeWhile (· != '.')
    let fractionPart := mantissa.dropWhile (· != '.')
    let fraction := match fractionPart with
      | [] => some []
      | _ :: digits => groupedDigits? 10 digits
    let exponent := match exponentPart with
      | [] => some 0
      | _ :: signed =>
        let (negative, digits) := sign signed
        ((groupedDigits? 10 digits).bind (numeral? 10)).map fun n =>
          if negative then -(n : Int) else n
    match decimalDigits? whole, fraction, exponent with
    | some whole, some fraction, some exponent =>
      let digits := (numeral? 10 (whole ++ fraction)).getD 0
      (!fractionPart.isEmpty || !exponentPart.isEmpty) &&
        (negative || !roundsToInfinity digits (exponent - fraction.length))
    | _, _, _ => false

/-- The key under which the text of a date or time stands. -/
def momentKey : String := "$__toml_private_datetime"

/-- A date or time as data: a table whose only key has its text. -/
def Moment.toDatum (moment : Moment) : Datum :=
  .table [(momentKey, .text moment.text)]

/-- A scalar other than a string. -/
def scalar? (cs : List Char) : Option (Datum × List Char) :=
  let run := cs.takeWhile isScalarChar
  let rest := cs.dropWhile isScalarChar
  if run = "true".toList then some (.flag true, rest)
  else if run = "false".toList then some (.flag false, rest)
  else
    match integer? run with
    | some value => some (.integer value, rest)
    | none =>
      if isFloat run then some (.foreign, rest)
      else (moment? cs).map fun read => (read.1.toDatum, read.2)

end UiLint.Toml
