import UiLint.Toml.Scan

/-! Dates and times. They are read from the front of some characters, and each has one
text: `T` stands between a date and a time, a fraction of a second has no zeros at its end,
and an offset of no minutes is written with a plus sign. -/
namespace UiLint.Toml

/-- A day of the calendar. -/
structure Date where
  year : Nat
  month : Nat
  day : Nat

/-- A time of day. -/
structure DayTime where
  hour : Nat
  minute : Nat
  second : Nat
  nanosecond : Nat

/-- An offset from universal time. -/
inductive Offset where
  | universal
  | minutes (east : Int)

/-- A date, a time of day, or both. Only a time on a date can have an offset. -/
inductive Moment where
  | date (day : Date)
  | time (hours : DayTime)
  | dateTime (day : Date) (hours : DayTime) (offset : Option Offset)

/-- The number that `count` digits at the front spell, if it lies between the bounds. -/
def boundedNumber? (count low high : Nat) (cs : List Char) : Option (Nat × List Char) :=
  let digits := cs.take count
  if digits.length = count then
    (numeral? 10 digits).bind fun n =>
      if low ≤ n && n ≤ high then some (n, cs.drop count) else none
  else none

/-- The number of days of a month. -/
def daysInMonth (year month : Nat) : Nat :=
  let isLeap := year % 4 == 0 && (year % 100 != 0 || year % 400 == 0)
  if month = 2 then if isLeap then 29 else 28
  else if month = 4 || month = 6 || month = 9 || month = 11 then 30
  else 31

/-- A date. -/
def date? : Reader Date := fun cs =>
  match boundedNumber? 4 0 9999 cs with
  | some (year, '-' :: rest) =>
    match boundedNumber? 2 1 12 rest with
    | some (month, '-' :: rest) =>
      (boundedNumber? 2 1 (daysInMonth year month) rest).map fun read =>
        (⟨year, month, read.1⟩, read.2)
    | _ => none
  | _ => none

/-- The nanoseconds that the digits of a fraction of a second spell. Further digits are
dropped. -/
def nanoseconds (digits : List Char) : Nat :=
  (numeral? 10 ((digits ++ List.replicate 9 '0').take 9)).getD 0

/-- The nanoseconds of a fraction at the front, or none of them. -/
def fraction : List Char → Nat × List Char
  | '.' :: rest =>
    if (rest.takeWhile Char.isDigit).isEmpty then (0, '.' :: rest)
    else (nanoseconds (rest.takeWhile Char.isDigit), rest.dropWhile Char.isDigit)
  | cs => (0, cs)

/-- A time of day. A minute may have a leap second. -/
def dayTime? : Reader DayTime := fun cs =>
  match boundedNumber? 2 0 23 cs with
  | some (hour, ':' :: rest) =>
    match boundedNumber? 2 0 59 rest with
    | some (minute, ':' :: rest) =>
      (boundedNumber? 2 0 60 rest).map fun read =>
        let (nanosecond, rest) := fraction read.2
        (⟨hour, minute, read.1, nanosecond⟩, rest)
    | _ => none
  | _ => none

/-- The minutes of an offset after its sign. -/
def offsetMinutes? : Reader Nat := fun cs =>
  match boundedNumber? 2 0 23 cs with
  | some (hours, ':' :: rest) =>
    (boundedNumber? 2 0 59 rest).map fun read => (60 * hours + read.1, read.2)
  | _ => none

/-- An offset. -/
def offset? : Reader Offset
  | 'Z' :: rest => some (.universal, rest)
  | 'z' :: rest => some (.universal, rest)
  | '+' :: rest => (offsetMinutes? rest).map fun read => (.minutes read.1, read.2)
  | '-' :: rest => (offsetMinutes? rest).map fun read => (.minutes (-(read.1 : Int)), read.2)
  | _ => none

/-- The time of day after a date, from which a `T` or one blank divides it. -/
def timeAfterDate? : Reader DayTime
  | c :: rest => if c == 'T' || c == 't' || c == ' ' then dayTime? rest else none
  | [] => none

/-- A date, a time of day, or both. -/
def moment? : Reader Moment := fun cs =>
  match date? cs with
  | none => (dayTime? cs).map fun read => (.time read.1, read.2)
  | some (date, rest) =>
    match timeAfterDate? rest with
    | none => some (.date date, rest)
    | some (time, rest) =>
      match offset? rest with
      | none => some (.dateTime date time none, rest)
      | some (offset, rest) => some (.dateTime date time (some offset), rest)

/-- A number with zeros before it up to a width. -/
def padded (width n : Nat) : String :=
  let digits := Nat.repr n
  String.ofList (List.replicate (width - digits.length) '0') ++ digits

/-- The text of a date, such as `2000-02-29`. -/
def Date.text (date : Date) : String :=
  padded 4 date.year ++ "-" ++ padded 2 date.month ++ "-" ++ padded 2 date.day

/-- The text of a fraction of a second, which is empty if there is none. -/
def fractionText (nanosecond : Nat) : String :=
  if nanosecond = 0 then ""
  else
    let digits := (padded 9 nanosecond).toList.reverse.dropWhile (· == '0')
    "." ++ String.ofList digits.reverse

/-- The text of a time of day, such as `07:32:00.5`. -/
def DayTime.text (time : DayTime) : String :=
  padded 2 time.hour ++ ":" ++ padded 2 time.minute ++ ":" ++ padded 2 time.second ++
    fractionText time.nanosecond

/-- The text of an offset, such as `Z` or `-07:00`. -/
def Offset.text : Offset → String
  | universal => "Z"
  | minutes east =>
    (if east < 0 then "-" else "+") ++ padded 2 (east.natAbs / 60) ++ ":" ++
      padded 2 (east.natAbs % 60)

/-- The text of a moment. -/
def Moment.text : Moment → String
  | date day => day.text
  | time hours => hours.text
  | dateTime day hours none => day.text ++ "T" ++ hours.text
  | dateTime day hours (some offset) => day.text ++ "T" ++ hours.text ++ offset.text

end UiLint.Toml
