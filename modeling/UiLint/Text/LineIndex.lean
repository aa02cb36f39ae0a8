/-! Lines and columns of byte offsets. A line ends with its newline; a column counts
characters, so an offset after a multi-byte character has the column that an editor
shows. -/
namespace UiLint.Text

/-- The length of a run of characters in UTF-8 bytes. -/
def byteLength : List Char → Nat
  | [] => 0
  | c :: cs => c.utf8Size + byteLength cs

/-- What is left of the characters after exactly `n` bytes, when a character ends there. -/
def dropBytes? : List Char → Nat → Option (List Char)
  | cs, 0 => some cs
  | [], _ + 1 => none
  | c :: cs, n + 1 => if c.utf8Size ≤ n + 1 then dropBytes? cs (n + 1 - c.utf8Size) else none

/-- The number of characters in the first `n` bytes, when a character ends there. -/
def charsInBytes? : List Char → Nat → Option Nat
  | _, 0 => some 0
  | [], _ + 1 => none
  | c :: cs, n + 1 =>
    if c.utf8Size ≤ n + 1 then (charsInBytes? cs (n + 1 - c.utf8Size)).map (· + 1) else none

/-- The offsets right after each newline, for characters that begin at offset `start`. -/
def startsAfterNewlines (start : Nat) : List Char → List Nat
  | [] => []
  | c :: cs =>
    let next := start + c.utf8Size
    if c == '\n' then next :: startsAfterNewlines next cs else startsAfterNewlines next cs

/-- A text together with the offset at which each of its lines starts. -/
structure LineIndex where
  chars : List Char
  starts : List Nat

/-- A line and a column, both counted from one. -/
structure Position where
  line : Nat
  column : Nat
  deriving DecidableEq, Repr

namespace LineIndex

/-- The first line starts at zero, and each newline starts another. -/
def ofText (text : String) : LineIndex :=
  ⟨text.toList, 0 :: startsAfterNewlines 0 text.toList⟩

/-- The number of lines; a newline at the end is followed by an empty line. -/
def lineCount (index : LineIndex) : Nat :=
  index.starts.length

/-- The position of a byte offset. An offset past the end is taken for the end, and an
offset inside a character has its distance in bytes from the line start as column. -/
def position (index : LineIndex) (offset : Nat) : Position :=
  let offset := min offset (byteLength index.chars)
  let line := (index.starts.takeWhile (· ≤ offset)).length - 1
  let start := index.starts.getD line 0
  let column := ((dropBytes? index.chars start).bind (charsInBytes? · (offset - start))).getD
    (offset - start)
  ⟨line + 1, column + 1⟩

end LineIndex

end UiLint.Text
