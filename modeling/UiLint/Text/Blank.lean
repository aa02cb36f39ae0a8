/-! Blank characters and trimming. A text is trimmed on its list of characters,
so that facts about lists carry over. -/
namespace UiLint.Text

/-- The characters with the Unicode property `White_Space`. A zero-width space,
a word joiner and a byte order mark are not among them. -/
def isBlank (c : Char) : Bool :=
  let n := c.toNat
  (0x09 ≤ n && n ≤ 0x0D) || n == 0x20 || n == 0x85 || n == 0xA0 || n == 0x1680 ||
    (0x2000 ≤ n && n ≤ 0x200A) || n == 0x2028 || n == 0x2029 || n == 0x202F || n == 0x205F ||
    n == 0x3000

/-- The list without the items at its end that satisfy `p`. -/
def dropEndWhile {α : Type} (p : α → Bool) (items : List α) : List α :=
  (items.reverse.dropWhile p).reverse

/-- The text without the blanks at its start. -/
def trimStart (text : String) : String :=
  String.ofList (text.toList.dropWhile isBlank)

/-- The characters without the blanks on either side. -/
def trimmed (cs : List Char) : List Char :=
  dropEndWhile isBlank (cs.dropWhile isBlank)

/-- The text without the blanks on either side. -/
def trim (text : String) : String :=
  String.ofList (trimmed text.toList)

theorem toList_trim (text : String) : (trim text).toList = trimmed text.toList := by
  simp [trim]

end UiLint.Text
