/-! Cutting a text at a mark. -/
namespace UiLint.Text

/-- The runs of characters between the marks. There is one run more than there are
marks, so the empty text is one empty run. -/
def splitAtMark (mark : Char) : List Char → List (List Char)
  | [] => [[]]
  | c :: cs =>
    if c = mark then [] :: splitAtMark mark cs
    else
      match splitAtMark mark cs with
      | [] => [[c]]
      | run :: runs => (c :: run) :: runs

/-- The parts of a text between the marks. -/
def parts (mark : Char) (text : String) : List String :=
  (splitAtMark mark text.toList).map String.ofList

end UiLint.Text
