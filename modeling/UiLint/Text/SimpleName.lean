import UiLint.Text.Blank

/-! The last part of a qualified name. -/
namespace UiLint.Text

/-- The items after the last occurrence of `mark`, or all of them. -/
def afterLast {α : Type} [BEq α] (mark : α) (items : List α) : List α :=
  (items.reverse.takeWhile (· != mark)).reverse

/-- A name without its qualifier: the text is trimmed, and what follows its last
dot is kept as it stands. Blanks right after that dot are therefore kept. -/
def simpleName (name : String) : String :=
  String.ofList (afterLast '.' (trimmed name.toList))

theorem toList_simpleName (name : String) :
    (simpleName name).toList = afterLast '.' (trimmed name.toList) := by
  simp [simpleName]

end UiLint.Text
