/-! From where a declaration can be seen. -/
namespace UiLint

/-- The visibility of a function or type: public, internal, protected or private. -/
inductive Visibility where
  | everywhere
  | inModule
  | inSubtypes
  | inOwner
  deriving DecidableEq, Repr

namespace Visibility

/-- The keyword for a visibility. -/
def keyword : Visibility → String
  | everywhere => "public"
  | inModule => "internal"
  | inSubtypes => "protected"
  | inOwner => "private"

/-- Every visibility, widest first. -/
def all : List Visibility :=
  [everywhere, inModule, inSubtypes, inOwner]

/-- The visibility a keyword stands for. -/
def ofKeyword? (text : String) : Option Visibility :=
  all.find? (·.keyword == text)

/-- The first visibility keyword decides; without one a declaration is public. -/
def ofModifiers (modifiers : List String) : Visibility :=
  (modifiers.findSome? ofKeyword?).getD everywhere

theorem ofKeyword?_keyword (visibility : Visibility) :
    ofKeyword? visibility.keyword = some visibility := by
  cases visibility <;> decide

end Visibility

end UiLint
