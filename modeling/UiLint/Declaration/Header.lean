import UiLint.Declaration.Visibility
import UiLint.Text.NameSet
import UiLint.Text.Occurrence
import UiLint.Tree.Payload

/-! What can be read off the headers of declarations and calls alone. -/
namespace UiLint

open UiLint.Text

/-- The mark of a function that emits user interface. -/
def composableName : String := "Composable"

/-- The type of a styling handle, whose empty value has the same name. -/
def stylingHandleName : String := "Modifier"

/-- The first mark whose simple name is that of `name`. -/
def findMark? (entries : List AnnotationEntry) (name : String) : Option AnnotationEntry :=
  entries.find? fun entry => entry.simpleName == simpleName name

/-- The type's visibility. -/
def TypeHeader.visibility (header : TypeHeader) : Visibility :=
  .ofModifiers header.modifiers

namespace FunctionHeader

/-- Whether the function carries a mark with the simple name of `name`. -/
def isMarked (header : FunctionHeader) (name : String) : Bool :=
  (findMark? header.annotations name).isSome

/-- Whether this is a UI function. -/
def isComposable (header : FunctionHeader) : Bool :=
  header.isMarked composableName

/-- Whether the keyword is among the function's modifiers. -/
def hasKeyword (header : FunctionHeader) (keyword : String) : Bool :=
  header.modifiers.contains keyword

/-- The function's visibility. -/
def visibility (header : FunctionHeader) : Visibility :=
  .ofModifiers header.modifiers

/-- Whether the function replaces a member of a supertype. -/
def isOverride (header : FunctionHeader) : Bool :=
  header.hasKeyword "override"

/-- Whether the function has no body of its own. -/
def isAbstract (header : FunctionHeader) : Bool :=
  header.hasKeyword "abstract"

/-- Whether the function is the platform side of a shared declaration. -/
def isActual (header : FunctionHeader) : Bool :=
  header.hasKeyword "actual"

/-- Whether the function returns `Unit`, which is also meant when no type is written. -/
def returnsUnit (header : FunctionHeader) : Bool :=
  match header.returnType with
  | none => true
  | some typeName => simpleName typeName == "Unit"

end FunctionHeader

/-- The list without `item` at its end. -/
def dropEnd {α : Type} [BEq α] (item : α) (items : List α) : List α :=
  if items.getLast? == some item then items.dropLast else items

namespace ParameterHeader

/-- The declared type without padding, a question mark at its end, type arguments and
qualifier. -/
def simpleTypeName (header : ParameterHeader) : String :=
  simpleName (String.ofList ((dropEnd '?' (trimmed header.typeName.toList)).takeWhile (· != '<')))

/-- Whether the declared type is the styling handle or has the simple name of an alias. -/
def isStylingHandle (header : ParameterHeader) (aliases : NameSet) : Bool :=
  header.simpleTypeName == stylingHandleName ||
    aliases.names.any fun name => simpleName name == header.simpleTypeName

/-- Whether an arrow occurs in the declared type. -/
def isFunctionType (header : ParameterHeader) : Bool :=
  occursIn ['-', '>'] header.typeName.toList

end ParameterHeader

/-- The callee without receiver and qualifier. -/
def CallHeader.simpleCallee (header : CallHeader) : String :=
  simpleName header.callee

end UiLint
