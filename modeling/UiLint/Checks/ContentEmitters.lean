import UiLint.Checks.SharedOptions
import UiLint.Declaration.Members

/-! Which calls and functions emit content. A function does so when one of the statements
of its body calls a layout or a leaf; calls inside lambdas do not count. -/
namespace UiLint

open UiLint.Text

/-- Callees that emit content. -/
def knownEmitters : List String :=
  ["AndroidView", "BasicText", "BasicTextField", "Box", "BoxWithConstraints", "Button", "Canvas",
    "Card", "Checkbox", "CircularProgressIndicator", "Column", "ConstraintLayout", "Divider",
    "FloatingActionButton", "FlowColumn", "FlowRow", "HorizontalPager", "Icon", "IconButton",
    "Image", "LazyColumn", "LazyRow", "LazyVerticalGrid", "LinearProgressIndicator",
    "OutlinedButton", "OutlinedTextField", "RadioButton", "Row", "Scaffold", "Slider", "Spacer",
    "Surface", "Switch", "Tab", "TabRow", "Text", "TextButton", "TextField", "TopAppBar",
    "VerticalPager"]

/-- Capitalised callees that emit nothing, or nothing into the layout of their caller. -/
def knownNonEmitters : List String :=
  ["AlertDialog", "BackHandler", "BasicAlertDialog", "DatePickerDialog", "Dialog",
    "DisposableEffect", "DropdownMenu", "LaunchedEffect", "ModalBottomSheet", "Popup",
    "SideEffect"]

/-- What is known about emitters of content: the project's own, besides the known ones. -/
structure ContentEmitters where
  extra : NameSet := NameSet.empty

/-- Whether an argument hands a styling handle on, by its name or by how it starts. -/
def Argument.isStyling (argument : Argument) : Bool :=
  argument.name == some "modifier" ||
    stylingHandleName.toList.isPrefixOf (argument.text.toList.dropWhile isBlank)

namespace ContentEmitters

/-- The emitters among resolved options. -/
def ofOptions (options : Options) : Except ConfigError ContentEmitters :=
  (options.requireSet contentEmittersSpec.name).map (⟨·⟩)

/-- Whether a call emits content. The project's emitters win over those known not to emit;
an unknown callee emits when it is styled, or capitalised with a trailing lambda. -/
def emits (emitters : ContentEmitters) (call : CallHeader) : Bool :=
  let callee := call.simpleCallee
  if knownEmitters.contains callee || emitters.extra.names.any (simpleName · == callee) then true
  else if knownNonEmitters.contains callee then false
  else
    call.arguments.any Argument.isStyling ||
      (callee.toList.head?.any Char.isUpper && call.trailingLambda)

/-- Whether a function emits content. -/
def isEmitting (emitters : ContentEmitters) (function : Node) : Bool :=
  function.statementCalls.any fun call => emitters.emits call.header

end ContentEmitters

/-- Whether a mark is that of a preview: its simple name starts or ends with the simple
name of a marker, if that is not empty. -/
def AnnotationEntry.isPreview (entry : AnnotationEntry) (markers : NameSet) : Bool :=
  markers.names.any fun marker =>
    let marker := (Text.simpleName marker).toList
    let name := entry.simpleName.toList
    !marker.isEmpty && (marker.isPrefixOf name || marker.isSuffixOf name)

/-- Whether a function is marked as a preview. -/
def FunctionHeader.isPreview (header : FunctionHeader) (markers : NameSet) : Bool :=
  header.annotations.any (·.isPreview markers)

end UiLint
