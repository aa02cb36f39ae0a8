import UiLint.Declaration.Header
import UiLint.Tree.Event

/-! Sketches of source files: declarations without layout. A sketch is rendered to the
source that a programmer would write for it, as a tree. -/
namespace UiLint.Sketch

/-- A parameter. -/
structure Parameter where
  name : String
  typeName : String
  default : Option String := none

/-- A call. The text inside a trailing lambda may be left out. -/
structure Call where
  header : CallHeader
  lambdaBody : Option String := none

mutual

/-- A function: what it declares, its parameters and the statements of its body. -/
inductive Function where
  | mk (header : FunctionHeader) (parameters : List Parameter) (statements : List Statement)

/-- A statement: a call, a local function, or any other text. -/
inductive Statement where
  | call (call : Call)
  | function (function : Function)
  | other (text : String)

end

instance : Inhabited Function := ⟨.mk {} [] []⟩

instance : Inhabited Statement := ⟨.other ""⟩

/-- A type with its member functions. -/
structure TypeSketch where
  header : TypeHeader
  functions : List Function := []

/-- A declaration of a file. -/
inductive Item where
  | function (function : Function)
  | type (type : TypeSketch)

/-- A file. -/
structure File where
  header : FileHeader := {}
  items : List Item := []

/-- The mark that suppresses a rule. -/
def suppress (rule : String) : AnnotationEntry :=
  ⟨"Suppress", [rule]⟩

/-- One step of indentation. -/
def indentStep : String := "    "

/-- A mark as it is written, with `target` after the at sign. -/
def writtenMark (target : String) (entry : AnnotationEntry) : String :=
  let name := "@" ++ target ++ entry.name
  if entry.arguments.isEmpty then name
  else name ++ Text.bracketed "(" ")" (entry.arguments.map fun argument => "\"" ++ argument ++ "\"")

/-- A node around events. -/
def inside (kind : Kind) (payload : Payload) (events : List Event) : List Event :=
  .start kind payload :: (events ++ [.finish])

/-- Tokens with the given texts. -/
def tokens (texts : List String) : List Event :=
  texts.map .token

/-- Marks, each followed by the given tokens. -/
def markEvents (target : String) (after : List String) (entries : List AnnotationEntry) :
    List Event :=
  entries.flatMap fun entry => tokens (writtenMark target entry :: after)

/-- Keywords, each followed by a blank. -/
def modifierEvents (modifiers : List String) : List Event :=
  modifiers.flatMap fun modifier => tokens [modifier, " "]

/-- The events of a parameter. -/
def Parameter.events (parameter : Parameter) : List Event :=
  inside .parameter (.parameter ⟨parameter.name, parameter.typeName⟩)
    (tokens [parameter.name, ":", " ", parameter.typeName] ++
      match parameter.default with
      | none => []
      | some expression => inside .defaultValue .plain (tokens [" ", "=", " ", expression]))

/-- The events of parameters with commas between them. -/
def parameterEvents : List Parameter → List Event
  | [] => []
  | [last] => last.events
  | first :: rest => first.events ++ .token ", " :: parameterEvents rest

/-- An argument as it is written. -/
def writtenArgument (argument : Argument) : String :=
  match argument.name with
  | some name => name ++ " = " ++ argument.text
  | none => argument.text

/-- The events of a call. The parentheses are left out if there is a lambda and no
argument. -/
def Call.events (call : Call) : List Event :=
  let header := call.header
  inside .call (.call header)
    (tokens [header.callee] ++
      (if header.arguments.isEmpty && header.trailingLambda then []
        else tokens [Text.bracketed "(" ")" (header.arguments.map writtenArgument)]) ++
      (if header.trailingLambda then
        tokens [" ", match call.lambdaBody with
          | some body => "\x7b " ++ body ++ " \x7d"
          | none => "\x7b\x7d"]
        else []))

mutual

/-- The events of a function whose first line stands at the indentation. -/
def Function.events (indent : String) : Function → List Event
  | .mk header parameters statements =>
    inside .functionDeclaration (.function header)
      (markEvents "" ["\n", indent] header.annotations ++
        modifierEvents header.modifiers ++
        tokens ["fun", " ", header.name] ++
        inside .parameterList .plain
          (.token "(" :: (parameterEvents parameters ++ [.token ")"])) ++
        (match header.returnType with
          | none => []
          | some typeName => tokens [":", " ", typeName]) ++
        .token " " ::
        inside .body .plain
          (tokens ["\x7b", "\n"] ++ statementEvents (indent ++ indentStep) statements ++
            tokens [indent ++ "\x7d"]))

/-- The events of a statement. -/
def Statement.events (indent : String) : Statement → List Event
  | .call call => call.events
  | .function function => function.events indent
  | .other text => inside .other .plain (tokens [text])

/-- The events of statements, each on lines of its own. -/
def statementEvents (indent : String) : List Statement → List Event
  | [] => []
  | statement :: statements =>
    .token indent :: (statement.events indent ++ .token "\n" :: statementEvents indent statements)

end

/-- The events of a type. -/
def TypeSketch.events (type : TypeSketch) : List Event :=
  inside .typeDeclaration (.type type.header)
    (markEvents "" ["\n"] type.header.annotations ++
      modifierEvents type.header.modifiers ++
      tokens [if type.header.isInterface then "interface" else "class", " ", type.header.name, " ",
        "\x7b", "\n"] ++
      (type.functions.flatMap fun function =>
        .token indentStep :: (function.events indentStep ++ [.token "\n"])) ++
      [.token "\x7d"])

/-- The events of a declaration. -/
def Item.events : Item → List Event
  | function declared => declared.events ""
  | type declared => declared.events

/-- The events of a file. Its marks are followed by an empty line. -/
def File.events (file : File) : List Event :=
  inside .file (.file file.header)
    (markEvents "file:" ["\n"] file.header.annotations ++
      (if file.header.annotations.isEmpty then [] else [.token "\n"]) ++
      file.items.flatMap fun item => item.events ++ [.token "\n"])

/-- The source tree of a file. -/
def File.build (file : File) : Except BuildError SourceTree :=
  SourceTree.ofEvents file.events

end UiLint.Sketch
