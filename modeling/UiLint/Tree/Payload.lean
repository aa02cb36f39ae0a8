import UiLint.Tree.Kind
import UiLint.Text.SimpleName

/-! What a node carries besides its children. -/
namespace UiLint

open UiLint.Text

/-- A mark on a declaration such as `@Composable` or `@Suppress("rule")`. The arguments
are its string literals, without their quotes. -/
structure AnnotationEntry where
  name : String
  arguments : List String := []
  deriving DecidableEq, Repr, Inhabited

/-- The name of a mark without its qualifier. -/
def AnnotationEntry.simpleName (entry : AnnotationEntry) : String :=
  Text.simpleName entry.name

/-- An argument of a call, with its name if it is a named one. -/
structure Argument where
  name : Option String := none
  text : String
  deriving DecidableEq, Repr, Inhabited

/-- What a file says about itself. -/
structure FileHeader where
  annotations : List AnnotationEntry := []
  deriving DecidableEq, Repr, Inhabited

/-- What the declaration of a class, an interface or an object says. -/
structure TypeHeader where
  name : String := ""
  isInterface : Bool := false
  modifiers : List String := []
  annotations : List AnnotationEntry := []
  deriving DecidableEq, Repr, Inhabited

/-- What the declaration of a function says before its parameters and body. -/
structure FunctionHeader where
  name : String := ""
  annotations : List AnnotationEntry := []
  modifiers : List String := []
  returnType : Option String := none
  deriving DecidableEq, Repr, Inhabited

/-- A parameter's name and its type as written. -/
structure ParameterHeader where
  name : String := ""
  typeName : String := ""
  deriving DecidableEq, Repr, Inhabited

/-- A call's callee as written, the arguments between its parentheses, and whether a
lambda trails it. -/
structure CallHeader where
  callee : String := ""
  arguments : List Argument := []
  trailingLambda : Bool := false
  deriving DecidableEq, Repr, Inhabited

/-- The data of a node. -/
inductive Payload where
  | plain
  | token (text : String)
  | file (header : FileHeader)
  | type (header : TypeHeader)
  | function (header : FunctionHeader)
  | parameter (header : ParameterHeader)
  | call (header : CallHeader)
  deriving DecidableEq, Repr, Inhabited

namespace Payload

/-- Whether a node of the kind may carry the payload. A plain payload belongs to the
kinds that have no data of their own. -/
def fits : Payload → Kind → Bool
  | plain, kind =>
    kind == .parameterList || kind == .defaultValue || kind == .body || kind == .other
  | token _, kind => kind == .token
  | file _, kind => kind == .file
  | type _, kind => kind == .typeDeclaration
  | function _, kind => kind == .functionDeclaration
  | parameter _, kind => kind == .parameter
  | call _, kind => kind == .call

/-- The text of a token payload. -/
def tokenText? : Payload → Option String
  | token text => some text
  | _ => none

def fileHeader? : Payload → Option FileHeader
  | file header => some header
  | _ => none

def typeHeader? : Payload → Option TypeHeader
  | type header => some header
  | _ => none

def functionHeader? : Payload → Option FunctionHeader
  | function header => some header
  | _ => none

def parameterHeader? : Payload → Option ParameterHeader
  | parameter header => some header
  | _ => none

def callHeader? : Payload → Option CallHeader
  | call header => some header
  | _ => none

/-- The marks on a file, a type or a function; other payloads carry none. -/
def annotations : Payload → List AnnotationEntry
  | file header => header.annotations
  | type header => header.annotations
  | function header => header.annotations
  | _ => []

/-- The only payload that fits a token is one with text. -/
theorem fits_token_iff {payload : Payload} :
    payload.fits .token = true ↔ ∃ text, payload = .token text := by
  cases payload <;> simp [fits]

end Payload

end UiLint
