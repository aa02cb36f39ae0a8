import UiLint.Declaration.Header
import UiLint.Tree.Site

/-! The parts of a declaration: members of types and files, parameters with their default
values, and the statements of a body. Paths lead from the declaration itself. -/
namespace UiLint

/-- A node below a declaration, with the path that leads to it and its header. -/
structure Placed (Header : Type) where
  path : Path
  node : Node
  header : Header

namespace Node

/-- The first child of a kind, with its index. -/
def firstOfKind? (node : Node) (kind : Kind) : Option (Node × Nat) :=
  node.children.zipIdx.find? (·.1.kind == kind)

/-- The children that are not tokens, with their indices. -/
def nonTokens (node : Node) : List (Node × Nat) :=
  node.children.zipIdx.filter (·.1.kind != .token)

/-- The children other than tokens that carry the header asked for. -/
def partsWith {Header : Type} (header? : Payload → Option Header) (node : Node) :
    List (Placed Header) :=
  node.nonTokens.filterMap fun entry =>
    (header? entry.1.payload).map fun header => ⟨[entry.2], entry.1, header⟩

/-- The functions declared directly in a file or type. -/
def functions (node : Node) : List (Placed FunctionHeader) :=
  node.partsWith Payload.functionHeader?

/-- The types declared directly in a file. -/
def types (node : Node) : List (Placed TypeHeader) :=
  node.partsWith Payload.typeHeader?

/-- Where a function's name stands: the first token with that text after the keyword
`fun`, or anywhere when the keyword is missing. Without such a token it is the start of
the declaration. -/
def nameOffset (node : Node) (name : String) : Nat :=
  let tokens := node.children.filter (·.kind == .token)
  let isKeyword := fun (token : Node) => token.tokenText? == some "fun"
  let candidates := if tokens.any isKeyword then (tokens.dropWhile (!isKeyword ·)).drop 1 else tokens
  match candidates.find? (·.tokenText? == some name) with
  | some token => token.span.start
  | none => node.span.start

/-- The parameter list of a function, with its index. -/
def parameterList? (node : Node) : Option (Node × Nat) :=
  node.firstOfKind? .parameterList

/-- The parameters of a function in declared order. -/
def parameters (node : Node) : List (Placed ParameterHeader) :=
  match node.parameterList? with
  | none => []
  | some (list, index) =>
    (list.partsWith Payload.parameterHeader?).map fun part => { part with path := index :: part.path }

/-- The statements of a function's block body. -/
def statements (node : Node) : List (Path × Node) :=
  match node.firstOfKind? .body with
  | none => []
  | some (body, index) => body.nonTokens.map fun entry => ([index, entry.2], entry.1)

/-- The calls among the statements of a function's body. -/
def statementCalls (node : Node) : List (Placed CallHeader) :=
  node.statements.filterMap fun entry =>
    entry.2.payload.callHeader?.map fun header => ⟨entry.1, entry.2, header⟩

/-- The `= expression` part of a parameter, with its index. -/
def defaultPart? (node : Node) : Option (Node × Nat) :=
  node.firstOfKind? .defaultValue

/-- Whether a parameter has a default value. -/
def hasDefault (node : Node) : Bool :=
  node.defaultPart?.isSome

/-- The expression of a parameter's default value, without the equals sign and padding. -/
def defaultText? (node : Node) : Option String :=
  node.defaultPart?.map fun part =>
    let text := part.1.text.toList
    match text.dropWhile Text.isBlank with
    | '=' :: expression => String.ofList (Text.trimmed expression)
    | _ => String.ofList (Text.trimmed text)

end Node

/-- Whether the nearest enclosing type or function is an interface. -/
def Site.isInInterface (site : Site) : Bool :=
  (site.ancestors.findSome? fun above =>
    match above.node.payload with
    | .type header => some header.isInterface
    | .function _ => some false
    | _ => none).getD false

end UiLint
