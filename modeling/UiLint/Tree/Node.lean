import UiLint.Tree.Path
import UiLint.Tree.Payload
import UiLint.Tree.Span

/-! Source trees. Leaves hold the text of the source, so that the tokens in order spell
the file out; spans are byte offsets into that text. A node may carry any payload:
whether payloads fit kinds, and whether spans agree with the text, are predicates. -/
namespace UiLint

/-- A node of the tree with its children in source order. -/
structure Node where
  kind : Kind
  span : Span
  payload : Payload
  children : List Node
  deriving Inhabited

namespace Node

/-- A node without children that has not been given a span yet. -/
def bare (kind : Kind) (payload : Payload) : Node :=
  ⟨kind, ⟨0, 0⟩, payload, []⟩

/-- A leaf with the given text. -/
def leaf (text : String) : Node :=
  bare .token (.token text)

/-- The text of a token. -/
def tokenText? (node : Node) : Option String :=
  node.payload.tokenText?

mutual

/-- The source text that the node covers. A token payload is the whole text of its node. -/
def text : Node → String
  | ⟨_, _, payload, children⟩ =>
    match payload.tokenText? with
    | some text => text
    | none => textOfAll children

/-- The text of nodes that follow one another. -/
def textOfAll : List Node → String
  | [] => ""
  | node :: nodes => text node ++ textOfAll nodes

end

mutual

/-- The length of the longest way down, counted in nodes. -/
def height : Node → Nat
  | ⟨_, _, _, children⟩ => heightOfAll children + 1

/-- The height of the highest of the nodes. -/
def heightOfAll : List Node → Nat
  | [] => 0
  | node :: nodes => max (height node) (heightOfAll nodes)

end

/-- The node that the path leads to. -/
def descendant? (node : Node) : Path → Option Node
  | [] => some node
  | index :: path =>
    match node.children[index]? with
    | some child => child.descendant? path
    | none => none

/-- Going down one path and then another is going down both in a row. -/
theorem descendant?_append (node : Node) (first second : Path) :
    node.descendant? (first ++ second) = (node.descendant? first).bind (·.descendant? second) := by
  induction first generalizing node with
  | nil => rfl
  | cons index first ih =>
    simp only [List.cons_append, descendant?]
    cases node.children[index]? with
    | none => rfl
    | some child => exact ih child

/-- The tree with another node where the path leads. -/
def replaceAt (node : Node) (path : Path) (replacement : Node) : Node :=
  match path with
  | [] => replacement
  | index :: path =>
    { node with children := node.children.modify index (replaceAt · path replacement) }

mutual

/-- The node and all below it in pre-order, each with the path that leads to it when
`above` leads to the node itself. -/
def preorderFrom (above : Path) : Node → List (Path × Node)
  | ⟨kind, span, payload, children⟩ =>
    (above, ⟨kind, span, payload, children⟩) :: preorderOfAll above 0 children

/-- The pre-order of children from the given index on. -/
def preorderOfAll (above : Path) (index : Nat) : List Node → List (Path × Node)
  | [] => []
  | node :: nodes =>
    preorderFrom (above.child index) node ++ preorderOfAll above (index + 1) nodes

end

/-- The node and all below it in pre-order, with their paths. -/
def preorder (node : Node) : List (Path × Node) :=
  preorderFrom [] node

mutual

/-- The way down to the last token of the node: the node itself if it is a token, else
the last token of the last child that has one. -/
def lastTokenPath? : Node → Option Path
  | ⟨kind, _, _, children⟩ => if kind = .token then some [] else lastTokenPathOfAll? 0 children

/-- The way down to the last token of the children from the given index on. -/
def lastTokenPathOfAll? (index : Nat) : List Node → Option Path
  | [] => none
  | node :: nodes =>
    match lastTokenPathOfAll? (index + 1) nodes with
    | some path => some path
    | none => (lastTokenPath? node).map (index :: ·)

end

end Node

end UiLint
