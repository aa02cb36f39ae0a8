import UiLint.Tree.Node

/-! Laying a tree out: giving every node the span that its text takes up. -/
namespace UiLint.Node

/-- Where the last of some nodes that begin at `start` ends. -/
def endOfAll (start : Nat) (nodes : List Node) : Nat :=
  match nodes.getLast? with
  | some node => node.span.stop
  | none => start

mutual

/-- The node with spans as if its text began at `start`. What lies below a token payload
is not part of the text and keeps its spans. -/
def layout (start : Nat) : Node → Node
  | ⟨kind, _, payload, children⟩ =>
    match payload.tokenText? with
    | some text => ⟨kind, ⟨start, start + text.utf8ByteSize⟩, payload, children⟩
    | none =>
      let laid := layoutAll start children
      ⟨kind, ⟨start, endOfAll start laid⟩, payload, laid⟩

/-- Nodes laid out one after the other. -/
def layoutAll (start : Nat) : List Node → List Node
  | [] => []
  | node :: nodes =>
    let laid := layout start node
    laid :: layoutAll laid.span.stop nodes

end

end UiLint.Node

namespace UiLint

/-- A whole source file. -/
structure SourceTree where
  root : Node
  deriving Inhabited

namespace SourceTree

/-- The source text. -/
def text (tree : SourceTree) : String :=
  tree.root.text

/-- The length of the source in bytes, as the root's span has it. -/
def length (tree : SourceTree) : Nat :=
  tree.root.span.stop

/-- What the file says about itself, if its root carries that. -/
def fileHeader? (tree : SourceTree) : Option FileHeader :=
  tree.root.payload.fileHeader?

end SourceTree

end UiLint
