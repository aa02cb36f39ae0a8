import UiLint.Text.Quoted
import UiLint.Tree.Layout

/-! The order of spans: children follow one another inside their parent. The checks name
the first place where that fails. -/
namespace UiLint

/-- What can be wrong with the spans of a tree after a change. -/
inductive LayoutError where
  | offsetOverflow (after : Nat)
  | nonMonotonic (offset : Nat) (detail : String)
  | missingNode (path : Path)
  deriving DecidableEq, Repr

namespace LayoutError

/-- The error in words. -/
def message : LayoutError → String
  | offsetOverflow after => s!"offset overflow while shifting nodes after byte {after}"
  | nonMonotonic offset detail => s!"node offsets out of order at byte {offset}: {detail}"
  | missingNode path => "no node at path " ++ Text.numberList path

/-- The identifier of the error for tools. -/
def code : LayoutError → String
  | offsetOverflow _ => "compose_lint::traversal::overflow"
  | nonMonotonic _ _ => "compose_lint::traversal::non_monotonic"
  | missingNode _ => "compose_lint::traversal::missing_node"

end LayoutError

namespace Node

/-- A child is in order when it starts at or after `previous`, does not end before it
starts, and ends inside its parent. -/
def childInOrder (parent : Span) (previous : Nat) (child : Span) : Bool :=
  previous ≤ child.start && child.start ≤ child.stop && child.stop ≤ parent.stop

/-- The complaint about a child that is out of order. -/
def misplaced (parent child : Node) (previous : Nat) : LayoutError :=
  .nonMonotonic child.span.start
    (child.kind.name ++ " child " ++ s!"{child.span.start}..{child.span.stop}" ++ " inside " ++
      parent.kind.name ++ s!" {parent.span.start}..{parent.span.stop} after {previous}")

/-- The first of the children that is out of order, given where the one before ended. -/
def firstMisplaced? (parent : Node) (previous : Nat) : List Node → Option LayoutError
  | [] => none
  | child :: children =>
    if childInOrder parent.span previous child.span then
      firstMisplaced? parent child.span.stop children
    else some (misplaced parent child previous)

/-- What is wrong with the order of the node's own children. -/
def childFault? (node : Node) : Option LayoutError :=
  firstMisplaced? node node.span.start node.children

mutual

/-- The first fault at the node or below it, in pre-order. -/
def subtreeFault? : Node → Option LayoutError
  | ⟨kind, span, payload, children⟩ =>
    match childFault? ⟨kind, span, payload, children⟩ with
    | some error => some error
    | none => subtreeFaultOfAll? children

/-- The first fault in the nodes. -/
def subtreeFaultOfAll? : List Node → Option LayoutError
  | [] => none
  | node :: nodes =>
    match subtreeFault? node with
    | some error => some error
    | none => subtreeFaultOfAll? nodes

end

/-- The first fault along a path: among the children of each node on the way, then
anywhere below its end. `whole` is the path that a missing node is reported with. -/
def faultAlong? (whole : Path) (node : Node) : Path → Option LayoutError
  | [] => node.subtreeFault?
  | index :: path =>
    match node.childFault? with
    | some error => some error
    | none =>
      match node.children[index]? with
      | some child => faultAlong? whole child path
      | none => some (.missingNode whole)

end Node

/-- What is wrong with the spans of a source tree: it starts at zero and is in order. -/
def SourceTree.fault? (tree : SourceTree) : Option LayoutError :=
  if tree.root.span.start = 0 then tree.root.subtreeFault?
  else some (.nonMonotonic tree.root.span.start "file does not start at offset 0")

end UiLint
