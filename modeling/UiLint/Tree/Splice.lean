import UiLint.Tree.Order

/-! Changing one place of a tree that has been laid out. Only the changed node is laid out
again; whatever follows it is moved by the difference in length. -/
namespace UiLint

/-- Every offset at or after `start` moved by `distance`. -/
structure Shift where
  start : Nat
  distance : Int
  deriving DecidableEq, Repr

/-- The distance from one end of a node to its new end. -/
def endDistance (old new : Nat) : Except LayoutError Int :=
  if old < distanceBound ∧ new < distanceBound then .ok ((new : Int) - (old : Int))
  else .error (.offsetOverflow old)

namespace Node

mutual

/-- The node with all its spans moved. -/
def shift (distance : Int) : Node → Except LayoutError Node
  | ⟨kind, span, payload, children⟩ =>
    match span.shifted? distance with
    | none => .error (.offsetOverflow span.start)
    | some moved =>
      match shiftAll distance children with
      | .error error => .error error
      | .ok shifted => .ok ⟨kind, moved, payload, shifted⟩

/-- The nodes with all their spans moved. -/
def shiftAll (distance : Int) : List Node → Except LayoutError (List Node)
  | [] => .ok []
  | node :: nodes =>
    match shift distance node with
    | .error error => .error error
    | .ok first =>
      match shiftAll distance nodes with
      | .error error => .error error
      | .ok rest => .ok (first :: rest)

end

/-- The tree after the node at `path` has grown by `distance`: the nodes on the way there
end later and the siblings that follow the way are moved. The node at the end of the path
is left as it is. -/
def shiftAfter (node : Node) (distance : Int) : Path → Except LayoutError Node
  | [] => .ok node
  | index :: path =>
    match moveOffset? node.span.stop distance with
    | none => .error (.offsetOverflow node.span.stop)
    | some stop =>
      match shiftAll distance (node.children.drop (index + 1)) with
      | .error error => .error error
      | .ok following =>
        match node.children[index]? with
        | none => .error (.missingNode (index :: path))
        | some child =>
          match shiftAfter child distance path with
          | .error error => .error error
          | .ok changed =>
            .ok { node with
              span := ⟨node.span.start, stop⟩
              children := node.children.take index ++ changed :: following }

end Node

namespace SourceTree

/-- The tree with another node at `path`. The replacement has to be laid out from where
the old node starts; what follows is moved, and the order is checked around the path. -/
def replaceSubtree (tree : SourceTree) (path : Path) (replacement : Node) :
    Except LayoutError SourceTree :=
  match tree.root.descendant? path with
  | none => .error (.missingNode path)
  | some old =>
    if replacement.span.start = old.span.start then
      match endDistance old.span.stop replacement.span.stop with
      | .error error => .error error
      | .ok distance =>
        match (tree.root.replaceAt path replacement).shiftAfter distance path with
        | .error error => .error error
        | .ok root =>
          match root.faultAlong? path path with
          | some error => .error error
          | none => .ok ⟨root⟩
    else
      .error (.nonMonotonic old.span.start
        s!"replacement starts at {replacement.span.start} instead of {old.span.start}")

end SourceTree

end UiLint
