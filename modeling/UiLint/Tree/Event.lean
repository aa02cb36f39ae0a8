import UiLint.Text.Quoted
import UiLint.Tree.Layout

/-! Trees as sequences of events. A parser that walks its own tree starts nodes, adds
tokens and finishes nodes; the first event that cannot belong to a tree decides the
outcome, whatever follows. -/
namespace UiLint

/-- Why events do not make up a source tree. -/
inductive BuildError where
  | empty
  | rootNotFile (kind : Kind)
  | multipleRoots
  | tokenOutsideNode (text : String)
  | unbalancedFinish
  | unclosedNode (innermost : Kind) (count : Nat)
  | kindMismatch (kind : Kind)
  deriving DecidableEq, Repr

/-- The error in words. -/
def BuildError.message : BuildError → String
  | empty => "tree has no root node"
  | rootNotFile kind => "tree root must be a File node, found " ++ kind.name
  | multipleRoots => "tree already has a finished root node"
  | tokenOutsideNode text => "token " ++ Text.quoted text ++ " added outside of any node"
  | unbalancedFinish => "finish_node called without a matching start_node"
  | unclosedNode innermost count => s!"{count} node(s) left open, innermost is " ++ innermost.name
  | kindMismatch kind => "payload does not fit a " ++ kind.name ++ " node"

/-- A source tree with the given root, laid out from the start of the file. -/
def SourceTree.ofRoot (root : Node) : Except BuildError SourceTree :=
  if root.kind = .file then .ok ⟨root.layout 0⟩ else .error (.rootNotFile root.kind)

/-- One step of a walk over a tree. -/
inductive Event where
  | start (kind : Kind) (payload : Payload)
  | token (text : String)
  | finish
  deriving DecidableEq, Repr

/-- A node that has been started: its kind and payload, and the children it has so far, the
latest first. -/
structure OpenNode where
  kind : Kind
  payload : Payload
  reversedChildren : List Node

/-- The node with the children it has been given. -/
def OpenNode.close (opened : OpenNode) : Node :=
  ⟨opened.kind, ⟨0, 0⟩, opened.payload, opened.reversedChildren.reverse⟩

/-- The node with one more child. -/
def OpenNode.add (opened : OpenNode) (child : Node) : OpenNode :=
  { opened with reversedChildren := child :: opened.reversedChildren }

/-- A tree under construction: the open nodes, innermost first, and the finished root. -/
structure Assembly where
  opened : List OpenNode := []
  root : Option Node := none

namespace Assembly

/-- What one event does. -/
def step (assembly : Assembly) : Event → Except BuildError Assembly
  | .start kind payload =>
    if kind = .token ∨ payload.fits kind = false then .error (.kindMismatch kind)
    else if assembly.opened.isEmpty ∧ assembly.root.isSome then .error .multipleRoots
    else .ok { assembly with opened := ⟨kind, payload, []⟩ :: assembly.opened }
  | .token text =>
    match assembly.opened with
    | [] => .error (.tokenOutsideNode text)
    | inner :: outer => .ok { assembly with opened := inner.add (.leaf text) :: outer }
  | .finish =>
    match assembly.opened with
    | [] => .error .unbalancedFinish
    | [last] => .ok { opened := [], root := some last.close }
    | inner :: outer :: rest => .ok { assembly with opened := outer.add inner.close :: rest }

/-- What a sequence of events does. The first error stands. -/
def steps (assembly : Assembly) : List Event → Except BuildError Assembly
  | [] => .ok assembly
  | event :: events =>
    match assembly.step event with
    | .error error => .error error
    | .ok next => next.steps events

/-- The tree, once every node is finished. -/
def complete (assembly : Assembly) : Except BuildError SourceTree :=
  match assembly.opened with
  | inner :: outer => .error (.unclosedNode inner.kind (outer.length + 1))
  | [] =>
    match assembly.root with
    | none => .error .empty
    | some root => SourceTree.ofRoot root

end Assembly

/-- The source tree that a sequence of events spells out. -/
def SourceTree.ofEvents (events : List Event) : Except BuildError SourceTree :=
  match Assembly.steps {} events with
  | .error error => .error error
  | .ok assembly => assembly.complete

namespace Node

mutual

/-- The events that spell a node out: a token is one event, any other node a start, its
children and a finish. -/
def events : Node → List Event
  | ⟨kind, _, payload, children⟩ =>
    match payload.tokenText? with
    | some text => [.token text]
    | none => .start kind payload :: (eventsOfAll children ++ [.finish])

/-- The events of nodes that follow one another. -/
def eventsOfAll : List Node → List Event
  | [] => []
  | node :: nodes => events node ++ eventsOfAll nodes

end

end Node

end UiLint
