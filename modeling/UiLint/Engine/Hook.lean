import UiLint.Tree.Payload

/-! The moments of a run at which rules are called. -/
namespace UiLint

/-- A moment at which a rule can be called: for the file before its declarations, for
every type, for every function, and for every UI function after the calls for it as a
function. -/
inductive Hook where
  | file
  | type
  | function
  | composable
  deriving DecidableEq, Repr

/-- The name of the hook in messages. -/
def Hook.name : Hook → String
  | file => "File"
  | type => "Type"
  | function => "Function"
  | composable => "Composable"

/-- The hooks that a rule listens to. -/
structure Hooks where
  file : Bool := false
  type : Bool := false
  function : Bool := false
  composable : Bool := false
  deriving DecidableEq, Repr

namespace Hooks

/-- No hook. -/
def none : Hooks := {}

/-- Every hook. -/
def all : Hooks := ⟨true, true, true, true⟩

/-- The hooks and one more. -/
def add (hooks : Hooks) : Hook → Hooks
  | .file => { hooks with file := true }
  | .type => { hooks with type := true }
  | .function => { hooks with function := true }
  | .composable => { hooks with composable := true }

/-- Whether the hook is among them. -/
def contains (hooks : Hooks) : Hook → Bool
  | .file => hooks.file
  | .type => hooks.type
  | .function => hooks.function
  | .composable => hooks.composable

theorem contains_add (hooks : Hooks) (new hook : Hook) :
    (hooks.add new).contains hook = (hook == new || hooks.contains hook) := by
  cases new <;> cases hook <;> simp [add, contains]

/-- The listed hooks. -/
def ofList (hooks : List Hook) : Hooks :=
  hooks.foldl add none

end Hooks

/-- What a rule is called for: a hook together with the header of the declaration. -/
inductive Subject where
  | file (header : FileHeader)
  | type (header : TypeHeader)
  | function (header : FunctionHeader)
  | composable (header : FunctionHeader)

namespace Subject

/-- The hook of the call. -/
def hook : Subject → Hook
  | file _ => .file
  | type _ => .type
  | function _ => .function
  | composable _ => .composable

/-- The subject of a call for a node with the payload; the payload has to be of the sort
that the hook is about. -/
def of? : Hook → Payload → Option Subject
  | .file, .file header => some (.file header)
  | .type, .type header => some (.type header)
  | .function, .function header => some (.function header)
  | .composable, .function header => some (.composable header)
  | _, _ => none

/-- The declared name; a file has none. -/
def name : Subject → String
  | file _ => ""
  | type header => header.name
  | function header => header.name
  | composable header => header.name

end Subject

end UiLint
