import UiLint.Tree.Splice

/-! Edits that rules ask for. A rule names a target at or below the node it was called
for; the edits of one call are applied in order, to a copy of that node. -/
namespace UiLint

/-- Why a call of a rule failed. -/
inductive RuleError where
  | malformed (offset : Nat) (detail : String)
  | outOfScope (scope target : Path)
  | missingTarget (target : Path)
  deriving DecidableEq, Repr

/-- The error in words. -/
def RuleError.message : RuleError → String
  | malformed offset detail => s!"malformed node at byte {offset}: {detail}"
  | outOfScope scope target =>
    "edit target " ++ Text.numberList target ++ " lies outside the visited node " ++
      Text.numberList scope
  | missingTarget target =>
    "edit target " ++ Text.numberList target ++ " is missing or cannot be edited"

/-- What an edit does to its target. -/
inductive Change where
  | lastToken (text : String)
  | defaultValue (expression : String)
  deriving DecidableEq, Repr

/-- A change of the node that `target` leads to from the node the rule was called for. -/
structure Edit where
  target : Path
  change : Change
  deriving DecidableEq, Repr

/-- The edit of a target given by its path from the root, which has to lie in the scope. -/
def Edit.within (scope target : Path) (change : Change) : Except RuleError Edit :=
  match target.relativeTo? scope with
  | some below => .ok ⟨below, change⟩
  | none => .error (.outOfScope scope target)

namespace Node

/-- The node with another text in its last token, which has to be one with text. -/
def replaceLastToken? (node : Node) (text : String) : Option Node :=
  match node.lastTokenPath? with
  | none => none
  | some path =>
    match node.descendant? path with
    | none => none
    | some token =>
      if token.tokenText?.isSome then
        some (node.replaceAt path { token with payload := .token text })
      else none

/-- The `= expression` part of a parameter. -/
def defaultValue (expression : String) : Node :=
  ⟨.defaultValue, ⟨0, 0⟩, .plain, [leaf " ", leaf "=", leaf " ", leaf expression]⟩

/-- The parameter with another default value, in the place of the one it has or after all
its parts. -/
def setDefault? (node : Node) (expression : String) : Option Node :=
  if node.kind = .parameter then
    match node.children.findIdx? (·.kind == .defaultValue) with
    | some index => some { node with children := node.children.set index (defaultValue expression) }
    | none => some { node with children := node.children ++ [defaultValue expression] }
  else none

end Node

/-- The changed node, if the change applies to it. -/
def Change.result? (change : Change) (node : Node) : Option Node :=
  match change with
  | lastToken text => node.replaceLastToken? text
  | defaultValue expression => node.setDefault? expression

/-- Why an edit could not be made: the rule asked for something impossible, or the spans
went wrong. -/
inductive EditFailure where
  | rule (error : RuleError)
  | layout (error : LayoutError)
  deriving DecidableEq, Repr

/-- Make an edit in a copy of the node at `scope`. A target that is not there is reported
by its path from that node, one that cannot take the change by its path from the root. -/
def Edit.apply (edit : Edit) (scope : Path) (node : Node) : Except EditFailure (Node × Shift) :=
  match node.descendant? edit.target with
  | none => .error (.rule (.missingTarget edit.target))
  | some target =>
    match edit.change.result? target with
    | none => .error (.rule (.missingTarget (scope ++ edit.target)))
    | some changed =>
      let laid := changed.layout target.span.start
      match endDistance target.span.stop laid.span.stop with
      | .error error => .error (.layout error)
      | .ok distance =>
        match (node.replaceAt edit.target laid).shiftAfter distance edit.target with
        | .error error => .error (.layout error)
        | .ok node => .ok (node, ⟨target.span.stop, distance⟩)

/-- Make edits one after the other, and list what each of them moved. -/
def Edit.applyAll (scope : Path) (node : Node) :
    List Edit → Except EditFailure (Node × List Shift)
  | [] => .ok (node, [])
  | edit :: edits =>
    match edit.apply scope node with
    | .error failure => .error failure
    | .ok (node, shift) =>
      match applyAll scope node edits with
      | .error failure => .error failure
      | .ok (node, shifts) => .ok (node, shift :: shifts)

end UiLint
