import UiLint.Engine.Edit
import UiLint.Engine.Finding
import UiLint.Engine.Hook
import UiLint.Options.Resolve
import UiLint.Report.Severity
import UiLint.Tree.Site

/-! Rules, and the visitors that look at one file for them. -/
namespace UiLint

/-- One call of a visitor: what it is called for, where that stands in the tree, and
whether edits may be asked for. The findings of the run are no part of it: a visitor adds
to them and cannot read them. -/
structure Visit where
  subject : Subject
  site : Site
  fixing : Bool

/-- The edit handle of a visit: the scope of its edits, in a run that fixes. -/
def Visit.scope? (visit : Visit) : Option Path :=
  if visit.fixing then some visit.site.path else none

/-- How a call ends. A crash may come with a message. -/
inductive Ending where
  | done
  | failed (error : RuleError)
  | crashed (message : Option String)

/-- What a call that did not end well has to say for itself. -/
def Ending.failure? : Ending → Option String
  | done => none
  | failed error => some error.message
  | crashed message => some (message.getD "rule panicked")

/-- What a visitor answers: the remarks it made, the edits it asked for, and how the call
ended. -/
structure Response where
  remarks : List Remark := []
  edits : List Edit := []
  ending : Ending := .done

/-- A machine that is called for the declarations of one file and keeps a state between
the calls. Its answers depend on that state and on what it is shown of the tree. Findings
are write-only: a call adds its remarks to those of the run, and sees neither its own
earlier ones nor those of other rules. -/
structure Visitor where
  State : Type
  state : State
  visit : State → Visit → State × Response

namespace Visitor

/-- Call the visitor: the visitor with its next state, and the answer. -/
def call (visitor : Visitor) (visit : Visit) : Visitor × Response :=
  let answer := visitor.visit visitor.state visit
  (⟨visitor.State, answer.1, visitor.visit⟩, answer.2)

/-- A visitor without state. -/
def stateless (visit : Visit → Response) : Visitor :=
  ⟨Unit, (), fun state visited => (state, visit visited)⟩

end Visitor

/-- A rule: how it is called in reports, the options it declares, the hooks it listens to,
and the visitor it starts for a file with those options. -/
structure Rule where
  name : String
  code : String
  description : String := ""
  severity : Severity := .warning
  options : List OptionSpec := []
  hooks : Hooks := Hooks.all
  start : Options → Except ConfigError Visitor

/-- A rule that listens to every hook and does nothing. -/
def Rule.idle (name code : String) : Rule where
  name
  code
  start _ := .ok (.stateless fun _ => {})

/-- A rule at work on one file. The index is its place among all registered rules. -/
structure ActiveRule where
  index : Nat
  name : String
  hooks : Hooks
  visitor : Visitor

end UiLint
