import UiLint.Declaration.Members
import UiLint.Engine.Rule
import UiLint.Text.Occurrence

/-! Rules written down as data. A script lists, for each hook, the actions to take; its
visitor counts the calls it gets, and the count can appear in its messages. -/
namespace UiLint.Script

/-- A node that an action is about: the visited one, a parameter or a statement call of the
visited function, or the end of a path from the visited node or from the root. -/
inductive Target where
  | self
  | parameter (index : Nat)
  | call (index : Nat)
  | below (path : Path)
  | absolute (path : Path)

/-- Where a report points. -/
inductive Anchor where
  | offset (offset : Nat)
  | node (target : Target)

/-- One thing that a script does when it is called. -/
inductive Action where
  | report (template : String) (anchor : Anchor) (fixable : Bool)
  | setDefault (expression : String) (target : Target)
  | replaceLastToken (text : String) (target : Target)
  | eachParameter (typeName : Option String) (template : String) (fixable : Bool)
      (default : Option String)
  | reportScope
  | fail (message : String)
  | crash (message : Option String)

/-- The actions for the calls at a hook, or for those of them about a given name. -/
structure Entry where
  hook : Hook
  name : Option String := none
  actions : List Action

/-- The types under which a script asks for options when it starts. -/
inductive Requirement where
  | flag (name : String)
  | set (name : String)
  | choice (name : String)
  | text (name : String)

/-- A rule written down as data. -/
structure RuleScript where
  name : String
  code : String
  description : String := ""
  severity : Severity := .warning
  options : List OptionSpec := []
  hooks : Hooks := Hooks.all
  requirements : List Requirement := []
  entries : List Entry := []

/-- Ask for one option. -/
def Requirement.check (options : Options) : Requirement → Except ConfigError Unit
  | flag name => (options.requireFlag name).map fun _ => ()
  | set name => (options.requireSet name).map fun _ => ()
  | choice name => (options.requireChoice name).map fun _ => ()
  | text name => (options.requireText name).map fun _ => ()

/-- The declared function of a visit for one. -/
def function? (visit : Visit) : Option FunctionHeader :=
  match visit.subject with
  | .function header => some header
  | .composable header => some header
  | _ => none

/-- The parameters of the visited function. -/
def parameters (visit : Visit) : List (Placed ParameterHeader) :=
  if (function? visit).isSome then visit.site.node.parameters else []

/-- The statement calls of the visited function. -/
def calls (visit : Visit) : List (Placed CallHeader) :=
  if (function? visit).isSome then visit.site.node.statementCalls else []

/-- The path from the root to a target. -/
def Target.path? (visit : Visit) : Target → Option Path
  | self => some visit.site.path
  | parameter index => (parameters visit)[index]?.map (visit.site.path ++ ·.path)
  | call index => (calls visit)[index]?.map (visit.site.path ++ ·.path)
  | below path => some (visit.site.path ++ path)
  | absolute path => some path

/-- The node that a target stands for, in the tree as it is when the script is called. -/
def Target.resolve? (visit : Visit) (target : Target) : Option Site :=
  (target.path? visit).bind (Site.at? visit.site.root)

/-- Where the visited node is reported: a function at its name, anything else where it
starts. -/
def selfOffset (visit : Visit) : Nat :=
  match function? visit with
  | some header => visit.site.node.nameOffset header.name
  | none => visit.site.node.span.start

/-- The offset that an anchor stands for. -/
def Anchor.offset? (visit : Visit) : Anchor → Option Nat
  | offset place => some place
  | node .self => some (selfOffset visit)
  | node target => (target.resolve? visit).map (·.node.span.start)

/-- A template filled in: the number of the call, and the span, name and text of the
visited node, each in what the one before has left. -/
def expand (visit : Visit) (count : Nat) (template : String) : String :=
  let span := visit.site.node.span
  let numbered := Text.replaceAll template "\x7bn\x7d" (Nat.repr count)
  let ranged := Text.replaceAll numbered "\x7brange\x7d" s!"{span.start}..{span.stop}"
  let named := Text.replaceAll ranged "\x7bname\x7d" visit.subject.name
  Text.replaceAll named "\x7btext\x7d" visit.site.node.text

/-- An answer that ends with a complaint about the visited node. -/
def complain (visit : Visit) (detail : String) : Response :=
  { ending := .failed (.malformed visit.site.node.span.start detail) }

/-- Ask for an edit, if the run allows edits. -/
def request (visit : Visit) (target : Path) (change : Change) : Response :=
  match visit.scope? with
  | none => {}
  | some scope =>
    match Edit.within scope target change with
    | .ok edit => { edits := [edit] }
    | .error error => { ending := .failed error }

/-- What one action answers. -/
def Action.answer (visit : Visit) (count : Nat) : Action → Response
  | report template anchor fixable =>
    match anchor.offset? visit with
    | none => complain visit "no such anchor"
    | some offset => { remarks := [⟨offset, expand visit count template, fixable⟩] }
  | setDefault expression target =>
    match target.resolve? visit with
    | none => complain visit "no such target"
    | some site =>
      if site.node.payload.parameterHeader?.isSome then
        request visit site.path (.defaultValue expression)
      else complain visit "not a parameter"
  | replaceLastToken text target =>
    match target.resolve? visit with
    | none => complain visit "no such target"
    | some site => request visit site.path (.lastToken text)
  | eachParameter typeName template fixable default =>
    let chosen := (parameters visit).filter fun parameter =>
      !parameter.node.hasDefault && typeName.all (· == parameter.header.typeName)
    { remarks := chosen.map fun parameter =>
        ⟨parameter.node.span.start,
          Text.replaceAll (expand visit count template) "\x7bparam\x7d" parameter.header.name,
          fixable⟩
      edits :=
        match default, visit.scope? with
        | some expression, some _ =>
          chosen.map fun parameter => ⟨parameter.path, .defaultValue expression⟩
        | _, _ => [] }
  | reportScope =>
    let text := match visit.scope? with
      | some scope => Text.numberList scope
      | none => "no handle"
    { remarks := [⟨visit.site.node.span.start, text, false⟩] }
  | fail message => complain visit message
  | crash message => { ending := .crashed message }

/-- The answer of actions taken one after the other, up to the first that fails. -/
def answerAll (visit : Visit) (count : Nat) : List Action → Response
  | [] => {}
  | action :: actions =>
    let first := action.answer visit count
    match first.ending with
    | .done =>
      let rest := answerAll visit count actions
      ⟨first.remarks ++ rest.remarks, first.edits ++ rest.edits, rest.ending⟩
    | _ => first

/-- Whether an entry is about the visit. -/
def Entry.applies (visit : Visit) (entry : Entry) : Bool :=
  entry.hook == visit.subject.hook && entry.name.all (· == visit.subject.name)

/-- The visitor of a script: it counts its calls, from one on. -/
def visitor (entries : List Entry) : Visitor where
  State := Nat
  state := 0
  visit count visited :=
    (count + 1,
      answerAll visited (count + 1)
        ((entries.filter (·.applies visited)).flatMap (·.actions)))

/-- Ask for all options in turn. -/
def checkAll (options : Options) : List Requirement → Except ConfigError Unit
  | [] => .ok ()
  | requirement :: requirements =>
    match requirement.check options with
    | .error error => .error error
    | .ok () => checkAll options requirements

/-- The rule that a script describes. -/
def RuleScript.rule (script : RuleScript) : Rule where
  name := script.name
  code := script.code
  description := script.description
  severity := script.severity
  options := script.options
  hooks := script.hooks
  start options := (checkAll options script.requirements).map fun _ => visitor script.entries

end UiLint.Script
