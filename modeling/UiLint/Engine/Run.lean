import UiLint.Declaration.Members
import UiLint.Engine.Rule

/-! One run of rules over a file. Declarations are visited in pre-order, each before what
lies below it. The edits of a call are made as soon as it ends, all of them or none, so
that the walk goes on in the tree as it then is. -/
namespace UiLint

/-- One call of a rule: the rule's place among the rules, the hook, the node and its tree as
they were then, whether edits could be asked for, and the answer. -/
structure Call where
  rule : Nat
  hook : Hook
  site : Site
  fixing : Bool
  response : Response

/-- The edits that a call asks for. A run that does not fix takes none. -/
def Call.edits (call : Call) : List Edit :=
  if call.fixing then call.response.edits else []

/-- How far a run has come: the tree as it is now, the findings so far, the calls that led
there, and what stopped the run, if anything did. -/
structure Progress where
  tree : SourceTree
  findings : List Finding := []
  calls : List Call := []
  aborted : Option LayoutError := none

namespace Progress

/-- Record that a call of a rule failed. -/
def fail (progress : Progress) (rule offset : Nat) (detail : String) : Progress :=
  { progress with
    findings := Finding.push progress.findings rule ⟨offset, "rule-failure: " ++ detail, false⟩ }

/-- Make the edits of a call for the node at the site. The findings of the call are those
from `place` on. -/
def edit (progress : Progress) (rule : Nat) (site : Site) (edits : List Edit) (place : Nat) :
    Progress :=
  match Edit.applyAll site.path site.node edits with
  | .error (.rule error) => progress.fail rule site.node.span.start error.message
  | .error (.layout error) => { progress with aborted := some error }
  | .ok (node, shifts) =>
    match progress.tree.replaceSubtree site.path node with
    | .error error => { progress with aborted := some error }
    | .ok tree =>
      { progress with
        tree
        findings := Finding.fixFrom (Finding.moveAll progress.findings shifts) place }

/-- Keep a call and the remarks made in it. -/
def tell (progress : Progress) (call : Call) : Progress :=
  { progress with
    findings := Finding.pushAll progress.findings call.rule call.response.remarks
    calls := progress.calls ++ [call] }

/-- What a call does to the run: its remarks are kept; if it ended well its edits are made,
and otherwise it is recorded as failed. -/
def take (progress : Progress) (call : Call) : Progress :=
  match call.response.ending.failure? with
  | some detail => (progress.tell call).fail call.rule call.site.node.span.start detail
  | none =>
    if call.edits.isEmpty then progress.tell call
    else (progress.tell call).edit call.rule call.site call.edits progress.findings.length

end Progress

namespace ActiveRule

/-- What a rule answers for the node at a site. The visitor is not called for a node whose
payload does not suit the hook. -/
def answer (rule : ActiveRule) (fixing : Bool) (hook : Hook) (site : Site) :
    ActiveRule × Response :=
  match Subject.of? hook site.node.payload with
  | none =>
    (rule, { ending := .failed (.malformed site.node.span.start
      (hook.name ++ " hook on " ++ site.node.kind.name ++ " node")) })
  | some subject =>
    let answer := rule.visitor.call ⟨subject, site, fixing⟩
    ({ rule with visitor := answer.1 }, answer.2)

/-- Call a rule for the node at a path. -/
def invoke (rule : ActiveRule) (fixing : Bool) (hook : Hook) (path : Path) (progress : Progress) :
    ActiveRule × Progress :=
  match Site.at? progress.tree.root path with
  | none => (rule, { progress with aborted := some (.missingNode path) })
  | some site =>
    let answer := rule.answer fixing hook site
    (answer.1, progress.take ⟨rule.index, hook, site, fixing, answer.2⟩)

/-- Whether a rule is called at the hook where the listed rules are suppressed. -/
def listens (rule : ActiveRule) (hook : Hook) (suppressed : List String) : Bool :=
  rule.hooks.contains hook && !suppressed.contains rule.name

/-- Call the rules that listen, in order, until the run is stopped. -/
def dispatch (fixing : Bool) (hook : Hook) (path : Path) (suppressed : List String) :
    List ActiveRule → Progress → List ActiveRule × Progress
  | [], progress => ([], progress)
  | rule :: rules, progress =>
    if progress.aborted.isSome then (rule :: rules, progress)
    else
      let first := if rule.listens hook suppressed then rule.invoke fixing hook path progress
        else (rule, progress)
      let rest := dispatch fixing hook path suppressed rules first.2
      (first.1 :: rest.1, rest.2)

end ActiveRule

/-- A run: the rules at work and how far they have come. -/
structure Run where
  rules : List ActiveRule
  progress : Progress

/-- The rules that the marks on a declaration suppress. -/
def suppressedBy (entries : List AnnotationEntry) : List String :=
  (entries.filter (·.simpleName == "Suppress")).flatMap (·.arguments)

namespace Run

/-- Call the rules at one hook. -/
def dispatch (run : Run) (fixing : Bool) (hook : Hook) (path : Path) (suppressed : List String) :
    Run :=
  let next := ActiveRule.dispatch fixing hook path suppressed run.rules run.progress
  ⟨next.1, next.2⟩

/-- Call the rules for a declaration. -/
def visitDeclaration (run : Run) (fixing : Bool) (declaration : Node) (path : Path)
    (suppressed : List String) : Run :=
  if declaration.kind = .typeDeclaration then run.dispatch fixing .type path suppressed
  else
    let told := run.dispatch fixing .function path suppressed
    if declaration.payload.functionHeader?.any (·.isComposable) then
      told.dispatch fixing .composable path suppressed
    else told

/-- Whether rules are called for nodes of the kind. -/
def isDeclaration (kind : Kind) : Bool :=
  kind == .typeDeclaration || kind == .functionDeclaration

/-- Deal with the node at a path when its turn comes: tokens are passed over, and rules are
called for declarations before `descend` goes on below the node. What a declaration
suppresses is suppressed below it too. -/
def walkAt (fixing : Bool) (descend : Path → List String → Run → Run) (path : Path)
    (suppressed : List String) (run : Run) : Run :=
  if run.progress.aborted.isSome then run
  else
    match run.progress.tree.root.descendant? path with
    | none => run
    | some node =>
      if node.kind = .token then run
      else if isDeclaration node.kind then
        let inner := suppressedBy node.payload.annotations ++ suppressed
        descend path inner (run.visitDeclaration fixing node path inner)
      else descend path suppressed run

/-- Walk what lies below the node at a path, down to the given depth. -/
def walkBelow (fixing : Bool) : (depth : Nat) → Path → List String → Run → Run
  | 0, _, _, run => run
  | depth + 1, path, suppressed, run =>
    match run.progress.tree.root.descendant? path with
    | none => run
    | some node =>
      (List.range node.children.length).foldl (fun run index =>
        walkAt fixing (walkBelow fixing depth) (path.child index) suppressed run) run

/-- Walk a whole file. An edit makes a tree at most two levels deeper, so the depth that is
given suffices. -/
def walk (run : Run) (fixing : Bool) : Run :=
  let root := run.progress.tree.root
  let suppressed := suppressedBy root.payload.annotations
  walkBelow fixing (root.height + 3) [] suppressed (run.dispatch fixing .file [] suppressed)

end Run

/-- Run rules over a tree from the start to the end. -/
def runRules (rules : List ActiveRule) (tree : SourceTree) (fixing : Bool) : Progress :=
  (Run.walk ⟨rules, { tree }⟩ fixing).progress

end UiLint
