import UiLint.Proofs.Engine.RunLayout
import UiLint.Proofs.Engine.Schedule
import UiLint.Proofs.Tree.Depth

/-! Runs that do not fix. Nothing changes while the file is walked, so that the run makes exactly the
calls that the file asks for, however long the file is. -/
namespace UiLint

/-- A call that cannot ask for edits changes neither the tree nor whether the run is stopped. -/
theorem Progress.take_of_lint (progress : Progress) {call : Call} (hFixing : call.fixing = false) :
    (progress.take call).tree = progress.tree ∧ (progress.take call).aborted = progress.aborted := by
  have hEdits : call.edits = [] := by
    rw [Call.edits, hFixing]
    rfl
  unfold take
  split
  · exact ⟨rfl, rfl⟩
  · rw [hEdits]
    exact ⟨rfl, rfl⟩

/-- What is called and where, in a run that does not fix. -/
def Call.Looks (root : Node) (call : Call) : Prop :=
  call.fixing = false ∧ call.site.root = root ∧ root.descendant? call.site.path = some call.site.node

/-- The calls of a run that does not fix are made for nodes of the file as it is. -/
theorem looks_runRules (rules : List ActiveRule) (tree : SourceTree) :
    ∀ call ∈ (runRules rules tree false).calls, call.Looks tree.root := by
  refine (runRules_induction (P := fun progress => progress.tree = tree ∧
    ∀ call ∈ progress.calls, call.Looks tree.root) false ?_ rules (fun rule => List.mem_map_of_mem) tree
    ⟨rfl, by simp⟩).2
  rintro progress call ⟨rfl, hBefore⟩ _ hFixing _ hAt
  refine ⟨(progress.take_of_lint hFixing).1, ?_⟩
  rw [Progress.calls_take, List.forall_mem_append, List.forall_mem_singleton]
  exact ⟨hBefore, hFixing, hAt.site⟩

namespace Run

/-- From one run to another the calls of the turns are made, and nothing else happens: the tree stays
as it is, the run is not stopped, and the same rules listen. -/
structure Advances (turns : List Turn) (run next : Run) : Prop where
  tree : next.progress.tree = run.progress.tree
  running : next.progress.aborted = none
  listening : ActiveRule.listening next.rules = ActiveRule.listening run.rules
  calls : next.progress.calls.map Call.turn = run.progress.calls.map Call.turn ++ turns

namespace Advances

variable {run next last : Run} {turns more : List Turn}

theorem refl (hRunning : run.progress.aborted = none) : Advances [] run run :=
  ⟨rfl, hRunning, rfl, by simp⟩

theorem trans (h : Advances turns run next) (hMore : Advances more next last) :
    Advances (turns ++ more) run last :=
  ⟨hMore.tree.trans h.tree, hMore.running, hMore.listening.trans h.listening, by
    rw [hMore.calls, h.calls, List.append_assoc]⟩

end Advances

end Run

theorem ActiveRule.listening_cons (rule : ActiveRule) (rules : List ActiveRule) (hook : Hook)
    (suppressed : List String) :
    listening (rule :: rules) hook suppressed =
      if rule.listens hook suppressed then rule.index :: listening rules hook suppressed
      else listening rules hook suppressed := by
  rw [listening, List.filter_cons]
  split <;> rfl

/-- One round of calls. -/
theorem ActiveRule.advances_dispatch (hook : Hook) (suppressed : List String) (rules : List ActiveRule)
    {progress : Progress} {path : Path} {node : Node} (hRunning : progress.aborted = none)
    (hNode : progress.tree.root.descendant? path = some node) :
    Run.Advances (roundAt (listening rules) suppressed path node.payload hook) ⟨rules, progress⟩
      ⟨(dispatch false hook path suppressed rules progress).1,
        (dispatch false hook path suppressed rules progress).2⟩ := by
  have hNotStopped : ∀ {progress : Progress}, progress.aborted = none →
      ¬ progress.aborted.isSome = true := by
    intro progress hRunning
    simp [hRunning]
  induction rules generalizing progress with
  | nil => exact .refl hRunning
  | cons rule rules ih =>
      by_cases hListens : rule.listens hook suppressed = true
      · rw [dispatch_cons_of_listens rules (hNotStopped hRunning) hListens (Site.at?_eq_some hNode)]
        let site : Site := ⟨progress.tree.root, path, node⟩
        let call : Call := ⟨rule.index, hook, site, false, (rule.answer false hook site).2⟩
        obtain ⟨hTree, hAborted⟩ := progress.take_of_lint (show call.fixing = false from rfl)
        have hRest := ih (hAborted.trans hRunning) (by rw [hTree]; exact hNode)
        obtain ⟨visitor, hAnswer⟩ := rule.answer_fst false hook site
        refine ⟨hRest.tree.trans hTree, hRest.running, ?_, ?_⟩
        · funext other unheard
          have hSame := congrFun (congrFun hRest.listening other) unheard
          simp only at hSame
          rw [listening_cons, listening_cons, hAnswer, hSame]
          rfl
        · refine hRest.calls.trans ?_
          rw [Progress.calls_take, roundAt, roundAt, listening_cons, if_pos hListens]
          simp [Call.turn, call, site]
      · rw [dispatch_cons_of_deaf rules (hNotStopped hRunning) hListens]
        have hRest := ih hRunning hNode
        refine ⟨hRest.tree, hRest.running, ?_, ?_⟩
        · funext other unheard
          have hSame := congrFun (congrFun hRest.listening other) unheard
          simp only at hSame
          rw [listening_cons, listening_cons, hSame]
        · refine hRest.calls.trans ?_
          rw [roundAt, roundAt, listening_cons, if_neg hListens]

namespace Run

variable {run : Run} {path : Path} {node : Node}

theorem advances_dispatch (hook : Hook) (suppressed : List String)
    (hRunning : run.progress.aborted = none)
    (hNode : run.progress.tree.root.descendant? path = some node) :
    Advances (roundAt (ActiveRule.listening run.rules) suppressed path node.payload hook) run
      (run.dispatch false hook path suppressed) :=
  ActiveRule.advances_dispatch hook suppressed run.rules hRunning hNode

/-- The rounds of calls for a declaration. -/
theorem advances_visitDeclaration (suppressed : List String) (hRunning : run.progress.aborted = none)
    (hNode : run.progress.tree.root.descendant? path = some node) :
    Advances (node.hooks.flatMap
        (roundAt (ActiveRule.listening run.rules) suppressed path node.payload)) run
      (run.visitDeclaration false node path suppressed) := by
  unfold visitDeclaration Node.hooks
  split
  · rw [List.flatMap_singleton]
    exact advances_dispatch .type suppressed hRunning hNode
  · have hTold := advances_dispatch .function suppressed hRunning hNode
    rw [List.flatMap_cons]
    split
    · have hStill := hNode
      rw [← hTold.tree] at hStill
      have hMore := advances_dispatch .composable suppressed hTold.running hStill
      rw [hTold.listening] at hMore
      rw [List.flatMap_singleton]
      exact hTold.trans hMore
    · rw [List.flatMap_nil, List.append_nil]
      exact hTold

/-- Walking at a node, if walking below it does as it should. -/
theorem advances_walkAt {descend : Path → List String → Run → Run} (suppressed : List String)
    (hWell : node.WellFormed) (hRunning : run.progress.aborted = none)
    (hNode : run.progress.tree.root.descendant? path = some node)
    (hBelow : ∀ (suppressed : List String) (run : Run), run.progress.aborted = none →
      run.progress.tree.root.descendant? path = some node →
      Advances (Node.turnsOfAll (ActiveRule.listening run.rules) path suppressed 0 node.children) run
        (descend path suppressed run)) :
    Advances (node.turnsFrom (ActiveRule.listening run.rules) path suppressed) run
      (walkAt false descend path suppressed run) := by
  unfold walkAt
  rw [Node.turnsFrom_eq]
  simp only [hRunning, hNode, Option.isSome_none, Bool.false_eq_true, if_false]
  by_cases hToken : node.kind = .token
  · rw [if_pos hToken, hToken, hWell.leaf hToken]
    exact .refl hRunning
  · rw [if_neg hToken]
    split
    · have hVisit := advances_visitDeclaration (suppressedBy node.payload.annotations ++ suppressed)
        hRunning hNode
      have hStill := hNode
      rw [← hVisit.tree] at hStill
      have hDown := hBelow (suppressedBy node.payload.annotations ++ suppressed) _ hVisit.running hStill
      rw [hVisit.listening] at hDown
      exact hVisit.trans hDown
    · exact hBelow suppressed run hRunning hNode

/-- Going through the first children of a node, one after the other. -/
theorem advances_children (visit : Run → Nat → Run) (suppressed : List String)
    (hRunning : run.progress.aborted = none)
    (hNode : run.progress.tree.root.descendant? path = some node)
    (hVisit : ∀ (run : Run) (index : Nat) (child : Node), run.progress.aborted = none →
      run.progress.tree.root.descendant? (path.child index) = some child →
      node.children[index]? = some child →
      Advances (child.turnsFrom (ActiveRule.listening run.rules) (path.child index) suppressed) run
        (visit run index))
    {count : Nat} (hCount : count ≤ node.children.length) :
    Advances (Node.turnsOfAll (ActiveRule.listening run.rules) path suppressed 0
      (node.children.take count)) run ((List.range count).foldl visit run) := by
  induction count with
  | zero => exact .refl hRunning
  | succ count ih =>
      have hSoFar := ih (Nat.le_of_succ_le hCount)
      have hChild : node.children[count]? = some node.children[count] :=
        List.getElem?_eq_getElem hCount
      have hStill := hNode
      rw [← hSoFar.tree] at hStill
      have hNext := hVisit _ count node.children[count] hSoFar.running
        ((Node.descendant?_child hStill count).trans hChild) hChild
      rw [hSoFar.listening] at hNext
      have hAll := hSoFar.trans hNext
      rw [List.range_succ, List.foldl_append, List.foldl_cons, List.foldl_nil,
        List.take_succ_eq_append_getElem hCount, Node.turnsOfAll_append, Node.turnsOfAll,
        Node.turnsOfAll, List.append_nil, List.length_take_of_le (Nat.le_of_succ_le hCount),
        Nat.zero_add]
      exact hAll

/-- Walking below a node, with depth enough for all that is below it. -/
theorem advances_walkBelow {depth : Nat} (suppressed : List String) (hWell : node.WellFormed)
    (hDepth : node.height ≤ depth) (hRunning : run.progress.aborted = none)
    (hNode : run.progress.tree.root.descendant? path = some node) :
    Advances (Node.turnsOfAll (ActiveRule.listening run.rules) path suppressed 0 node.children) run
      (walkBelow false depth path suppressed run) := by
  induction depth generalizing path node suppressed run with
  | zero =>
      have hHeight := Node.length_lt_height (show node.descendant? [] = some node from rfl)
      omega
  | succ depth ih =>
      simp only [walkBelow, hNode]
      have hAll := advances_children
        (fun run index => walkAt false (walkBelow false depth) (path.child index) suppressed run)
        suppressed hRunning hNode (fun run index child hRunning hFound hChild => by
          have hPart := List.mem_of_getElem? hChild
          have hHeight := Node.height_lt_of_mem hPart
          exact advances_walkAt suppressed (hWell.parts child hPart) hRunning hFound
            fun suppressed run hRunning hFound =>
              ih suppressed (hWell.parts child hPart) (by omega) hRunning hFound)
        (Nat.le_refl _)
      rwa [List.take_length] at hAll

end Run

/-- A run that does not fix is never stopped, and makes exactly the calls that the file asks for. -/
theorem turns_lint (rules : List ActiveRule) {tree : SourceTree} (hWell : tree.root.WellFormed)
    (hFile : tree.root.kind = .file) :
    (runRules rules tree false).aborted = none ∧
      (runRules rules tree false).calls.map Call.turn = schedule rules tree.root := by
  let run : Run := ⟨rules, { tree }⟩
  have hRoot : run.progress.tree.root.descendant? [] = some tree.root := rfl
  have hTold := Run.advances_dispatch .file (suppressedBy tree.root.payload.annotations) rfl hRoot
  have hStill := hRoot
  rw [← hTold.tree] at hStill
  have hDown := Run.advances_walkBelow (suppressedBy tree.root.payload.annotations) hWell
    (Nat.le_add_right _ 3) hTold.running hStill
  rw [hTold.listening] at hDown
  have hAll := hTold.trans hDown
  refine ⟨hAll.running, hAll.calls.trans ?_⟩
  rw [schedule_eq_turnsOfAll rules hFile, Node.suppressedAt_nil]
  rfl

end UiLint
