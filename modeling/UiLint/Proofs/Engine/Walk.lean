import UiLint.Proofs.Engine.Drift
import UiLint.Proofs.Engine.Schedule
import UiLint.Proofs.Tree.Depth

/-! The calls of a run. The tree changes while it is walked, yet the calls are those that the tree
at the end asks for. An edit reaches only what has not been visited, so a declaration that has been
visited stays, and one that goes has not been visited. -/
namespace UiLint

theorem Node.within_defaultValue {bound depth : Nat} (hDepth : depth ≤ bound) (expression : String) :
    (defaultValue expression).Within bound depth := by
  refine within_of_children (by simp only [defaultValue, Kind.slack]; omega) fun child hChild => ?_
  have hLeaf : child.kind = .token ∧ child.children = [] := by
    simp only [defaultValue, List.mem_cons, List.not_mem_nil, or_false] at hChild
    rcases hChild with rfl | rfl | rfl | rfl <;> exact ⟨rfl, rfl⟩
  refine within_of_children ?_ (by simp [hLeaf.2])
  rw [hLeaf.1, Kind.slack]
  omega

/-- A change takes nothing below the bound. -/
theorem Change.within_result? {bound depth : Nat} {change : Change} {node changed : Node}
    (h : node.Within bound depth) (hChanged : change.result? node = some changed) :
    changed.Within bound depth := by
  cases change with
  | lastToken text =>
      rw [result?, Node.replaceLastToken?] at hChanged
      split at hChanged
      · cases hChanged
      · rename_i path hPath
        obtain ⟨token, hToken, -⟩ := Node.exists_token_of_lastTokenPath? hPath
        rw [hToken] at hChanged
        simp only [Option.ite_none_right_eq_some, Option.some.injEq] at hChanged
        have hThere := h.descendant hToken
        rw [← hChanged.2]
        exact h.replaceAt (Node.within_of_children (hThere [] token rfl) hThere.child)
  | defaultValue expression =>
      rw [result?, Node.setDefault?] at hChanged
      split at hChanged
      · rename_i hKind
        have hHere := h [] node rfl
        have hParts : ∀ child, child = Node.defaultValue expression ∨ child ∈ node.children →
            child.Within bound (depth + 1) := by
          rintro child (rfl | hChild)
          · have hDepth : depth < bound := by simpa [hKind, Kind.slack] using hHere
            exact Node.within_defaultValue hDepth expression
          · exact h.child child hChild
        split at hChanged
        · cases hChanged
          refine Node.within_of_children hHere fun child hChild => hParts child ?_
          exact (List.mem_or_eq_of_mem_set hChild).symm
        · cases hChanged
          refine Node.within_of_children hHere fun child hChild => hParts child ?_
          simpa [or_comm] using hChild
      · cases hChanged

namespace Edit

theorem within_redraft? {bound depth : Nat} {edit : Edit} {node next : Node}
    (h : node.Within bound depth) (hNext : edit.redraft? node = some next) :
    next.Within bound depth := by
  obtain ⟨target, changed, hTarget, hChanged, rfl⟩ := redraft?_eq_some hNext
  have hInner := h.replaceAt (Change.within_result? (h.descendant hTarget) hChanged)
  exact hInner.of_shape (Node.shape_layout ..)

theorem within_redraftAll? {bound depth : Nat} {edits : List Edit} {node next : Node}
    (h : node.Within bound depth) (hNext : redraftAll? node edits = some next) :
    next.Within bound depth := by
  induction edits generalizing node with
  | nil =>
      cases hNext
      exact h
  | cons edit edits ih =>
      obtain ⟨draft, hDraft, hRest⟩ := Option.bind_eq_some_iff.mp hNext
      exact ih (within_redraft? h hDraft) hRest

/-- Only a token is itself what an edit replaces. -/
theorem spot?_ne_nil {edit : Edit} {node : Node} (hKind : node.kind ≠ .token) :
    edit.spot? node ≠ some [] := by
  intro hSpot
  have hTarget : ∃ target, node.descendant? edit.target = some target := by
    rw [spot?] at hSpot
    split at hSpot
    · cases hSpot
    · exact ⟨_, by assumption⟩
  obtain ⟨target, hTarget⟩ := hTarget
  obtain ⟨rest, hNil, hRest⟩ := exists_spot_eq_append hTarget hSpot
  obtain ⟨hHere, rfl⟩ := List.append_eq_nil_iff.mp hNil.symm
  rw [hHere] at hTarget
  cases hTarget
  rcases hRest with ⟨text, -, hPath⟩ | ⟨expression, -, hIndex⟩
  · rw [Node.lastTokenPath?_eq, if_neg hKind] at hPath
    obtain ⟨place, child, below, hPath, -⟩ := Node.exists_of_lastTokenPathOfAll? hPath
    cases hPath
  · cases hIndex

/-- Edits of a node other than a token leave its kind and payload. -/
theorem kind_redraftAll? {edits : List Edit} {node next : Node} (hKind : node.kind ≠ .token)
    (hNext : redraftAll? node edits = some next) :
    next.kind = node.kind ∧ next.payload = node.payload := by
  induction edits generalizing node with
  | nil =>
      cases hNext
      exact ⟨rfl, rfl⟩
  | cons edit edits ih =>
      obtain ⟨draft, hDraft, hRest⟩ := Option.bind_eq_some_iff.mp hNext
      obtain ⟨target, spot, -, hSpot, -⟩ := redraft?_at_spot hDraft
      have hSpares : ¬ spot <+: [] := by
        rw [List.prefix_nil]
        rintro rfl
        exact spot?_ne_nil hKind hSpot
      obtain ⟨after, hAfter, hSame⟩ := descendant?_redraft? hDraft hSpot hSpares rfl
      cases hAfter
      obtain ⟨hLastKind, hLastPayload⟩ := ih (by rwa [hSame.1]) hRest
      exact ⟨hLastKind.trans hSame.1, hLastPayload.trans hSame.2⟩

end Edit

/-- The run is sound, its tree keeps to the bound, and its rules listen as told. -/
structure Run.Steady (bound : Nat) (listening : Hook → List String → List Nat) (run : Run) : Prop where
  sound : run.progress.Sound
  within : run.progress.tree.root.Within bound 0
  rules : ActiveRule.listening run.rules = listening

/-- What a part of a run does that deals with the node at a path: the node becomes another with the
same kind and payload, nothing changes around it, and the given calls are made. -/
structure Progress.Moves (path : Path) (node after : Node) (turns : List Turn)
    (progress next : Progress) : Prop where
  found : next.tree.root.descendant? path = some after
  kind : after.kind = node.kind
  payload : after.payload = node.payload
  around : next.tree.root.shape = (progress.tree.root.replaceAt path after).shape
  calls : next.calls.map Call.turn = progress.calls.map Call.turn ++ turns

namespace Progress

theorem Moves.refl {progress : Progress} {path : Path} {node : Node}
    (hNode : progress.tree.root.descendant? path = some node) :
    Moves path node node [] progress progress :=
  ⟨hNode, rfl, rfl, by rw [Node.replaceAt_self hNode], by simp⟩

theorem Moves.trans {progress next last : Progress} {path : Path} {node middle after : Node}
    {first second : List Turn} (h : Moves path node middle first progress next)
    (hNext : Moves path middle after second next last) :
    Moves path node after (first ++ second) progress last := by
  refine ⟨hNext.found, hNext.kind.trans h.kind, hNext.payload.trans h.payload, ?_, ?_⟩
  · rw [hNext.around, Node.shape_replaceAt, h.around, ← Node.shape_replaceAt,
      Node.replaceAt_replaceAt]
  · rw [hNext.calls, h.calls, List.append_assoc]

/-- What changes a child of a node changes the node, seen from further up. -/
theorem Moves.lift {progress next : Progress} {path : Path} {index : Nat} {node child after : Node}
    {turns : List Turn} (hNode : progress.tree.root.descendant? path = some node)
    (h : Moves (path.child index) child after turns progress next) :
    ∃ changed, Moves path node changed turns progress next ∧
      changed.shape = (node.replaceAt [index] after).shape := by
  have hAround := h.around
  rw [Path.child, Node.replaceAt_append hNode] at hAround
  have hThere := Node.descendant?_shape next.tree.root path
  rw [hAround, Node.descendant?_shape, Node.descendant?_replaceAt_self hNode] at hThere
  obtain ⟨changed, hChanged, hShape⟩ := Option.map_eq_some_iff.mp hThere.symm
  refine ⟨changed, ⟨hChanged, ?_, ?_, ?_, h.calls⟩, hShape⟩
  · rw [← Node.kind_shape, hShape, Node.kind_shape]
    rfl
  · rw [← Node.payload_shape, hShape, Node.payload_shape]
    rfl
  · rw [hAround, Node.shape_replaceAt, ← hShape, ← Node.shape_replaceAt]

/-- One call edits the visited node and nothing around it. -/
theorem Sound.moves_take {progress : Progress} {call : Call} (h : progress.Sound)
    (hAt : call.IsAt progress) (hFits : call.Fits) (hKind : call.site.node.kind ≠ .token) :
    ∃ after, Moves call.site.path call.site.node after [call.turn] progress (progress.take call) := by
  have hCalls : (progress.take call).calls.map Call.turn =
      progress.calls.map Call.turn ++ [call.turn] := by
    rw [calls_take, List.map_append, List.map_singleton]
  cases hDraft : call.draft? with
  | none =>
      have hTree : (progress.take call).tree = progress.tree := by
        rcases h.take_of_no_draft hAt hFits hDraft with hTake | ⟨detail, hTake⟩ <;> rw [hTake] <;> rfl
      refine ⟨call.site.node, ?_, rfl, rfl, ?_, hCalls⟩
      · rw [hTree]
        exact hAt.site.2
      · rw [hTree, Node.replaceAt_self hAt.site.2]
  | some next =>
      obtain ⟨-, -, hAll⟩ := draft?_eq_some hDraft
      obtain ⟨hNode, -, -⟩ := h.node hAt
      obtain ⟨hCanonical, hStart⟩ := Edit.canonical_redraftAll? hNode hAll
      obtain ⟨hSameKind, hPayload⟩ := Edit.kind_redraftAll? hKind hAll
      refine ⟨next, ?_, hSameKind, hPayload, ?_, hCalls⟩
      · rw [h.take_of_draft hAt hFits hDraft]
        exact Edit.descendant?_redraft h.canonical.wellFormed h.canonical.laid hAt.site.2 hCanonical
          hStart
      · rw [h.take_of_draft hAt hFits hDraft]
        exact Node.shape_layout ..

end Progress

/-- A call changes nothing about which rules listen. -/
theorem ActiveRule.listening_set {rules : List ActiveRule} {place : Nat} {rule : ActiveRule}
    (hRule : rules[place]? = some rule) (visitor : Visitor) :
    listening (rules.set place { rule with visitor }) = listening rules := by
  funext hook suppressed
  obtain ⟨hPlace, rfl⟩ := List.getElem?_eq_some_iff.mp hRule
  have hSplit : rules = rules.take place ++ rules[place] :: rules.drop (place + 1) := by simp
  rw [List.set_eq_take_append_cons_drop, if_pos hPlace]
  refine Eq.trans ?_ (congrArg (listening · hook suppressed) hSplit.symm)
  simp only [listening, List.filter_append, List.filter_cons, List.map_append]
  congr 1
  unfold listens
  dsimp only
  split <;> rfl

/-- A round of calls for the node at a path. -/
theorem ActiveRule.moves_dispatch {fixing : Bool} {path : Path} (hook : Hook)
    (suppressed : List String) (rules : List ActiveRule) {progress : Progress} {node : Node}
    (hSound : progress.Sound) (hNode : progress.tree.root.descendant? path = some node)
    (hKind : node.kind ≠ .token)
    (hFits : ∀ call ∈ (dispatch fixing hook path suppressed rules progress).2.calls, call.Fits) :
    ∃ after, Progress.Moves path node after
      (roundAt (listening rules) suppressed path node.payload hook) progress
      (dispatch fixing hook path suppressed rules progress).2 := by
  induction rules generalizing progress node with
  | nil => exact ⟨node, .refl hNode⟩
  | cons rule rules ih =>
      have hRunning : ¬ progress.aborted.isSome = true := by simp [hSound.running]
      by_cases hListens : rule.listens hook suppressed = true
      · have hSite := Site.at?_eq_some hNode
        rw [dispatch_cons_of_listens rules hRunning hListens hSite] at hFits ⊢
        generalize hCall : Call.mk rule.index hook ⟨progress.tree.root, path, node⟩ fixing
          (rule.answer fixing hook ⟨progress.tree.root, path, node⟩).2 = call at hFits ⊢
        have hTurn : call.turn = ⟨rule.index, hook, path, node.payload⟩ := by rw [← hCall]; rfl
        have hAt : call.IsAt progress := by rw [← hCall]; exact hSite
        obtain rfl : call.site.path = path := by rw [← hCall]
        obtain rfl : call.site.node = node := by rw [← hCall]
        obtain ⟨hBefore, -⟩ := dispatch_induction
          (P := fun run => (progress.take call).calls <+: run.progress.calls) fixing Run.prefix_serve
          hook call.site.path suppressed [] rules List.prefix_rfl (Progress.isSome_descendant?_take hAt)
        have hCallFits : call.Fits := hFits call (hBefore.subset (by simp [Progress.calls_take]))
        obtain ⟨middle, hMiddle⟩ := hSound.moves_take hAt hCallFits hKind
        obtain ⟨after, hAfter⟩ := ih (hSound.take hAt hCallFits) hMiddle.found
          (by rwa [hMiddle.kind]) hFits
        refine ⟨after, ?_⟩
        have hAll := hMiddle.trans hAfter
        rw [hTurn, hMiddle.payload] at hAll
        simpa [roundAt, listening, hListens] using hAll
      · rw [dispatch_cons_of_deaf rules hRunning hListens] at hFits ⊢
        have hSame : listening (rule :: rules) hook suppressed = listening rules hook suppressed := by
          simp [listening, hListens]
        obtain ⟨after, hAfter⟩ := ih hSound hNode hKind hFits
        refine ⟨after, ?_⟩
        rw [roundAt, hSame, ← roundAt]
        exact hAfter

namespace Run

variable {bound : Nat} {listening : Hook → List String → List Nat} {fixing : Bool}

/-- The run goes on from the given calls, and is steady if all its calls fit. -/
def GoesOn (bound : Nat) (listening : Hook → List String → List Nat) (before : List Call)
    (run : Run) : Prop :=
  before <+: run.progress.calls ∧
    ((∀ call ∈ run.progress.calls, call.Fits) → run.Steady bound listening)

theorem Steady.goesOn {run : Run} (h : run.Steady bound listening) :
    run.GoesOn bound listening run.progress.calls :=
  ⟨List.prefix_rfl, fun _ => h⟩

/-- A run goes on with every call. -/
theorem GoesOn.serve {before : List Call} (run : Run) (place : Nat) (rule : ActiveRule) (hook : Hook)
    (site : Site) (h : run.GoesOn bound listening before) (hRunning : run.progress.aborted = none)
    (hRule : run.rules[place]? = some rule)
    (hSite : Site.at? run.progress.tree.root site.path = some site) :
    (run.serve fixing hook site place rule).GoesOn bound listening before := by
  obtain ⟨hBefore, hSteady⟩ := h
  obtain ⟨visitor, hAnswer⟩ := rule.answer_fst fixing hook site
  refine ⟨run.prefix_serve place rule hook site hBefore hRunning hRule hSite, fun hFits => ?_⟩
  rw [Run.serve, Progress.calls_take, List.forall_mem_append, List.forall_mem_singleton] at hFits
  obtain ⟨hSound, hWithin, hRules⟩ := hSteady hFits.1
  refine ⟨hSound.take hSite hFits.2, ?_, ?_⟩
  · have hAt : Call.IsAt ⟨rule.index, hook, site, fixing, (rule.answer fixing hook site).2⟩
        run.progress := hSite
    obtain ⟨hRedraft, -, -⟩ := hSound.take_changes hAt hFits.2
    exact Edit.within_redraftAll? hWithin hRedraft
  · show ActiveRule.listening (run.rules.set place (rule.answer fixing hook site).1) = listening
    rw [hAnswer, ActiveRule.listening_set hRule, hRules]

/-- The rounds of calls for a declaration. -/
theorem Steady.moves_visitDeclaration {run : Run} {node : Node} {path : Path}
    (suppressed : List String) (h : run.Steady bound listening)
    (hNode : run.progress.tree.root.descendant? path = some node) (hKind : node.kind ≠ .token)
    (hFits : ∀ call ∈ (run.visitDeclaration fixing node path suppressed).progress.calls,
      call.Fits) :
    ∃ after, Progress.Moves path node after
      (node.hooks.flatMap (roundAt listening suppressed path node.payload)) run.progress
      (run.visitDeclaration fixing node path suppressed).progress := by
  unfold visitDeclaration at hFits ⊢
  have hRules := h.rules
  subst hRules
  by_cases hType : node.kind = .typeDeclaration
  · simp only [if_pos hType, Node.hooks, List.flatMap_singleton] at hFits ⊢
    exact ActiveRule.moves_dispatch .type suppressed run.rules h.sound hNode hKind hFits
  · simp only [if_neg hType, Node.hooks, List.flatMap_cons] at hFits ⊢
    have hFound : (run.progress.tree.root.descendant? path).isSome = true := by simp [hNode]
    obtain ⟨hTold, hStill⟩ :=
      dispatch_induction fixing GoesOn.serve .function path suppressed h.goesOn hFound
    by_cases hMark : node.payload.functionHeader?.any (·.isComposable) = true
    · simp only [if_pos hMark] at hFits ⊢
      obtain ⟨hBefore, -⟩ := (dispatch_induction fixing GoesOn.serve .composable path
        suppressed ⟨List.prefix_rfl, hTold.2⟩ hStill).1
      have hToldFits := fun call hCall => hFits call (hBefore.subset hCall)
      obtain ⟨middle, hMiddle⟩ :=
        ActiveRule.moves_dispatch .function suppressed run.rules h.sound hNode hKind hToldFits
      have hSteady := hTold.2 hToldFits
      obtain ⟨after, hAfter⟩ := ActiveRule.moves_dispatch .composable suppressed _ hSteady.sound
        hMiddle.found (by rwa [hMiddle.kind]) hFits
      refine ⟨after, ?_⟩
      have hAll := hMiddle.trans hAfter
      rw [hSteady.rules, hMiddle.payload] at hAll
      rw [List.flatMap_singleton]
      exact hAll
    · simp only [if_neg hMark, List.flatMap_nil, List.append_nil] at hFits ⊢
      exact ActiveRule.moves_dispatch .function suppressed run.rules h.sound hNode hKind hFits

/-- Walking at a node, if walking below it does as it should. -/
theorem Steady.moves_walkAt {depth : Nat} {path : Path} (suppressed : List String) {run : Run}
    {node : Node} (h : run.Steady bound listening)
    (hNode : run.progress.tree.root.descendant? path = some node)
    (hBelow : ∀ (suppressed : List String) (run : Run) (node : Node), run.Steady bound listening →
      run.progress.tree.root.descendant? path = some node →
      (∀ call ∈ (walkBelow fixing depth path suppressed run).progress.calls, call.Fits) →
      ∃ after, Progress.Moves path node after
        (Node.turnsOfAll listening path suppressed 0 after.children) run.progress
        (walkBelow fixing depth path suppressed run).progress)
    (hFits : ∀ call ∈ (walkAt fixing (walkBelow fixing depth) path suppressed run).progress.calls,
      call.Fits) :
    ∃ after, Progress.Moves path node after (after.turnsFrom listening path suppressed) run.progress
      (walkAt fixing (walkBelow fixing depth) path suppressed run).progress := by
  unfold walkAt at hFits ⊢
  simp only [h.sound.running, hNode, Option.isSome_none, Bool.false_eq_true, if_false] at hFits ⊢
  by_cases hToken : node.kind = .token
  · have hLeaf := (h.sound.canonical.wellFormed.descendant hNode).leaf hToken
    have hNone : node.turnsFrom listening path suppressed = [] := by
      rw [Node.turnsFrom_eq, hToken, hLeaf]
      rfl
    refine ⟨node, ?_⟩
    rw [if_pos hToken, hNone]
    exact .refl hNode
  · simp only [if_neg hToken] at hFits ⊢
    by_cases hDeclaration : isDeclaration node.kind = true
    · simp only [if_pos hDeclaration] at hFits ⊢
      have hVisit := visitDeclaration_induction fixing GoesOn.serve node path
        (suppressedBy node.payload.annotations ++ suppressed) h.goesOn (by simp [hNode])
      have hDown := walkBelow_induction fixing GoesOn.serve depth path
        (suppressedBy node.payload.annotations ++ suppressed) ⟨List.prefix_rfl, hVisit.2⟩
      have hVisitFits := fun call hCall => hFits call (hDown.1.subset hCall)
      obtain ⟨middle, hMiddle⟩ := h.moves_visitDeclaration _ hNode hToken hVisitFits
      obtain ⟨after, hAfter⟩ := hBelow _ _ middle (hVisit.2 hVisitFits) hMiddle.found hFits
      have hAll := hMiddle.trans hAfter
      refine ⟨after, ?_⟩
      rw [Node.turnsFrom_eq, hAll.kind, hAll.payload, if_pos hDeclaration, Node.hooks, hAll.kind,
        hAll.payload]
      exact hAll
    · simp only [if_neg hDeclaration] at hFits ⊢
      obtain ⟨after, hAfter⟩ := hBelow suppressed run node h hNode hFits
      refine ⟨after, ?_⟩
      rw [Node.turnsFrom_eq, hAfter.kind, if_neg hDeclaration]
      exact hAfter

section Children

variable (visit : Run → Nat → Run) {path : Path} {suppressed : List String}
  (hGoesOn : ∀ before run index, run.GoesOn bound listening before →
    (visit run index).GoesOn bound listening before)
include hGoesOn

theorem Steady.goesOn_children {run : Run} (h : run.Steady bound listening) (count : Nat) :
    ((List.range count).foldl visit run).GoesOn bound listening run.progress.calls := by
  induction count with
  | zero => exact h.goesOn
  | succ count ih =>
      rw [List.range_succ, List.foldl_append]
      exact hGoesOn _ _ count ih

/-- Going through the children of a node, up to the given number of them. What has been dealt with
is not touched again, and the number of children stays. -/
theorem Steady.moves_children
    (hVisit : ∀ (run : Run) (index : Nat) (child : Node), run.Steady bound listening →
      run.progress.tree.root.descendant? (path.child index) = some child →
      (∀ call ∈ (visit run index).progress.calls, call.Fits) →
      ∃ after, Progress.Moves (path.child index) child after
        (after.turnsFrom listening (path.child index) suppressed) run.progress
        (visit run index).progress)
    {run : Run} {node : Node} (h : run.Steady bound listening)
    (hNode : run.progress.tree.root.descendant? path = some node) {count : Nat}
    (hCount : count ≤ node.children.length)
    (hFits : ∀ call ∈ ((List.range count).foldl visit run).progress.calls, call.Fits) :
    ∃ after, Progress.Moves path node after
        (Node.turnsOfAll listening path suppressed 0 (after.children.take count)) run.progress
        ((List.range count).foldl visit run).progress ∧
      after.children.length = node.children.length := by
  induction count with
  | zero => exact ⟨node, .refl hNode, rfl⟩
  | succ count ih =>
      rw [List.range_succ, List.foldl_append, List.foldl_cons, List.foldl_nil] at hFits ⊢
      have hSoFar := h.goesOn_children visit hGoesOn count
      have hBefore := (hGoesOn _ _ count ⟨List.prefix_rfl, hSoFar.2⟩).1
      have hSoFarFits := fun call hCall => hFits call (hBefore.subset hCall)
      obtain ⟨middle, hMiddle, hLength⟩ := ih (Nat.le_of_succ_le hCount) hSoFarFits
      have hIndex : count < middle.children.length := by omega
      have hChild : middle.children[count]? = some middle.children[count] :=
        List.getElem?_eq_getElem hIndex
      obtain ⟨after, hAfter⟩ := hVisit _ count middle.children[count] (hSoFar.2 hSoFarFits)
        (by rw [Node.descendant?_child hMiddle.found, hChild]) hFits
      obtain ⟨changed, hChanged, hShape⟩ := hAfter.lift hMiddle.found
      have hParts : changed.children.map Node.shape =
          (middle.children.set count after).map Node.shape := by
        have hSet : (middle.replaceAt [count] after).children = middle.children.set count after := by
          simp only [Node.replaceAt, List.modify_eq_take_cons_drop hIndex,
            List.set_eq_take_append_cons_drop, if_pos hIndex]
        rw [← Node.children_shape, hShape, Node.children_shape, hSet]
      have hTake : (changed.children.take (count + 1)).map Node.shape =
          (middle.children.take count ++ [after]).map Node.shape := by
        rw [List.map_take, hParts, ← List.map_take, List.take_succ_eq_append_getElem (by simpa),
          List.getElem_set_self, List.take_set_of_le (Nat.le_refl _)]
      have hTurns := Node.turnsOfAll_of_shape listening path suppressed 0 hTake
      rw [Node.turnsOfAll_append, List.length_take_of_le (Nat.le_of_lt hIndex), Nat.zero_add] at hTurns
      refine ⟨changed, ?_, ?_⟩
      · rw [hTurns]
        simpa [Node.turnsOfAll] using hMiddle.trans hChanged
      · simpa [hLength] using congrArg List.length hParts

end Children

/-- Walking below a node, with depth enough for all that may be below it. -/
theorem Steady.moves_walkBelow {depth : Nat} {path : Path} (suppressed : List String) {run : Run}
    {node : Node} (h : run.Steady bound listening)
    (hNode : run.progress.tree.root.descendant? path = some node)
    (hDepth : bound + 2 ≤ depth + path.length)
    (hFits : ∀ call ∈ (walkBelow fixing depth path suppressed run).progress.calls, call.Fits) :
    ∃ after, Progress.Moves path node after
      (Node.turnsOfAll listening path suppressed 0 after.children) run.progress
      (walkBelow fixing depth path suppressed run).progress := by
  induction depth generalizing path suppressed run node with
  | zero =>
      -- Nothing is as deep down as that.
      have hHere := h.within path node hNode
      have hSlack := node.kind.slack_le
      omega
  | succ depth ih =>
      simp only [walkBelow, hNode] at hFits ⊢
      obtain ⟨after, hAfter, hLength⟩ := h.moves_children
        (fun run index =>
          walkAt fixing (walkBelow fixing depth) (path.child index) suppressed run)
        (fun before run index hRun => walkAt_induction fixing GoesOn.serve
          (fun path suppressed run =>
            walkBelow_induction fixing GoesOn.serve depth path suppressed) _ _ hRun)
        (fun run index child hRun hChild hChildFits => hRun.moves_walkAt suppressed hChild
          (fun suppressed run node hRun hNode hFits => ih suppressed hRun hNode
            (by rw [Path.child, List.length_append, List.length_singleton]; omega) hFits)
          hChildFits)
        hNode (Nat.le_refl _) hFits
      rw [List.take_of_length_le (Nat.le_of_eq hLength)] at hAfter
      exact ⟨after, hAfter⟩

/-- A whole walk makes the calls that the tree at its end asks for. -/
theorem Steady.calls_walk {run : Run} (h : run.Steady run.progress.tree.root.height listening)
    (hFile : run.progress.tree.root.kind = .file)
    (hFits : ∀ call ∈ (run.walk fixing).progress.calls, call.Fits) :
    (run.walk fixing).progress.calls.map Call.turn =
      run.progress.calls.map Call.turn ++
        schedule run.rules (run.walk fixing).progress.tree.root := by
  have hToken : run.progress.tree.root.kind ≠ .token := by simp [hFile]
  have hRoot : run.progress.tree.root.descendant? [] = some run.progress.tree.root := rfl
  unfold walk at hFits ⊢
  obtain ⟨hTold, -⟩ := dispatch_induction fixing GoesOn.serve .file []
    (suppressedBy run.progress.tree.root.payload.annotations) h.goesOn rfl
  have hDown := walkBelow_induction fixing GoesOn.serve
    (run.progress.tree.root.height + 3) [] (suppressedBy run.progress.tree.root.payload.annotations)
    ⟨List.prefix_rfl, hTold.2⟩
  have hToldFits := fun call hCall => hFits call (hDown.1.subset hCall)
  have hSteady := hTold.2 hToldFits
  obtain ⟨middle, hMiddle⟩ := ActiveRule.moves_dispatch .file
    (suppressedBy run.progress.tree.root.payload.annotations) run.rules h.sound
    hRoot hToken hToldFits
  obtain ⟨after, hAfter⟩ := hSteady.moves_walkBelow
    (suppressedBy run.progress.tree.root.payload.annotations) hMiddle.found (by simp) hFits
  have hAll := hMiddle.trans hAfter
  obtain rfl := Option.some.inj hAfter.found
  rw [schedule_eq_turnsOfAll run.rules (hAll.kind.trans hFile), Node.suppressedAt_nil, hAll.payload,
    h.rules]
  rw [h.rules] at hAll
  exact hAll.calls

end Run

/-- A run over a canonical tree makes the calls that the tree at its end asks for. -/
theorem turns_runRules (rules : List ActiveRule) (fixing : Bool) {tree : SourceTree}
    (hTree : tree.Canonical) (hFile : tree.root.kind = .file)
    (hFits : tree.root.size < distanceBound)
    (hCalls : ∀ call ∈ (runRules rules tree fixing).calls, call.Fits) :
    (runRules rules tree fixing).calls.map Call.turn =
      schedule rules (runRules rules tree fixing).tree.root := by
  have hSteady : Run.Steady tree.root.height (ActiveRule.listening rules) ⟨rules, { tree }⟩ :=
    ⟨⟨rfl, hTree, hFits⟩, tree.root.within_height, rfl⟩
  exact hSteady.calls_walk hFile hCalls

/-- A run over a file that a builder made, by any rules with any visitors, makes exactly the calls
that the tree at its end asks for, in that order, as long as the length of the text can be measured
at every stage. The declarations of that tree, of which each has its turn once, are all nodes of the
two kinds, in the order of their paths. -/
theorem calls_runRules_eq_schedule {events : List Event} {tree : SourceTree}
    (hTree : SourceTree.ofEvents events = .ok tree) (rules : List ActiveRule) (fixing : Bool)
    (hFits : tree.text.utf8ByteSize < distanceBound)
    (hCalls : ∀ call ∈ (runRules rules tree fixing).calls, call.Fits) :
    (runRules rules tree fixing).aborted = none ∧
      (runRules rules tree fixing).calls.map Call.turn =
        schedule rules (runRules rules tree fixing).tree.root ∧
      (∀ path node, (path, node) ∈ (runRules rules tree fixing).tree.root.declarations ↔
        (runRules rules tree fixing).tree.root.descendant? path = some node ∧
          (node.kind = .typeDeclaration ∨ node.kind = .functionDeclaration)) ∧
      (runRules rules tree fixing).tree.root.declarations.Pairwise
        fun first second => first.1.order second.1 = .lt := by
  obtain ⟨hCanonical, hFile⟩ := SourceTree.canonical_of_ofEvents hTree
  refine ⟨(Progress.sound_runRules rules fixing hCanonical hFits hCalls).running,
    turns_runRules rules fixing hCanonical hFile hFits hCalls, ?_, ?_⟩
  · intro path node
    rw [Node.declarations, List.mem_filter, Node.mem_preorder]
    simp [Run.isDeclaration]
  · exact (Node.pairwise_preorderFrom [] _).filter _

namespace Dropping

/-- The events of a function whose parameter has a function in its default value, and of a type with
a UI function, for which a rule is suppressed. -/
def events : List Event :=
  [.start .file (.file {}), .start .functionDeclaration (.function { name := "f" }), .token "fun f",
    .start .parameterList .plain, .token "(", .start .parameter (.parameter ⟨"a", "A"⟩),
    .token "a: A", .start .defaultValue .plain, .token " = ",
    .start .functionDeclaration (.function { name := "g" }), .token "fun g()", .finish, .finish,
    .finish, .token ")", .finish, .finish,
    .start .typeDeclaration
      (.type { name := "T", annotations := [⟨"Suppress", ["reset"]⟩] }), .token "class T",
    .start .functionDeclaration (.function { name := "h", annotations := [⟨"Composable", []⟩] }),
    .token "fun h()", .finish, .finish, .finish]

/-- A rule that is called for everything, and one that gives the first parameter of functions
another default value. -/
def rules : List ActiveRule :=
  [⟨0, "watch", Hooks.all, .stateless fun _ => {}⟩,
    ⟨1, "reset", Hooks.none.add .function, Script.visitor
      [{ hook := .function, actions := [.setDefault "A()" (.parameter 0)] }]⟩]

end Dropping

/-- A function that an edit removes before its turn is passed over, and a suppressed rule is not
called below the mark. -/
theorem calls_runRules_eq_schedule_dropping :
    ∃ tree, SourceTree.ofEvents Dropping.events = .ok tree ∧
      (runRules Dropping.rules tree true).tree.text = "fun f(a: A = A())class Tfun h()" ∧
      (runRules Dropping.rules tree true).calls.map Call.turn =
        schedule Dropping.rules (runRules Dropping.rules tree true).tree.root ∧
      (runRules Dropping.rules tree true).calls.map
          (fun call => (call.rule, call.hook, call.site.path)) =
        [(0, .file, []), (0, .function, [0]), (1, .function, [0]), (0, .type, [1]),
          (0, .function, [1, 1]), (0, .composable, [1, 1])] := by
  have hTree : SourceTree.ofEvents Dropping.events = .ok _ := rfl
  obtain ⟨-, hTurns, -, -⟩ := calls_runRules_eq_schedule hTree Dropping.rules true
    (by decide +kernel) (by decide +kernel)
  exact ⟨_, hTree, by decide +kernel, hTurns, by decide +kernel⟩

end UiLint
