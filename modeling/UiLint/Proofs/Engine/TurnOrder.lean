import UiLint.Proofs.Engine.Schedule
import UiLint.Proofs.Tree.Growth

/-! The order of the calls that a file asks for. Declarations have their turns in the order of their
paths; for one declaration the calls for it as a function come before those for it as a UI function,
and at each hook the rules come in the order of their places. -/
namespace UiLint

/-- The place of a hook among those of a declaration. -/
def Hook.rank : Hook → Nat
  | file => 0
  | type => 1
  | function => 2
  | composable => 3

namespace Turn

/-- One turn comes before another: its path comes first or, for one node, its hook or, at one hook,
its rule. -/
def Precedes (first second : Turn) : Prop :=
  first.path.order second.path = .lt ∨
    (first.path = second.path ∧
      (first.hook.rank < second.hook.rank ∨
        (first.hook = second.hook ∧ first.rule < second.rule)))

/-- What comes later does not lie around what comes before. -/
theorem Precedes.path_eq {first second : Turn} (h : first.Precedes second)
    (hPrefix : second.path <+: first.path) : first.path = second.path := by
  rcases h with hOrder | ⟨hPath, -⟩
  · exact absurd hOrder (Path.order_ne_lt_of_prefix hPrefix)
  · exact hPath

/-- For one node, the hook or the rule decides. -/
theorem Precedes.of_path_eq {first second : Turn} (h : first.Precedes second)
    (hPath : first.path = second.path) :
    first.hook.rank < second.hook.rank ∨ (first.hook = second.hook ∧ first.rule < second.rule) := by
  rcases h with hOrder | ⟨-, hLater⟩
  · rw [hPath] at hOrder
    exact absurd hOrder (Path.order_ne_lt_of_prefix List.prefix_rfl)
  · exact hLater

end Turn

section Order

variable {rules : List ActiveRule} {suppressed : List String} {path : Path} {declared : Payload}
  {hook : Hook}

theorem mem_roundAt {listening : Hook → List String → List Nat} {turn : Turn}
    (hTurn : turn ∈ roundAt listening suppressed path declared hook) :
    turn.path = path ∧ turn.declared = declared ∧ turn.hook = hook := by
  obtain ⟨rule, -, rfl⟩ := List.mem_map.mp hTurn
  exact ⟨rfl, rfl, rfl⟩

theorem pairwise_roundAt (hRules : rules.Pairwise fun first second => first.index < second.index) :
    (roundAt (ActiveRule.listening rules) suppressed path declared hook).Pairwise
      Turn.Precedes := by
  rw [roundAt, ActiveRule.listening, List.map_map, List.pairwise_map]
  refine (hRules.filter _).imp fun hLess => ?_
  exact .inr ⟨rfl, .inr ⟨rfl, hLess⟩⟩

theorem Node.pairwise_hooks (node : Node) :
    node.hooks.Pairwise fun first second => first.rank < second.rank := by
  unfold hooks
  split
  · exact List.pairwise_singleton ..
  · split
    · exact .cons (by simp [Hook.rank]) (List.pairwise_singleton ..)
    · exact List.pairwise_singleton ..

/-- The turns of one declaration are in order. -/
theorem pairwise_rounds (hRules : rules.Pairwise fun first second => first.index < second.index)
    (node : Node) :
    (node.hooks.flatMap
      (roundAt (ActiveRule.listening rules) suppressed path node.payload)).Pairwise
      Turn.Precedes := by
  rw [List.pairwise_flatMap]
  refine ⟨fun hook _ => pairwise_roundAt hRules, node.pairwise_hooks.imp ?_⟩
  intro first second hLess earlier hEarlier later hLater
  obtain ⟨hFirstPath, -, hFirstHook⟩ := mem_roundAt hEarlier
  obtain ⟨hSecondPath, -, hSecondHook⟩ := mem_roundAt hLater
  refine .inr ⟨hFirstPath.trans hSecondPath.symm, .inl ?_⟩
  rwa [hFirstHook, hSecondHook]

/-- A turn for a declaration, told from where it is in the schedule. -/
theorem mem_rounds {root : Node} {turn : Turn}
    (hTurn : turn ∈ root.declarations.flatMap fun entry => entry.2.hooks.flatMap
      (roundAt (ActiveRule.listening rules) (root.suppressedAt entry.1) entry.1 entry.2.payload)) :
    ∃ node, root.descendant? turn.path = some node ∧ Run.isDeclaration node.kind = true ∧
      turn.declared = node.payload ∧ turn.hook ∈ node.hooks := by
  obtain ⟨⟨path, node⟩, hEntry, hRounds⟩ := List.mem_flatMap.mp hTurn
  obtain ⟨hook, hHook, hRound⟩ := List.mem_flatMap.mp hRounds
  obtain ⟨hPath, hDeclared, hSame⟩ := mem_roundAt hRound
  obtain ⟨hMember, hKind⟩ := List.mem_filter.mp hEntry
  refine ⟨node, ?_, hKind, hDeclared, ?_⟩
  · rw [hPath]
    exact Node.mem_preorder.mp hMember
  · rwa [hSame]

/-- The turns that a file asks for are in order. -/
theorem pairwise_schedule (hRules : rules.Pairwise fun first second => first.index < second.index)
    {root : Node} (hFile : root.kind = .file) : (schedule rules root).Pairwise Turn.Precedes := by
  rw [schedule, List.pairwise_append]
  refine ⟨pairwise_roundAt hRules, List.pairwise_flatMap.mpr ⟨fun entry _ =>
    pairwise_rounds hRules entry.2, ?_⟩, ?_⟩
  · refine ((Node.pairwise_preorderFrom [] root).filter _).imp ?_
    intro first second hOrder earlier hEarlier later hLater
    obtain ⟨hook, -, hFirst⟩ := List.mem_flatMap.mp hEarlier
    obtain ⟨hook, -, hSecond⟩ := List.mem_flatMap.mp hLater
    refine .inl ?_
    rwa [(mem_roundAt hFirst).1, (mem_roundAt hSecond).1]
  · intro earlier hEarlier later hLater
    obtain ⟨node, hNode, hKind, -, -⟩ := mem_rounds hLater
    refine .inl ?_
    rw [(mem_roundAt hEarlier).1]
    cases hPath : later.path with
    | nil =>
        rw [hPath] at hNode
        cases hNode
        rw [hFile] at hKind
        cases hKind
    | cons index path => rfl

/-- Every turn that a well-formed file asks for suits its hook. -/
theorem exists_subject_of_mem_schedule {root : Node} (h : root.WellFormed)
    (hFile : root.kind = .file) {turn : Turn} (hTurn : turn ∈ schedule rules root) :
    ∃ subject, Subject.of? turn.hook turn.declared = some subject := by
  rcases List.mem_append.mp hTurn with hRound | hRounds
  · obtain ⟨-, hDeclared, hHook⟩ := mem_roundAt hRound
    have hFits := h.fits
    rw [hFile] at hFits
    rw [hDeclared, hHook]
    cases hPayload : root.payload <;> simp_all [Payload.fits, Subject.of?]
  · obtain ⟨node, hNode, hKind, hDeclared, hHook⟩ := mem_rounds hRounds
    have hFits := (h.descendant hNode).fits
    rw [hDeclared]
    unfold Node.hooks at hHook
    split at hHook
    · rename_i hType
      rw [hType] at hFits
      rw [List.mem_singleton.mp hHook]
      cases hPayload : node.payload <;> simp_all [Payload.fits, Subject.of?]
    · rename_i hOther
      have hFunction : node.kind = .functionDeclaration := by
        simpa [Run.isDeclaration, hOther] using hKind
      rw [hFunction] at hFits
      have hHooks : turn.hook = .function ∨ turn.hook = .composable := by
        rw [List.mem_cons] at hHook
        refine hHook.imp id fun hRest => ?_
        split at hRest
        · exact List.mem_singleton.mp hRest
        · cases hRest
      rcases hHooks with hSame | hSame <;> rw [hSame] <;>
        cases hPayload : node.payload <;> simp_all [Payload.fits, Subject.of?]

end Order

namespace Node

/-- What has been appended asks for nothing, if the extra node does not. -/
theorem turnsFrom_appendAt {listening : Hook → List String → List Nat} {extra : Node}
    (hExtra : ∀ path suppressed, extra.turnsFrom listening path suppressed = [])
    (chosen : Path → Bool) (path : Path) (suppressed : List String) (node : Node) :
    (node.appendAt extra chosen).turnsFrom listening path suppressed =
      node.turnsFrom listening path suppressed := by
  induction node using inductionOn generalizing chosen path suppressed with
  | step kind span payload children ih =>
      have hOld : ∀ suppressed start index, turnsOfAll listening path suppressed start
          (appendAtAll children extra chosen index) =
          turnsOfAll listening path suppressed start children := by
        intro suppressed start index
        induction children generalizing start index with
        | nil => rfl
        | cons child children ihAll =>
            rw [appendAtAll, turnsOfAll, turnsOfAll, ih child (by simp),
              ihAll fun c hc => ih c (by simp [hc])]
      have hNew : ∀ suppressed start, turnsOfAll listening path suppressed start
          (if chosen [] then [extra] else []) = [] := by
        intro suppressed start
        split
        · rw [turnsOfAll, hExtra, turnsOfAll, List.append_nil]
        · rfl
      rw [turnsFrom_eq, turnsFrom_eq]
      simp only [kind_appendAt, payload_appendAt, children_appendAt, turnsOfAll_append, hOld, hNew,
        List.append_nil, hooks]

end Node

/-- A file that has grown asks for the same calls. -/
theorem schedule_grown (rules : List ActiveRule) {extra root grown : Node} {chosen : Path → Bool}
    (h : Node.GrownTo extra root chosen grown) (hFile : root.kind = .file)
    (hExtra : ∀ path suppressed,
      extra.turnsFrom (ActiveRule.listening rules) path suppressed = []) :
    schedule rules grown = schedule rules root := by
  have hWhole : ∀ path suppressed,
      Node.turnsOfAll (ActiveRule.listening rules) path suppressed 0 grown.children =
        Node.turnsOfAll (ActiveRule.listening rules) path suppressed 0 root.children := by
    intro path suppressed
    have hTurns := Node.turnsFrom_shape (ActiveRule.listening rules) path suppressed grown
    rw [h, Node.turnsFrom_shape, Node.turnsFrom_appendAt hExtra] at hTurns
    simpa [Node.turnsFrom_eq, h.kind, hFile, Run.isDeclaration] using hTurns.symm
  rw [schedule_eq_turnsOfAll rules (h.kind.trans hFile), schedule_eq_turnsOfAll rules hFile,
    Node.suppressedAt_nil, Node.suppressedAt_nil, h.payload, hWhole]

end UiLint
