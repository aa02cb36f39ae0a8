import UiLint.Proofs.Engine.Run

/-! Rules that are suppressed by the marks on the file. A run in which a rule is suppressed
everywhere goes in step with the run that does not have the rule, whatever the two do to the tree on
their way. -/
namespace UiLint

namespace Node

/-- The node with a file header. -/
def withHeader (node : Node) (header : FileHeader) : Node :=
  { node with payload := .file header }

variable (node : Node) (header : FileHeader) {path : Path}

theorem withHeader_of_payload {node : Node} {header : FileHeader} (h : node.payload = .file header) :
    node.withHeader header = node := by
  cases node
  rw [withHeader, ← h]

theorem height_withHeader : (node.withHeader header).height = node.height := by
  cases node
  rw [withHeader, height, height]

theorem text_withHeader {node : Node} {other : FileHeader} (h : node.payload = .file other)
    (header : FileHeader) : (node.withHeader header).text = node.text := by
  rw [text_eq, text_eq, h]
  rfl

theorem descendant?_withHeader (hPath : path ≠ []) :
    (node.withHeader header).descendant? path = node.descendant? path := by
  cases path with
  | nil => exact absurd rfl hPath
  | cons index path => rw [descendant?_cons, descendant?_cons, withHeader]

theorem map_children_withHeader (path : Path) :
    ((node.withHeader header).descendant? path).map children =
      (node.descendant? path).map children := by
  cases path with
  | nil => rfl
  | cons index path => rw [descendant?_withHeader _ _ (List.cons_ne_nil _ _)]

theorem replaceAt_withHeader (hPath : path ≠ []) (new : Node) :
    (node.withHeader header).replaceAt path new = (node.replaceAt path new).withHeader header := by
  cases path with
  | nil => exact absurd rfl hPath
  | cons index path => rw [replaceAt, replaceAt, withHeader, withHeader]

theorem shiftAfter_withHeader (hPath : path ≠ []) (distance : Int) :
    (node.withHeader header).shiftAfter distance path =
      (node.shiftAfter distance path).map (·.withHeader header) := by
  cases path with
  | nil => exact absurd rfl hPath
  | cons index path =>
      simp only [shiftAfter, withHeader]
      cases moveOffset? node.span.stop distance with
      | none => rfl
      | some stop =>
          cases shiftAll distance (node.children.drop (index + 1)) with
          | error error => rfl
          | ok following =>
              cases node.children[index]? with
              | none => rfl
              | some child =>
                  simp only
                  cases child.shiftAfter distance path <;> rfl

theorem firstMisplaced?_withHeader (previous : Nat) (children : List Node) :
    firstMisplaced? (node.withHeader header) previous children =
      firstMisplaced? node previous children := by
  induction children generalizing previous with
  | nil => rfl
  | cons child children ih =>
      rw [firstMisplaced?, firstMisplaced?, ih]
      rfl

theorem faultAlong?_withHeader (hPath : path ≠ []) (whole : Path) :
    faultAlong? whole (node.withHeader header) path = faultAlong? whole node path := by
  cases path with
  | nil => exact absurd rfl hPath
  | cons index path =>
      have hFault : (node.withHeader header).childFault? = node.childFault? :=
        firstMisplaced?_withHeader node header _ _
      rw [faultAlong?, faultAlong?, hFault, withHeader]

end Node

namespace SourceTree

/-- The tree with another file header. -/
def withHeader (tree : SourceTree) (header : FileHeader) : SourceTree :=
  ⟨tree.root.withHeader header⟩

/-- Below the root, a node is replaced in the same way whatever the file says about itself. -/
theorem replaceSubtree_withHeader (tree : SourceTree) (header : FileHeader) {path : Path}
    (hPath : path ≠ []) (new : Node) :
    (tree.withHeader header).replaceSubtree path new =
      (tree.replaceSubtree path new).map (·.withHeader header) := by
  simp only [replaceSubtree, withHeader, Node.descendant?_withHeader _ _ hPath,
    Node.replaceAt_withHeader _ _ hPath, Node.shiftAfter_withHeader _ _ hPath]
  cases tree.root.descendant? path with
  | none => rfl
  | some old =>
      simp only
      split
      · cases endDistance old.span.stop new.span.stop with
        | error error => rfl
        | ok distance =>
            simp only
            cases (tree.root.replaceAt path new).shiftAfter distance path with
            | error error => rfl
            | ok root =>
                simp only [Except.map, Node.faultAlong?_withHeader _ _ hPath]
                cases root.faultAlong? path path <;> rfl
      · rfl

/-- A file header stays through changes below the root. -/
theorem payload_replaceSubtree {tree changed : SourceTree} {header : FileHeader}
    {path : Path} {new : Node} (h : tree.root.payload = .file header) (hPath : path ≠ [])
    (hChanged : tree.replaceSubtree path new = .ok changed) :
    changed.root.payload = .file header := by
  have hSame := tree.replaceSubtree_withHeader header hPath new
  rw [withHeader, Node.withHeader_of_payload h, hChanged] at hSame
  exact congrArg (·.root.payload) (Except.ok.inj hSame)

end SourceTree

/-- The visitor answers alike in files that differ in what they say about themselves. -/
def Visitor.OverlooksFile (visitor : Visitor) : Prop :=
  ∀ state subject root header other path node fixing, root.payload = .file header →
    visitor.visit state ⟨subject, ⟨root.withHeader other, path, node⟩, fixing⟩ =
      visitor.visit state ⟨subject, ⟨root, path, node⟩, fixing⟩

namespace ActiveRule

variable {rule : ActiveRule} (h : rule.visitor.OverlooksFile) (fixing : Bool) (hook : Hook)
include h

theorem answer_withHeader {root : Node} {header : FileHeader} (hRoot : root.payload = .file header)
    (other : FileHeader) (path : Path) (node : Node) :
    rule.answer fixing hook ⟨root.withHeader other, path, node⟩ =
      rule.answer fixing hook ⟨root, path, node⟩ := by
  unfold answer
  simp only
  split
  · rfl
  · rw [Visitor.call, Visitor.call, h _ _ root header other path node fixing hRoot]

theorem overlooksFile_answer (site : Site) :
    (rule.answer fixing hook site).1.visitor.OverlooksFile := by
  unfold answer
  split
  · exact h
  · exact fun _ => h _

end ActiveRule

/-- The first run has gone as far as the second, in a tree with another file header. -/
structure Progress.InStep (header marked : FileHeader) (first second : Progress) : Prop where
  tree : first.tree = second.tree.withHeader marked
  file : second.tree.root.payload = .file header
  findings : first.findings = second.findings
  aborted : first.aborted = second.aborted

namespace Progress.InStep

variable {header marked : FileHeader} {first second : Progress}
  (h : Progress.InStep header marked first second)
include h

theorem fail (rule offset : Nat) (detail : String) :
    InStep header marked (first.fail rule offset detail) (second.fail rule offset detail) where
  tree := h.tree
  file := h.file
  findings := by rw [Progress.fail, Progress.fail, h.findings]
  aborted := h.aborted

theorem stop (error : LayoutError) :
    InStep header marked { first with aborted := some error }
      { second with aborted := some error } where
  tree := h.tree
  file := h.file
  findings := h.findings
  aborted := rfl

variable {path : Path} (hPath : path ≠ []) (root other node : Node)

/-- The same remarks are kept of a call for the same node. -/
theorem tell (path : Path) (rule : Nat) (hook : Hook) (fixing : Bool) (response : Response) :
    InStep header marked (first.tell ⟨rule, hook, ⟨root, path, node⟩, fixing, response⟩)
      (second.tell ⟨rule, hook, ⟨other, path, node⟩, fixing, response⟩) where
  tree := h.tree
  file := h.file
  findings := by rw [Progress.tell, Progress.tell, h.findings]
  aborted := h.aborted

include hPath

/-- Edits below the root do the same to both trees. -/
theorem edit (rule : Nat) (edits : List Edit) (place : Nat) :
    InStep header marked (first.edit rule ⟨root, path, node⟩ edits place)
      (second.edit rule ⟨other, path, node⟩ edits place) := by
  simp only [Progress.edit]
  cases Edit.applyAll path node edits with
  | error failure =>
      cases failure with
      | rule error => exact h.fail ..
      | layout error => exact h.stop error
  | ok result =>
      simp only
      rw [h.tree, SourceTree.replaceSubtree_withHeader _ _ hPath]
      cases hTree : second.tree.replaceSubtree path result.1 with
      | error error => exact ⟨rfl, h.file, h.findings, rfl⟩
      | ok tree =>
          refine ⟨rfl, SourceTree.payload_replaceSubtree h.file hPath hTree, ?_, h.aborted⟩
          simp only [Except.map, h.findings]

/-- A call below the root does the same to both runs if it is answered alike. -/
theorem take (rule : Nat) (hook : Hook) (fixing : Bool) (response : Response) :
    InStep header marked (first.take ⟨rule, hook, ⟨root, path, node⟩, fixing, response⟩)
      (second.take ⟨rule, hook, ⟨other, path, node⟩, fixing, response⟩) := by
  have hTold := h.tell root other node path rule hook fixing response
  simp only [Progress.take, Call.edits]
  cases response.ending.failure? with
  | some detail => exact hTold.fail ..
  | none =>
      simp only
      generalize (if fixing = true then response.edits else []) = edits
      cases edits with
      | nil => exact hTold
      | cons edit edits =>
          rw [h.findings]
          exact hTold.edit hPath ..

end Progress.InStep

/-- The first list names the rule and all that the second list names. -/
def SuppressesToo (rule : String) (first second : List String) : Prop :=
  ∀ name, name ∈ first ↔ name = rule ∨ name ∈ second

namespace SuppressesToo

variable {rule : String} {first second : List String} (h : SuppressesToo rule first second)
include h

theorem append_left (more : List String) : SuppressesToo rule (more ++ first) (more ++ second) := by
  intro name
  rw [List.mem_append, List.mem_append, h name, or_left_comm]

theorem listens_of_suppressed {active : ActiveRule} (hName : active.name = rule) (hook : Hook) :
    active.listens hook first = false := by
  have hThere : first.contains active.name = true :=
    List.contains_iff_mem.mpr ((h active.name).mpr (.inl hName))
  rw [ActiveRule.listens, hThere, Bool.not_true, Bool.and_false]

theorem listens_of_other {active : ActiveRule} (hName : active.name ≠ rule) (hook : Hook) :
    active.listens hook first = active.listens hook second := by
  have hSame : first.contains active.name = second.contains active.name := by
    rw [Bool.eq_iff_iff, List.contains_iff_mem, List.contains_iff_mem, h active.name]
    simp [hName]
  rw [ActiveRule.listens, ActiveRule.listens, hSame]

end SuppressesToo

/-- The second run has the rules of the first but for the suppressed one, and has gone as far. -/
structure Run.InStep (rule : String) (header marked : FileHeader) (first second : Run) : Prop where
  rules : second.rules = first.rules.filter (·.name != rule)
  overlook : ∀ active ∈ first.rules, active.visitor.OverlooksFile
  progress : first.progress.InStep header marked second.progress

section InStep

variable {rule : String} {header marked : FileHeader} {path : Path} {suppressed others : List String}
  (fixing : Bool) (hook : Hook) (hPath : path ≠ [])

namespace ActiveRule

/-- A call changes nothing about the name of a rule. -/
theorem name_invoke (active : ActiveRule) (progress : Progress) :
    (active.invoke fixing hook path progress).1.name = active.name := by
  unfold invoke
  split
  · rfl
  · rename_i site _
    obtain ⟨visitor, hAnswer⟩ := active.answer_fst fixing hook site
    simp only
    rw [hAnswer]

include hPath

/-- One call of the same rule in both runs. -/
theorem invoke_inStep {active : ActiveRule} (hActive : active.visitor.OverlooksFile)
    {first second : Progress} (h : first.InStep header marked second) :
    (active.invoke fixing hook path first).1 = (active.invoke fixing hook path second).1 ∧
      (active.invoke fixing hook path first).1.visitor.OverlooksFile ∧
      (active.invoke fixing hook path first).2.InStep header marked
        (active.invoke fixing hook path second).2 := by
  have hSite : Site.at? first.tree.root path = (second.tree.root.descendant? path).map fun node =>
      ⟨second.tree.root.withHeader marked, path, node⟩ := by
    rw [h.tree, Site.at?]
    exact congrArg _ (Node.descendant?_withHeader _ _ hPath)
  rw [invoke, invoke, hSite, Site.at?]
  cases second.tree.root.descendant? path with
  | none => exact ⟨rfl, hActive, h.stop _⟩
  | some node =>
      simp only [Option.map_some]
      rw [answer_withHeader hActive fixing hook h.file]
      exact ⟨rfl, overlooksFile_answer hActive fixing hook _, h.take hPath ..⟩

/-- A round of calls below the root, in both runs. -/
theorem dispatch_inStep (hSuppressed : SuppressesToo rule suppressed others)
    {rules : List ActiveRule} (hRules : ∀ active ∈ rules, active.visitor.OverlooksFile)
    {first second : Progress} (h : first.InStep header marked second) :
    Run.InStep rule header marked (Run.dispatch ⟨rules, first⟩ fixing hook path suppressed)
      (Run.dispatch ⟨rules.filter (·.name != rule), second⟩ fixing hook path others) := by
  induction rules generalizing first second with
  | nil => exact ⟨rfl, hRules, h⟩
  | cons active rules ih =>
      simp only [Run.dispatch] at ih ⊢
      by_cases hStopped : first.aborted.isSome = true
      · rw [dispatch_of_aborted _ hStopped, dispatch_of_aborted _ (h.aborted ▸ hStopped)]
        exact ⟨rfl, hRules, h⟩
      · rw [List.forall_mem_cons] at hRules
        by_cases hName : active.name = rule
        · -- The rule is passed over in the first run and not there in the second.
          have hDeaf := hSuppressed.listens_of_suppressed hName hook
          obtain ⟨hRest, hOverlook, hProgress⟩ := ih hRules.2 h
          rw [dispatch_cons_of_deaf rules hStopped (by simp [hDeaf]),
            List.filter_cons_of_neg (by simp [hName])]
          refine ⟨?_, List.forall_mem_cons.mpr ⟨hRules.1, hOverlook⟩, hProgress⟩
          rw [List.filter_cons_of_neg (by simp [hName])]
          exact hRest
        · -- Any other rule listens in both runs or in neither.
          have hRunning : ¬ second.aborted.isSome = true := h.aborted ▸ hStopped
          have hKept : (active.name != rule) = true := by simp [hName]
          rw [List.filter_cons_of_pos (by exact hKept), dispatch, dispatch, if_neg hStopped,
            if_neg hRunning, hSuppressed.listens_of_other hName hook]
          by_cases hListens : active.listens hook others = true
          · obtain ⟨hSame, hStill, hNext⟩ := invoke_inStep fixing hook hPath hRules.1 h
            obtain ⟨hRest, hOverlook, hProgress⟩ := ih hRules.2 hNext
            simp only [if_pos hListens]
            refine ⟨?_, List.forall_mem_cons.mpr ⟨hStill, hOverlook⟩, hProgress⟩
            rw [List.filter_cons_of_pos (by rw [name_invoke]; exact hKept), ← hSame]
            exact congrArg _ hRest
          · obtain ⟨hRest, hOverlook, hProgress⟩ := ih hRules.2 h
            simp only [if_neg hListens]
            refine ⟨?_, List.forall_mem_cons.mpr ⟨hRules.1, hOverlook⟩, hProgress⟩
            rw [List.filter_cons_of_pos (by exact hKept)]
            exact congrArg _ hRest

end ActiveRule

end InStep

namespace Run.InStep

variable {rule : String} {header marked : FileHeader} {path : Path} {suppressed others : List String}
  {first second : Run} (fixing : Bool)

theorem dispatch (h : InStep rule header marked first second) (hPath : path ≠ [])
    (hSuppressed : SuppressesToo rule suppressed others) (hook : Hook) :
    InStep rule header marked (first.dispatch fixing hook path suppressed)
      (second.dispatch fixing hook path others) := by
  have hNext :=
    ActiveRule.dispatch_inStep fixing hook hPath hSuppressed h.overlook h.progress
  rw [← h.rules] at hNext
  exact hNext

theorem visitDeclaration (h : InStep rule header marked first second) (hPath : path ≠ [])
    (hSuppressed : SuppressesToo rule suppressed others) (declaration : Node) :
    InStep rule header marked (first.visitDeclaration fixing declaration path suppressed)
      (second.visitDeclaration fixing declaration path others) := by
  unfold Run.visitDeclaration
  split
  · exact h.dispatch fixing hPath hSuppressed .type
  · have hTold := h.dispatch fixing hPath hSuppressed .function
    split
    · exact hTold.dispatch fixing hPath hSuppressed .composable
    · exact hTold

theorem walkAt (h : InStep rule header marked first second) (hPath : path ≠ [])
    (hSuppressed : SuppressesToo rule suppressed others) {descend : Path → List String → Run → Run}
    (hDescend : ∀ path {suppressed others : List String} {first second : Run},
      SuppressesToo rule suppressed others → InStep rule header marked first second →
      InStep rule header marked (descend path suppressed first) (descend path others second)) :
    InStep rule header marked (walkAt fixing descend path suppressed first)
      (walkAt fixing descend path others second) := by
  unfold Run.walkAt
  rw [h.progress.aborted]
  split
  · exact h
  · rw [h.progress.tree, SourceTree.withHeader, Node.descendant?_withHeader _ _ hPath]
    cases second.progress.tree.root.descendant? path with
    | none => exact h
    | some node =>
        simp only
        split
        · exact h
        · split
          · have hInner := hSuppressed.append_left (suppressedBy node.payload.annotations)
            exact hDescend path hInner (h.visitDeclaration fixing hPath hInner node)
          · exact hDescend path hSuppressed h

theorem walkBelow (depth : Nat) (path : Path) {suppressed others : List String} {first second : Run}
    (hSuppressed : SuppressesToo rule suppressed others)
    (h : InStep rule header marked first second) :
    InStep rule header marked (walkBelow fixing depth path suppressed first)
      (walkBelow fixing depth path others second) := by
  induction depth generalizing path suppressed others first second with
  | zero => exact h
  | succ depth ih =>
      have hChildren : (first.progress.tree.root.descendant? path).map Node.children =
          (second.progress.tree.root.descendant? path).map Node.children := by
        rw [h.progress.tree]
        exact Node.map_children_withHeader ..
      rw [Run.walkBelow, Run.walkBelow]
      cases hFirst : first.progress.tree.root.descendant? path with
      | none =>
          rw [hFirst] at hChildren
          rw [Option.map_eq_none_iff.mp hChildren.symm]
          exact h
      | some node =>
          rw [hFirst] at hChildren
          obtain ⟨other, hSecond, hSame⟩ := Option.map_eq_some_iff.mp hChildren.symm
          simp only [hSecond, hSame]
          generalize List.range node.children.length = places
          clear hFirst hSecond hChildren
          induction places generalizing first second with
          | nil => exact h
          | cons place places ihAll =>
              rw [List.foldl_cons, List.foldl_cons]
              exact ihAll (h.walkAt fixing (by simp [Path.child]) hSuppressed fun path => ih path)

/-- Both runs stay in step to the end if no rule is called for the file as a whole. -/
theorem walk (h : InStep rule header marked first second)
    (hFile : ∀ active ∈ first.rules, active.hooks.contains .file = false)
    (hSuppressed : SuppressesToo rule (suppressedBy marked.annotations)
      (suppressedBy header.annotations)) :
    InStep rule header marked (first.walk fixing) (second.walk fixing) := by
  have hFileToo : ∀ active ∈ second.rules, active.hooks.contains .file = false := by
    intro active hActive
    rw [h.rules] at hActive
    exact hFile active (List.mem_filter.mp hActive).1
  simp only [Run.walk]
  rw [Run.dispatch_of_deaf hFile, Run.dispatch_of_deaf hFileToo, h.progress.file, h.progress.tree,
    SourceTree.withHeader, Node.height_withHeader]
  exact walkBelow fixing _ [] hSuppressed h

end Run.InStep

/-- A rule that the marks on a file suppress might as well not be there, if the rules do not look at
those marks themselves and are not called for the file as a whole. -/
theorem runRules_inStep {rule : String} {header marked : FileHeader} {rules : List ActiveRule}
    {tree : SourceTree} (hTree : tree.root.payload = .file header)
    (hOverlook : ∀ active ∈ rules, active.visitor.OverlooksFile)
    (hFile : ∀ active ∈ rules, active.hooks.contains .file = false)
    (hSuppressed : SuppressesToo rule (suppressedBy marked.annotations)
      (suppressedBy header.annotations)) (fixing : Bool) :
    (runRules rules (tree.withHeader marked) fixing).InStep header marked
      (runRules (rules.filter (·.name != rule)) tree fixing) := by
  have hStart : Run.InStep rule header marked ⟨rules, { tree := tree.withHeader marked }⟩
      ⟨rules.filter (·.name != rule), { tree }⟩ :=
    ⟨rfl, hOverlook, rfl, hTree, rfl, rfl⟩
  exact (hStart.walk fixing hFile hSuppressed).progress

end UiLint
