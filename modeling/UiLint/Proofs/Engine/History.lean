import UiLint.Proofs.Engine.Findings
import UiLint.Proofs.Tree.Anchor
import UiLint.Proofs.Tree.Shape

/-! A run as a history of edits. Calls edit copies of the nodes they are made for; seen from the
root, they come to one list of edits of the whole file, which moves all findings. -/
namespace UiLint

theorem Node.replaceAt_append {node inner : Node} {first : Path}
    (hInner : node.descendant? first = some inner) (second : Path) (new : Node) :
    node.replaceAt (first ++ second) new = node.replaceAt first (inner.replaceAt second new) := by
  induction first generalizing node with
  | nil =>
      cases hInner
      rfl
  | cons index first ih =>
      obtain ⟨child, hChild, hRest⟩ := descendant?_cons_eq_some_iff.mp hInner
      rw [List.cons_append, replaceAt_cons _ _ hChild, replaceAt_cons _ _ hChild, ih hRest]

theorem Node.replaceAt_self {node below : Node} {path : Path}
    (hBelow : node.descendant? path = some below) : node.replaceAt path below = node := by
  induction path generalizing node with
  | nil =>
      cases hBelow
      rfl
  | cons index path ih =>
      obtain ⟨child, hChild, hRest⟩ := descendant?_cons_eq_some_iff.mp hBelow
      obtain ⟨hIndex, hSame⟩ := List.getElem?_eq_some_iff.mp hChild
      rw [replaceAt_cons _ _ hChild, ih hRest, ← hSame, ← List.drop_eq_getElem_cons hIndex,
        List.take_append_drop]
      cases node
      rfl

/-- The last replacement wins. -/
theorem Node.replaceAt_replaceAt (node : Node) (path : Path) (first second : Node) :
    (node.replaceAt path first).replaceAt path second = node.replaceAt path second := by
  induction path generalizing node with
  | nil => rfl
  | cons index path ih =>
      rw [replaceAt, replaceAt, replaceAt, List.modify_modify_eq]
      simp [Function.comp_def, ih]

namespace Edit

/-- The edit of a node at `scope`, seen from the root. -/
def lift (scope : Path) (edit : Edit) : Edit :=
  ⟨scope ++ edit.target, edit.change⟩

theorem redraftAll?_append (node : Node) (first second : List Edit) :
    redraftAll? node (first ++ second) = (redraftAll? node first).bind (redraftAll? · second) := by
  induction first generalizing node with
  | nil => rfl
  | cons edit first ih =>
      rw [List.cons_append, redraftAll?, redraftAll?]
      cases edit.redraft? node with
      | none => rfl
      | some next => exact ih next

theorem shifts_append {node next : Node} {first : List Edit}
    (hNext : redraftAll? node first = some next) (second : List Edit) :
    shifts node (first ++ second) = shifts node first ++ shifts next second := by
  induction first generalizing node with
  | nil =>
      cases hNext
      rfl
  | cons edit first ih =>
      obtain ⟨draft, hDraft, hRest⟩ := Option.bind_eq_some_iff.mp hNext
      obtain ⟨target, changed, hTarget, -, -⟩ := redraft?_eq_some hDraft
      simp only [List.cons_append, shifts, hTarget, hDraft, ih hRest]

theorem drafts_append {node next : Node} {first : List Edit}
    (hNext : redraftAll? node first = some next) (second : List Edit) :
    drafts node (first ++ second) = drafts node first ++ drafts next second := by
  induction first generalizing node with
  | nil =>
      cases hNext
      rfl
  | cons edit first ih =>
      obtain ⟨draft, hDraft, hRest⟩ := Option.bind_eq_some_iff.mp hNext
      simp only [List.cons_append, drafts, hDraft, ih hRest]

section Lift

variable {root node : Node} {scope : Path} {start : Nat} (hRoot : root.WellFormed)
  (hLaid : root.layout start = root) (hNode : root.descendant? scope = some node)
include hRoot hLaid hNode

/-- An edit of a node is an edit of all that the node is part of. -/
theorem redraft?_lift {edit : Edit} {next : Node} (hNext : edit.redraft? node = some next) :
    (edit.lift scope).redraft? root = some ((root.replaceAt scope next).layout start) := by
  obtain ⟨target, changed, hTarget, hChanged, rfl⟩ := redraft?_eq_some hNext
  have hThere : root.descendant? (scope ++ edit.target) = some target := by
    rw [Node.descendant?_append, hNode, Option.bind_some, hTarget]
  simp only [redraft?, lift, hThere, hChanged, Option.map_some]
  rw [Node.start_of_layout_eq hLaid, Node.replaceAt_append hNode,
    Node.layout_replaceAt_layout hRoot hNode]

/-- What has the changed node in it has that node where it was. -/
theorem descendant?_redraft {next : Node} (hNext : next.Canonical)
    (hStart : next.span.start = node.span.start) :
    ((root.replaceAt scope next).layout start).descendant? scope = some next := by
  have hAt := Node.start_of_layout_eq (Node.layout_start_of_descendant hRoot hLaid hNode)
  rw [Node.descendant?_layout (hRoot.replaceAt hNext.wellFormed scope),
    Node.descendant?_replaceAt_self hNode, Option.map_some, Node.offsetAt_replaceAt_self hNode,
    ← hAt, ← hStart, hNext.laid]

end Lift

theorem shape_replaceAt_redraft (root : Node) (scope : Path) (first second : Node) (start : Nat) :
    (((root.replaceAt scope first).layout start).replaceAt scope second).shape =
      (root.replaceAt scope second).shape := by
  rw [Node.shape_replaceAt, Node.shape_layout, ← Node.shape_replaceAt, Node.replaceAt_replaceAt]

/-- Edits of a node are edits of all that the node is part of, and move the same. Their drafts are
those of the node, put in its place. -/
theorem redraftAll?_lift {root node last : Node} {scope : Path} {edits : List Edit} {start : Nat}
    (hRoot : root.WellFormed) (hLaid : root.layout start = root)
    (hNode : root.descendant? scope = some node) (hLast : redraftAll? node edits = some last) :
    redraftAll? root (edits.map (lift scope)) = some ((root.replaceAt scope last).layout start) ∧
      shifts root (edits.map (lift scope)) = shifts node edits ∧
      ∀ draft ∈ drafts root (edits.map (lift scope)), ∃ inner ∈ drafts node edits,
        draft.size = (root.replaceAt scope inner).size := by
  induction edits generalizing root node with
  | nil =>
      cases hLast
      rw [Node.replaceAt_self hNode, hLaid]
      exact ⟨rfl, rfl, by simp [drafts]⟩
  | cons edit edits ih =>
      obtain ⟨next, hNext, hRest⟩ := Option.bind_eq_some_iff.mp hLast
      obtain ⟨target, changed, hTarget, -, -⟩ := redraft?_eq_some hNext
      have hCanonical : node.Canonical := ⟨hRoot.descendant hNode, by
        have hAt := Node.layout_start_of_descendant hRoot hLaid hNode
        rw [Node.start_of_layout_eq hAt, hAt]⟩
      obtain ⟨hNextCanonical, hStart⟩ := canonical_redraft? hCanonical hNext
      have hWell := hRoot.replaceAt hNextCanonical.wellFormed scope
      have hFile := redraft?_lift hRoot hLaid hNode hNext
      have hThere := descendant?_redraft hRoot hLaid hNode hNextCanonical hStart
      obtain ⟨hAll, hMoves, hDrafts⟩ := ih (hWell.layout start) (Node.layout_layout ..) hThere hRest
      have hSame : (((root.replaceAt scope next).layout start).replaceAt scope last).layout start =
          (root.replaceAt scope last).layout start := by
        have hLastWell := (canonical_redraftAll? hNextCanonical hRest).1.wellFormed
        exact Node.layout_eq_of_shape ((hWell.layout start).replaceAt hLastWell scope)
          (hRoot.replaceAt hLastWell scope) (shape_replaceAt_redraft ..) start
      have hFileTarget : root.descendant? (edit.lift scope).target = some target := by
        rw [lift, Node.descendant?_append, hNode, Option.bind_some, hTarget]
      have hSize := Node.size_replaceAt hRoot hNode next
      rw [List.map_cons, redraftAll?, hFile, Option.bind_some, hAll, hSame]
      refine ⟨rfl, ?_, ?_⟩
      · simp only [shifts, hFileTarget, hFile, hTarget, hNext, hMoves, Node.size_layout,
          List.cons.injEq, Shift.mk.injEq, true_and, and_true]
        omega
      · intro draft hDraft
        simp only [drafts, hFile, hNext, List.mem_cons] at hDraft ⊢
        rcases hDraft with rfl | hDraft
        · exact ⟨next, .inl rfl, Node.size_layout ..⟩
        · obtain ⟨inner, hInner, hInnerSize⟩ := hDrafts draft hDraft
          refine ⟨inner, .inr hInner, ?_⟩
          rw [hInnerSize, ← Node.size_shape, shape_replaceAt_redraft, Node.size_shape]

end Edit

/-- The edits that a call makes in the file, if it changes anything. -/
def Call.changes (call : Call) : List Edit :=
  match call.draft? with
  | some _ => call.edits.map (Edit.lift call.site.path)
  | none => []

namespace Progress

/-- The progress after further calls. -/
def replay (progress : Progress) (calls : List Call) : Progress :=
  calls.foldl take progress

theorem replay_append (progress : Progress) (first second : List Call) :
    progress.replay (first ++ second) = (progress.replay first).replay second :=
  List.foldl_append

/-- Each of the calls is made in turn, for a node of the tree as it then is. -/
def Admits (fixing : Bool) (indices : List Nat) (progress : Progress) : List Call → Prop
  | [] => True
  | call :: calls =>
      (call.IsAt progress ∧ call.fixing = fixing ∧ call.rule ∈ indices) ∧
        Admits fixing indices (progress.take call) calls

theorem admits_append {fixing : Bool} {indices : List Nat} {progress : Progress}
    {first second : List Call} :
    Admits fixing indices progress (first ++ second) ↔
      Admits fixing indices progress first ∧ Admits fixing indices (progress.replay first) second := by
  induction first generalizing progress with
  | nil => simp [Admits, replay]
  | cons call first ih => simp [Admits, replay, ih, and_assoc]

/-- A run is the replay of its calls. -/
theorem runRules_eq_replay (rules : List ActiveRule) (tree : SourceTree) (fixing : Bool) :
    runRules rules tree fixing = replay { tree } (runRules rules tree fixing).calls ∧
      Admits fixing (rules.map (·.index)) { tree } (runRules rules tree fixing).calls := by
  refine runRules_induction (P := fun progress => progress = replay { tree } progress.calls ∧
    Admits fixing (rules.map (·.index)) { tree } progress.calls) fixing ?_ rules
    (fun rule => List.mem_map_of_mem) tree ⟨rfl, trivial⟩
  rintro progress call ⟨hReplay, hAdmits⟩ - hFixing hRule hAt
  rw [calls_take, admits_append]
  refine ⟨?_, hAdmits, ?_⟩
  · rw [replay_append, ← hReplay]
    rfl
  · rw [← hReplay]
    exact ⟨⟨hAt, hFixing, hRule⟩, trivial⟩

theorem Sound.replay {progress : Progress} (h : progress.Sound) {fixing : Bool} {indices : List Nat}
    {calls : List Call} (hAdmits : Admits fixing indices progress calls)
    (hFits : ∀ call ∈ calls, call.Fits) : (progress.replay calls).Sound := by
  induction calls generalizing progress with
  | nil => exact h
  | cons call calls ih =>
      rw [List.forall_mem_cons] at hFits
      exact ih (h.take hAdmits.1.1 hFits.1) hAdmits.2 hFits.2

/-- The finding is another one that has been moved, and perhaps fixed. -/
def IsMoved (shifts : List Shift) (finding moved : Finding) : Prop :=
  moved.offset = Shift.carryAll shifts finding.offset ∧ moved.rule = finding.rule ∧
    moved.message = finding.message

theorem IsMoved.trans {first second : List Shift} {finding middle last : Finding}
    (h : IsMoved first finding middle) (hNext : IsMoved second middle last) :
    IsMoved (first ++ second) finding last := by
  obtain ⟨hOffset, hRule, hMessage⟩ := h
  obtain ⟨hNextOffset, hNextRule, hNextMessage⟩ := hNext
  refine ⟨?_, hNextRule.trans hRule, hNextMessage.trans hMessage⟩
  rw [hNextOffset, hOffset, Shift.carryAll_append]

/-- The findings with those of a call added, before the edits of the call move them. -/
def report (progress : Progress) (call : Call) : List Finding :=
  if call.draft?.isSome then (progress.tell call).findings else (progress.take call).findings

theorem Sound.getElem?_report {progress : Progress} {call : Call} (h : progress.Sound)
    (hAt : call.IsAt progress) (hFits : call.Fits) {index : Nat} {finding : Finding}
    (hFinding : progress.findings[index]? = some finding) :
    (progress.report call)[index]? = some finding := by
  obtain ⟨hIndex, -⟩ := List.getElem?_eq_some_iff.mp hFinding
  unfold report
  cases hDraft : call.draft? with
  | none =>
      obtain ⟨failures, -, hFindings⟩ := h.findings_take_of_no_draft hAt hFits hDraft
      simp only [Option.isSome_none, Bool.false_eq_true, if_false]
      rw [hFindings, List.append_assoc, List.getElem?_append_left hIndex, hFinding]
  | some next =>
      simp only [Option.isSome_some, if_true]
      rw [findings_tell, List.getElem?_append_left hIndex, hFinding]

/-- One call makes its changes in the file, which fits at each of them, and moves every finding
with them. -/
theorem Sound.take_changes {progress : Progress} {call : Call} (h : progress.Sound)
    (hAt : call.IsAt progress) (hFits : call.Fits) :
    Edit.redraftAll? progress.tree.root call.changes = some (progress.take call).tree.root ∧
      (∀ draft ∈ Edit.drafts progress.tree.root call.changes, draft.size < distanceBound) ∧
      ∀ (index : Nat) (finding : Finding), (progress.report call)[index]? = some finding →
        ∃ moved, (progress.take call).findings[index]? = some moved ∧
          IsMoved (Edit.shifts progress.tree.root call.changes) finding moved := by
  unfold Call.changes report
  cases hDraft : call.draft? with
  | none =>
      refine ⟨?_, by simp [Edit.drafts], ?_⟩
      · rcases h.take_of_no_draft hAt hFits hDraft with hTake | ⟨detail, hTake⟩ <;> rw [hTake] <;> rfl
      · intro index finding hFinding
        exact ⟨finding, hFinding, rfl, rfl, rfl⟩
  | some next =>
      obtain ⟨hEnding, hSome, hAll⟩ := draft?_eq_some hDraft
      obtain ⟨hRedraft, hMoves, hDrafts⟩ := Edit.redraftAll?_lift h.canonical.wellFormed
        h.canonical.laid hAt.site.2 hAll
      simp only [hMoves]
      refine ⟨by rw [hRedraft, h.take_of_draft hAt hFits hDraft], ?_, ?_⟩
      · intro draft hMember
        obtain ⟨inner, hInner, hSize⟩ := hDrafts draft hMember
        rw [hSize]
        apply hFits
        rw [Call.stages, hEnding, hAt.site.1]
        exact List.mem_map_of_mem hInner
      · intro index finding hFinding
        simp only [Option.isSome_some, if_true] at hFinding
        rw [findings_tell] at hFinding
        rw [h.findings_take_of_draft hAt hFits hDraft]
        rcases Nat.lt_or_ge index progress.findings.length with hOld | hNew
        · rw [List.getElem?_append_left hOld] at hFinding
          rw [List.getElem?_append_left (by simpa using hOld), List.getElem?_map, hFinding]
          exact ⟨_, rfl, rfl, rfl, rfl⟩
        · rw [List.getElem?_append_right hNew] at hFinding
          rw [List.getElem?_append_right (by simpa using hNew), List.length_map,
            List.getElem?_map, List.getElem?_map, hFinding]
          exact ⟨_, rfl, rfl, rfl, rfl⟩

/-- Further calls make their changes in the file, which fits at each of them, and move every
finding with them. -/
theorem Sound.replay_changes {progress : Progress} (h : progress.Sound) {fixing : Bool}
    {indices : List Nat} {calls : List Call} (hAdmits : Admits fixing indices progress calls)
    (hFits : ∀ call ∈ calls, call.Fits) :
    Edit.redraftAll? progress.tree.root (calls.flatMap Call.changes) =
        some (progress.replay calls).tree.root ∧
      (∀ draft ∈ Edit.drafts progress.tree.root (calls.flatMap Call.changes),
        draft.size < distanceBound) ∧
      ∀ (index : Nat) (finding : Finding), progress.findings[index]? = some finding →
        ∃ moved, (progress.replay calls).findings[index]? = some moved ∧
          IsMoved (Edit.shifts progress.tree.root (calls.flatMap Call.changes)) finding moved := by
  induction calls generalizing progress with
  | nil =>
      exact ⟨rfl, by simp [Edit.drafts], fun _ finding hFinding => ⟨finding, hFinding, rfl, rfl, rfl⟩⟩
  | cons call calls ih =>
      rw [List.forall_mem_cons] at hFits
      obtain ⟨⟨hAt, -, -⟩, hRest⟩ := hAdmits
      obtain ⟨hRedraft, hDrafts, hMoved⟩ := h.take_changes hAt hFits.1
      obtain ⟨hRedraftAll, hDraftsAll, hMovedAll⟩ := ih (h.take hAt hFits.1) hRest hFits.2
      rw [List.flatMap_cons, Edit.redraftAll?_append, hRedraft, Edit.shifts_append hRedraft,
        Edit.drafts_append hRedraft, List.forall_mem_append]
      refine ⟨hRedraftAll, ⟨hDrafts, hDraftsAll⟩, fun index finding hFinding => ?_⟩
      obtain ⟨first, hFirst, hMove⟩ := hMoved index finding (h.getElem?_report hAt hFits.1 hFinding)
      obtain ⟨last, hLast, hMoveOn⟩ := hMovedAll index first hFirst
      exact ⟨last, hLast, hMove.trans hMoveOn⟩

/-- A finding of a call is moved by what the call and the later ones change. -/
theorem Sound.replay_report {progress : Progress} (h : progress.Sound) {fixing : Bool}
    {indices : List Nat} {call : Call} {calls : List Call}
    (hAdmits : Admits fixing indices progress (call :: calls))
    (hFits : ∀ other ∈ call :: calls, other.Fits) {index : Nat} {finding : Finding}
    (hFinding : (progress.report call)[index]? = some finding) :
    ∃ moved, (progress.replay (call :: calls)).findings[index]? = some moved ∧
      IsMoved (Edit.shifts progress.tree.root ((call :: calls).flatMap Call.changes)) finding moved := by
  rw [List.forall_mem_cons] at hFits
  obtain ⟨⟨hAt, -, -⟩, hRest⟩ := hAdmits
  obtain ⟨hRedraft, -, hMoved⟩ := h.take_changes hAt hFits.1
  obtain ⟨first, hFirst, hMove⟩ := hMoved index finding hFinding
  obtain ⟨-, -, hMovedAll⟩ := (h.take hAt hFits.1).replay_changes hRest hFits.2
  obtain ⟨last, hLast, hMoveOn⟩ := hMovedAll index first hFirst
  refine ⟨last, hLast, ?_⟩
  rw [List.flatMap_cons, Edit.shifts_append hRedraft]
  exact hMove.trans hMoveOn

end Progress

end UiLint
