import UiLint.Proofs.Sketch.Build
import UiLint.Proofs.Tree.Builder

/-! Trees and their events. Building accepts exactly the events that spell a file out, and a tree
that has been built spells out the events it came from. -/
namespace UiLint

namespace Node

theorem eventsOfAll_eq_flatMap (nodes : List Node) : eventsOfAll nodes = nodes.flatMap events := by
  induction nodes with
  | nil => rfl
  | cons node nodes ih => rw [eventsOfAll, ih, List.flatMap_cons]

theorem events_of_token {node : Node} {text : String}
    (hText : node.payload.tokenText? = some text) : node.events = [.token text] := by
  cases node
  simp only at hText
  rw [events, hText]

theorem events_of_inner {node : Node} (hText : node.payload.tokenText? = none) :
    node.events = Sketch.inside node.kind node.payload (node.children.flatMap events) := by
  cases node
  simp only at hText
  rw [events, hText, eventsOfAll_eq_flatMap, Sketch.inside]

/-- Spans are no part of what a node spells. -/
theorem events_shape (node : Node) : node.shape.events = node.events := by
  induction node using inductionOn with
  | step kind span payload children ih =>
      cases hText : payload.tokenText? with
      | some text =>
          have hShape : (shape ⟨kind, span, payload, children⟩).payload.tokenText? = some text := by
            rw [payload_shape]
            exact hText
          rw [events_of_token hShape, events_of_token hText]
      | none =>
          rw [events_of_inner (by simpa using hText), events_of_inner hText]
          simp only [kind_shape, payload_shape, children_shape, List.flatMap_map]
          rw [List.flatMap_def, List.flatMap_def, List.map_congr_left ih]

theorem events_layout (start : Nat) (node : Node) : (node.layout start).events = node.events := by
  rw [← events_shape, shape_layout, events_shape]

/-- A token by itself: text and nothing below it. -/
def IsLeaf (node : Node) : Prop :=
  node.kind = .token ∧ (∃ text, node.payload = .token text) ∧ node.children = []

/-- A file in which every node is a token by itself, or has another kind and a payload that fits. -/
structure IsFileTree (node : Node) : Prop where
  file : node.kind = .file
  parts : ∀ path below, node.descendant? path = some below →
    below.IsLeaf ∨ below.kind ≠ .token ∧ below.payload.fits below.kind = true

theorem WellFormed.isLeaf_or {node : Node} (h : node.WellFormed) :
    node.IsLeaf ∨ node.kind ≠ .token ∧ node.payload.fits node.kind = true := by
  by_cases hKind : node.kind = .token
  · exact .inl ⟨hKind, h.kind_eq_token_iff.mp hKind, h.leaf hKind⟩
  · exact .inr ⟨hKind, h.fits⟩

theorem wellFormed_of_parts (node : Node)
    (h : ∀ path below, node.descendant? path = some below →
      below.IsLeaf ∨ below.kind ≠ .token ∧ below.payload.fits below.kind = true) :
    node.WellFormed := by
  induction node using inductionOn with
  | step kind span payload children ih =>
      have hParts : ∀ child ∈ children, child.WellFormed := by
        intro child hChild
        obtain ⟨index, hIndex⟩ := List.mem_iff_getElem?.mp hChild
        refine ih child hChild fun path below hBelow => h (index :: path) below ?_
        rw [descendant?_cons]
        exact Option.bind_eq_some_iff.mpr ⟨child, hIndex, hBelow⟩
      rcases h [] _ rfl with ⟨hKind, ⟨text, hPayload⟩, hNone⟩ | ⟨hKind, hFits⟩
      · refine .intro ?_ (fun _ => hNone) hParts
        rw [hKind, hPayload]
        rfl
      · exact .intro hFits (fun hToken => absurd hToken hKind) hParts

theorem isFileTree_iff {node : Node} : node.IsFileTree ↔ node.kind = .file ∧ node.WellFormed :=
  ⟨fun h => ⟨h.file, wellFormed_of_parts node h.parts⟩,
    fun h => ⟨h.1, fun _ _ hBelow => (h.2.descendant hBelow).isLeaf_or⟩⟩

end Node

theorem Spells.flatMap_events {nodes : List Node}
    (h : ∀ node ∈ nodes, Spells node.events [node.shape]) :
    Spells (nodes.flatMap Node.events) (nodes.map Node.shape) := by
  induction nodes with
  | nil => exact .nil
  | cons node nodes ih =>
      rw [List.forall_mem_cons] at h
      exact h.1.append (ih h.2)

/-- The events of a well-formed node put the node together again, its spans apart. -/
theorem Node.WellFormed.spells {node : Node} (h : node.WellFormed) :
    Spells node.events [node.shape] := by
  induction h with
  | @intro node fits leaf parts ih =>
      have hNode : node.WellFormed := .intro fits leaf parts
      by_cases hKind : node.kind = .token
      · obtain ⟨text, hPayload⟩ := hNode.kind_eq_token_iff.mp hKind
        have hText : node.payload.tokenText? = some text := by
          rw [hPayload]
          rfl
        rw [events_of_token hText, shape_eq, hKind, hPayload, leaf hKind]
        exact .token text
      · rw [events_of_inner (hNode.tokenText?_of_kind_ne hKind), shape_eq]
        exact (Spells.flatMap_events ih).inside hKind fits

/-- The events of a well-formed file are accepted, and spell the file out. -/
theorem Node.WellFormed.ofEvents_events {node : Node} (h : node.WellFormed)
    (hKind : node.kind = .file) : SourceTree.ofEvents node.events = .ok ⟨node.layout 0⟩ := by
  have hFits := h.fits
  rw [hKind] at hFits
  cases hPayload : node.payload with
  | file header =>
      have hChildren := Spells.flatMap_events fun child hChild => (h.parts child hChild).spells
      rw [events_of_inner (by rw [hPayload]; rfl), hKind, hPayload, hChildren.ofEvents header,
        ← layout_shape h, shape_eq, hKind, hPayload]
  | _ => simp [hPayload, Payload.fits] at hFits

/-- The events that an open node has taken in. -/
def OpenNode.told (opened : OpenNode) : List Event :=
  .start opened.kind opened.payload :: opened.reversedChildren.reverse.flatMap Node.events

theorem OpenNode.told_add (opened : OpenNode) (child : Node) :
    (opened.add child).told = opened.told ++ child.events := by
  simp [told, add]

theorem OpenNode.events_close {opened : OpenNode} (h : opened.Sound) :
    opened.close.events = opened.told ++ [.finish] := by
  rw [Node.events_of_inner (h.close.tokenText?_of_kind_ne h.kind)]
  rfl

namespace Assembly

/-- The events that an assembly has taken in: those of the root, then those of the open nodes from
the outermost on. -/
def told (assembly : Assembly) : List Event :=
  (assembly.root.map Node.events).getD [] ++ assembly.opened.reverse.flatMap OpenNode.told

/-- Once there is a root, no node is open. -/
def Settled (assembly : Assembly) : Prop :=
  assembly.opened ≠ [] → assembly.root = none

/-- An event that is accepted becomes the last one told. -/
theorem told_step {assembly next : Assembly} {event : Event} (h : assembly.Sound)
    (hSettled : assembly.Settled) (hStep : assembly.step event = .ok next) :
    next.Settled ∧ next.told = assembly.told ++ [event] := by
  cases takes_of_step hStep with
  | start hKind hFits hFirst =>
      have hRoot : assembly.root = none := by
        by_cases hOpened : assembly.opened = []
        · exact hFirst hOpened
        · exact hSettled hOpened
      exact ⟨fun _ => hRoot, by simp [told, OpenNode.told]⟩
  | token text =>
      have hLeaf : (Node.leaf text).events = [.token text] := rfl
      exact ⟨fun _ => hSettled (List.cons_ne_nil _ _), by simp [told, OpenNode.told_add, hLeaf]⟩
  | @finishLast last root =>
      have hRoot : root = none := hSettled (List.cons_ne_nil _ _)
      have hLast : last.Sound := h.opened last List.mem_cons_self
      refine ⟨fun hSome => absurd rfl hSome, ?_⟩
      simp [told, hRoot, OpenNode.events_close hLast]
  | @finish inner outer rest root =>
      have hInner : inner.Sound := h.opened inner List.mem_cons_self
      refine ⟨fun _ => hSettled (List.cons_ne_nil _ _), ?_⟩
      simp [told, OpenNode.told_add, OpenNode.events_close hInner]

/-- Events that are accepted are told in their order, after what had been told before. -/
theorem told_steps {events : List Event} {assembly last : Assembly} (h : assembly.Sound)
    (hSettled : assembly.Settled) (hSteps : assembly.steps events = .ok last) :
    last.told = assembly.told ++ events := by
  induction events generalizing assembly with
  | nil =>
      cases hSteps
      rw [List.append_nil]
  | cons event events ih =>
      obtain ⟨next, hStep, hRest⟩ := steps_cons_eq_ok_iff.mp hSteps
      obtain ⟨hNext, hTold⟩ := told_step h hSettled hStep
      rw [ih (h.step hStep) hNext hRest, hTold, List.append_assoc, List.singleton_append]

end Assembly

/-- A tree that has been built spells out the events it was built from. -/
theorem SourceTree.events_of_ofEvents {events : List Event} {tree : SourceTree}
    (hTree : SourceTree.ofEvents events = .ok tree) : tree.root.events = events := by
  unfold SourceTree.ofEvents at hTree
  split at hTree
  · cases hTree
  · rename_i assembly hSteps
    have hSound : Assembly.Sound {} := ⟨by simp, by simp⟩
    have hTold := Assembly.told_steps hSound (fun _ => rfl) hSteps
    unfold Assembly.complete at hTree
    split at hTree
    · cases hTree
    · rename_i hOpened
      split at hTree
      · cases hTree
      · rename_i root hRoot
        unfold SourceTree.ofRoot at hTree
        split at hTree
        · cases hTree
          rw [Node.events_layout]
          simpa [Assembly.told, hOpened, hRoot] using hTold
        · cases hTree

/-- Building accepts exactly the events that spell a file tree out. There is one such tree, spans
apart; what is built is that tree laid out from zero on, and it spells the same events out. -/
theorem SourceTree.ofEvents_accepts_iff (events : List Event) :
    ((∃ tree, SourceTree.ofEvents events = .ok tree) ↔
      ∃ node : Node, node.IsFileTree ∧ node.events = events) ∧
    ∀ node : Node, node.IsFileTree → node.events = events →
      (∀ other : Node, other.IsFileTree → other.events = events → other.shape = node.shape) ∧
      SourceTree.ofEvents events = .ok ⟨node.layout 0⟩ ∧ (node.layout 0).events = events := by
  have hBuilt : ∀ node : Node, node.IsFileTree → node.events = events →
      SourceTree.ofEvents events = .ok ⟨node.layout 0⟩ := by
    rintro node hNode rfl
    obtain ⟨hKind, hWell⟩ := Node.isFileTree_iff.mp hNode
    exact hWell.ofEvents_events hKind
  refine ⟨⟨?_, ?_⟩, fun node hNode hEvents => ⟨?_, hBuilt node hNode hEvents, ?_⟩⟩
  · rintro ⟨tree, hTree⟩
    obtain ⟨hCanonical, hKind⟩ := SourceTree.canonical_of_ofEvents hTree
    exact ⟨tree.root, Node.isFileTree_iff.mpr ⟨hKind, hCanonical.wellFormed⟩,
      SourceTree.events_of_ofEvents hTree⟩
  · rintro ⟨node, hNode, hEvents⟩
    exact ⟨_, hBuilt node hNode hEvents⟩
  · intro other hOther hOtherEvents
    have hSame := hBuilt node hNode hEvents
    rw [hBuilt other hOther hOtherEvents, Except.ok.injEq, SourceTree.mk.injEq] at hSame
    rw [← Node.shape_layout 0 other, hSame, Node.shape_layout]
  · rw [Node.events_layout, hEvents]

namespace Declared

/-- The file `fun f()` before it is laid out. -/
def file : Node :=
  ⟨.file, ⟨0, 0⟩, .file {}, [⟨.functionDeclaration, ⟨0, 0⟩, .function { name := "f" },
    [.leaf "fun f", ⟨.parameterList, ⟨0, 0⟩, .plain, [.leaf "(", .leaf ")"]⟩]⟩]⟩

theorem isFileTree_file : file.IsFileTree := by
  refine Node.isFileTree_iff.mpr ⟨rfl, .intro rfl (fun hKind => nomatch hKind) ?_⟩
  refine List.forall_mem_singleton.mpr (.intro rfl (fun hKind => nomatch hKind) ?_)
  refine List.forall_mem_cons.mpr ⟨Node.wellFormed_leaf _, List.forall_mem_singleton.mpr ?_⟩
  refine .intro rfl (fun hKind => nomatch hKind) (List.forall_mem_cons.mpr ?_)
  exact ⟨Node.wellFormed_leaf _, List.forall_mem_singleton.mpr (Node.wellFormed_leaf _)⟩

end Declared

/-- The events of a declaration inside a file give the file back, and one finish more spells no
file tree out. -/
theorem SourceTree.ofEvents_accepts_iff_declared :
    Declared.file.IsFileTree ∧
      SourceTree.ofEvents Declared.file.events = .ok ⟨Declared.file.layout 0⟩ ∧
      ¬ ∃ node : Node, node.IsFileTree ∧ node.events = Declared.file.events ++ [.finish] := by
  have hFile := (SourceTree.ofEvents_accepts_iff Declared.file.events).2 _ Declared.isFileTree_file rfl
  refine ⟨Declared.isFileTree_file, hFile.2.1, fun hMore => ?_⟩
  obtain ⟨tree, hTree⟩ := (SourceTree.ofEvents_accepts_iff _).1.mpr hMore
  cases hTree

end UiLint
