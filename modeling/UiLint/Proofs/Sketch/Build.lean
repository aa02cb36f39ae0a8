import UiLint.Sketch
import UiLint.Proofs.Tree.Shape

/-! Trees of sketches. The events of a sketch are well nested, so that building its tree never fails,
and every parameter of the tree has text: a colon at least. -/
namespace UiLint

/-- The events add the nodes to the innermost open node, and leave everything else alone. -/
def Spells (events : List Event) (nodes : List Node) : Prop :=
  ∀ (opened : OpenNode) (outer : List OpenNode) (root : Option Node) (later : List Event),
    Assembly.steps ⟨opened :: outer, root⟩ (events ++ later) =
      Assembly.steps ⟨{ opened with
        reversedChildren := nodes.reverse ++ opened.reversedChildren } :: outer, root⟩ later

namespace Spells

theorem nil : Spells [] [] :=
  fun _ _ _ _ => rfl

theorem token (text : String) : Spells [.token text] [.leaf text] :=
  fun _ _ _ _ => rfl

variable {events more : List Event} {nodes others : List Node}

theorem append (h : Spells events nodes) (hMore : Spells more others) :
    Spells (events ++ more) (nodes ++ others) := by
  intro opened outer root later
  rw [List.append_assoc, h, hMore, List.reverse_append, List.append_assoc]

/-- A node around events has what the events add as its children. -/
theorem inside (h : Spells events nodes) {kind : Kind} {payload : Payload} (hKind : kind ≠ .token)
    (hFits : payload.fits kind = true) :
    Spells (Sketch.inside kind payload events) [⟨kind, ⟨0, 0⟩, payload, nodes⟩] := by
  intro opened outer root later
  have hStart : Assembly.step ⟨opened :: outer, root⟩ (.start kind payload) =
      .ok ⟨⟨kind, payload, []⟩ :: opened :: outer, root⟩ := by
    simp [Assembly.step, hKind, hFits]
  rw [Sketch.inside, List.cons_append, Assembly.steps, hStart, List.append_assoc]
  simp only
  rw [h]
  simp [Assembly.steps, Assembly.step, OpenNode.close, OpenNode.add]

/-- A file around events. -/
theorem ofEvents (h : Spells events nodes) (header : FileHeader) :
    SourceTree.ofEvents (Sketch.inside .file (.file header) events) =
      .ok ⟨Node.layout 0 ⟨.file, ⟨0, 0⟩, .file header, nodes⟩⟩ := by
  have hStart : Assembly.step {} (.start .file (.file header)) =
      .ok ⟨[⟨.file, .file header, []⟩], none⟩ := rfl
  rw [SourceTree.ofEvents, Sketch.inside, Assembly.steps, hStart]
  simp only
  rw [h]
  simp [Assembly.steps, Assembly.step, Assembly.complete, OpenNode.close, SourceTree.ofRoot]

end Spells

/-- Every parameter has text. -/
def Node.ParametersHaveText (node : Node) : Prop :=
  ∀ place below, node.descendant? place = some below → below.kind = .parameter → below.text ≠ ""

namespace Node.ParametersHaveText

theorem of_children {node : Node} (hHere : node.kind = .parameter → node.text ≠ "")
    (hChildren : ∀ child ∈ node.children, child.ParametersHaveText) : node.ParametersHaveText := by
  intro place below hBelow
  cases place with
  | nil =>
      cases hBelow
      exact hHere
  | cons index place =>
      obtain ⟨child, hChild, hRest⟩ := descendant?_cons_eq_some_iff.mp hBelow
      exact hChildren child (List.mem_of_getElem? hChild) place below hRest

theorem leaf (text : String) : (Node.leaf text).ParametersHaveText :=
  .of_children (fun hKind => absurd hKind (show Kind.token ≠ .parameter by decide))
    fun _ hChild => absurd hChild List.not_mem_nil

theorem layout {node : Node} (h : node.ParametersHaveText) (start : Nat) :
    (node.layout start).ParametersHaveText := by
  intro place laid hLaid hKind
  have hShape := descendant?_shape (node.layout start) place
  rw [shape_layout, descendant?_shape, hLaid] at hShape
  obtain ⟨below, hBelow, hSame⟩ := Option.map_eq_some_iff.mp hShape
  rw [← kind_shape, ← hSame, kind_shape] at hKind
  rw [← text_shape, ← hSame, text_shape]
  exact h place below hBelow hKind

end Node.ParametersHaveText

namespace Sketch

/-- The events add nodes in which every parameter has text. -/
def Filled (events : List Event) : Prop :=
  ∃ nodes, Spells events nodes ∧ ∀ node ∈ nodes, node.ParametersHaveText

namespace Filled

variable {events more : List Event}

theorem nil : Filled [] :=
  ⟨[], .nil, by simp⟩

theorem append (h : Filled events) (hMore : Filled more) : Filled (events ++ more) := by
  obtain ⟨nodes, hNodes, hText⟩ := h
  obtain ⟨others, hOthers, hOthersText⟩ := hMore
  exact ⟨nodes ++ others, hNodes.append hOthers, List.forall_mem_append.mpr ⟨hText, hOthersText⟩⟩

theorem token (text : String) : Filled [.token text] :=
  ⟨_, .token text, List.forall_mem_singleton.mpr (.leaf text)⟩

theorem cons (text : String) (h : Filled events) : Filled (.token text :: events) :=
  (token text).append h

theorem tokens (texts : List String) : Filled (Sketch.tokens texts) := by
  induction texts with
  | nil => exact nil
  | cons text texts ih => exact cons text ih

theorem flatMap {α : Type} {items : List α} {render : α → List Event}
    (h : ∀ item ∈ items, Filled (render item)) : Filled (items.flatMap render) := by
  induction items with
  | nil => exact nil
  | cons item items ih =>
      rw [List.forall_mem_cons] at h
      rw [List.flatMap_cons]
      exact h.1.append (ih h.2)

theorem inside (h : Filled events) {kind : Kind} {payload : Payload} (hKind : kind ≠ .token)
    (hOther : kind ≠ .parameter) (hFits : payload.fits kind = true) :
    Filled (Sketch.inside kind payload events) := by
  obtain ⟨nodes, hNodes, hText⟩ := h
  refine ⟨_, hNodes.inside hKind hFits, List.forall_mem_singleton.mpr ?_⟩
  exact .of_children (fun hParameter => absurd hParameter hOther) hText

/-- A parameter has text, as there is a colon in it. -/
theorem parameter (h : Filled events) (header : ParameterHeader) (name : String) :
    Filled (Sketch.inside .parameter (.parameter header) (.token name :: .token ":" :: events)) := by
  obtain ⟨nodes, hNodes, hText⟩ := h
  have hAll := (Spells.token name).append ((Spells.token ":").append hNodes)
  refine ⟨_, hAll.inside (by decide) rfl, List.forall_mem_singleton.mpr (.of_children ?_ ?_)⟩
  · intro _ hEmpty
    simp [Node.text, Node.textOfAll, Node.leaf, Node.bare, Payload.tokenText?] at hEmpty
  · exact List.forall_mem_cons.mpr ⟨.leaf _, List.forall_mem_cons.mpr ⟨.leaf _, hText⟩⟩

end Filled

theorem Parameter.filled (parameter : Parameter) : Filled parameter.events := by
  refine Filled.parameter (Filled.append (.tokens [" ", parameter.typeName]) ?_) _ parameter.name
  split
  · exact .nil
  · exact (Filled.tokens _).inside (by decide) (by decide) rfl

theorem filled_parameterEvents (parameters : List Parameter) :
    Filled (parameterEvents parameters) := by
  fun_induction parameterEvents parameters with
  | case1 => exact .nil
  | case2 last => exact last.filled
  | case3 first rest hRest ih => exact first.filled.append (.cons ", " ih)

theorem Call.filled (call : Call) : Filled call.events := by
  rw [events]
  refine (Filled.append (.append (.tokens _) ?_) ?_).inside (by decide) (by decide) rfl
  · split
    · exact .nil
    · exact .tokens _
  · split
    · exact .tokens _
    · exact .nil

theorem filled_markEvents (target : String) (after : List String) (entries : List AnnotationEntry) :
    Filled (markEvents target after entries) :=
  .flatMap fun _ _ => .tokens _

theorem filled_modifierEvents (modifiers : List String) : Filled (modifierEvents modifiers) :=
  .flatMap fun _ _ => .tokens _

mutual

theorem Function.filled (indent : String) : (function : Function) → Filled (function.events indent)
  | .mk header parameters statements => by
      have hParameters : Filled (inside .parameterList .plain
          (.token "(" :: (parameterEvents parameters ++ [.token ")"]))) :=
        (Filled.cons "(" ((filled_parameterEvents parameters).append (.token ")"))).inside
          (by decide) (by decide) rfl
      have hType : Filled (match header.returnType with
          | none => []
          | some typeName => tokens [":", " ", typeName]) := by
        split
        · exact .nil
        · exact .tokens _
      have hStatements := filled_statementEvents (indent ++ indentStep) statements
      have hBody : Filled (inside .body .plain (tokens ["\x7b", "\n"] ++
          statementEvents (indent ++ indentStep) statements ++ tokens [indent ++ "\x7d"])) :=
        (Filled.append (.append (.tokens _) hStatements) (.tokens _)).inside (by decide) (by decide)
          rfl
      rw [Function.events]
      refine Filled.inside ?_ (by decide) (by decide) rfl
      have hMarks := filled_markEvents "" ["\n", indent] header.annotations
      have hModifiers := filled_modifierEvents header.modifiers
      exact ((((hMarks.append hModifiers).append (.tokens _)).append hParameters).append hType).append
        (.cons " " hBody)

theorem Statement.filled (indent : String) :
    (statement : Statement) → Filled (statement.events indent)
  | .call call => by
      rw [Statement.events]
      exact call.filled
  | .function function => by
      rw [Statement.events]
      exact function.filled indent
  | .other text => by
      rw [Statement.events]
      exact (Filled.tokens [text]).inside (by decide) (by decide) rfl

theorem filled_statementEvents (indent : String) :
    (statements : List Statement) → Filled (statementEvents indent statements)
  | [] => by
      rw [statementEvents]
      exact .nil
  | statement :: statements => by
      rw [statementEvents]
      exact .cons indent ((statement.filled indent).append
        (.cons "\n" (filled_statementEvents indent statements)))

end

theorem TypeSketch.filled (type : TypeSketch) : Filled type.events := by
  have hFunctions : Filled (type.functions.flatMap fun function =>
      .token indentStep :: (function.events indentStep ++ [.token "\n"])) :=
    .flatMap fun function _ => .cons indentStep ((function.filled indentStep).append (.token "\n"))
  have hMarks := filled_markEvents "" ["\n"] type.header.annotations
  have hModifiers := filled_modifierEvents type.header.modifiers
  exact ((((hMarks.append hModifiers).append (.tokens _)).append hFunctions).append
    (.token "\x7d")).inside (by decide) (by decide) rfl

theorem Item.filled (item : Item) : Filled item.events := by
  cases item with
  | function declared => exact declared.filled ""
  | type declared => exact declared.filled

/-- Building a sketched file never fails, and in its tree every parameter has text. -/
theorem File.exists_build (file : File) :
    ∃ tree, file.build = .ok tree ∧ tree.root.ParametersHaveText := by
  have hBlank : Filled (if file.header.annotations.isEmpty then [] else [.token "\n"]) := by
    split
    · exact .nil
    · exact .token "\n"
  have hItems : Filled (file.items.flatMap fun item => item.events ++ [.token "\n"]) :=
    .flatMap fun item _ => item.filled.append (.token "\n")
  obtain ⟨nodes, hNodes, hText⟩ :=
    ((filled_markEvents "file:" ["\n"] file.header.annotations).append hBlank).append hItems
  refine ⟨_, hNodes.ofEvents file.header, Node.ParametersHaveText.layout (.of_children ?_ hText) 0⟩
  exact fun hKind => absurd hKind (show Kind.file ≠ .parameter by decide)

end Sketch

end UiLint
