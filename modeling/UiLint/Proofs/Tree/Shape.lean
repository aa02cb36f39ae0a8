import UiLint.Proofs.Tree.Layout

/-! Trees without their spans. Layout gives the spans, so two nodes that are laid out from the
same start are equal when they agree up to spans. -/
namespace UiLint.Node

mutual

/-- The node without spans, its own and those below it. -/
def shape : Node → Node
  | ⟨kind, _, payload, children⟩ => ⟨kind, ⟨0, 0⟩, payload, shapeOfAll children⟩

/-- The nodes without spans. -/
def shapeOfAll : List Node → List Node
  | [] => []
  | node :: nodes => shape node :: shapeOfAll nodes

end

theorem shapeOfAll_eq_map (nodes : List Node) : shapeOfAll nodes = nodes.map shape := by
  induction nodes with
  | nil => rfl
  | cons node nodes ih => rw [shapeOfAll, ih, List.map_cons]

theorem shape_eq (node : Node) :
    node.shape = ⟨node.kind, ⟨0, 0⟩, node.payload, node.children.map shape⟩ := by
  cases node
  rw [shape, shapeOfAll_eq_map]

@[simp]
theorem kind_shape (node : Node) : node.shape.kind = node.kind := by
  rw [shape_eq]

@[simp]
theorem payload_shape (node : Node) : node.shape.payload = node.payload := by
  rw [shape_eq]

@[simp]
theorem children_shape (node : Node) : node.shape.children = node.children.map shape := by
  rw [shape_eq]

theorem textOfAll_congr (first second : List Node) (hText : first.map text = second.map text) :
    textOfAll first = textOfAll second := by
  induction first generalizing second with
  | nil =>
      obtain rfl : second = [] := by simpa using hText.symm
      rfl
  | cons node nodes ih =>
      cases second with
      | nil => simp at hText
      | cons other others =>
          rw [List.map_cons, List.map_cons, List.cons.injEq] at hText
          rw [textOfAll, textOfAll, hText.1, ih others hText.2]

theorem text_shape (node : Node) : node.shape.text = node.text := by
  induction node using inductionOn with
  | step kind span payload children ih =>
      rw [text_eq, text_eq]
      simp only [payload_shape, children_shape]
      rw [textOfAll_congr (children.map shape) children (by simpa using ih)]

@[simp]
theorem size_shape (node : Node) : node.shape.size = node.size := by
  rw [size, text_shape, size]

theorem sizeOfAll_map_shape (nodes : List Node) : sizeOfAll (nodes.map shape) = sizeOfAll nodes := by
  induction nodes with
  | nil => rfl
  | cons node nodes ih => rw [List.map_cons, sizeOfAll_cons, sizeOfAll_cons, size_shape, ih]

theorem layoutAll_map_shape_of (nodes : List Node) (start : Nat)
    (hLayout : ∀ node ∈ nodes, ∀ start, node.shape.layout start = node.layout start) :
    layoutAll start (nodes.map shape) = layoutAll start nodes := by
  induction nodes generalizing start with
  | nil => rfl
  | cons node nodes ih =>
      rw [List.map_cons, layoutAll, layoutAll, hLayout node (by simp),
        ih _ fun n hn => hLayout n (by simp [hn])]

/-- Layout gives every node its span, so it does not matter which spans there were. -/
theorem layout_shape {node : Node} (h : node.WellFormed) (start : Nat) :
    node.shape.layout start = node.layout start := by
  induction h generalizing start with
  | @intro node fits leaf parts ih =>
      cases hText : node.payload.tokenText? with
      | some text =>
          have hNone := (WellFormed.intro fits leaf parts).children_eq_nil hText
          rw [layout_of_token start hText, layout_of_token start (by simpa using hText)]
          simp [hNone]
      | none =>
          rw [layout_inner_eq start hText, layout_inner_eq start (by simpa using hText)]
          simp [layoutAll_map_shape_of _ _ ih, sizeOfAll_map_shape]

theorem shape_layout (start : Nat) (node : Node) : (node.layout start).shape = node.shape := by
  induction node using inductionOn generalizing start with
  | step kind span payload children ih =>
      rw [shape_eq, shape_eq, kind_layout, payload_layout]
      cases hText : payload.tokenText? with
      | some text => rw [layout_of_token start hText]
      | none =>
          rw [layout_of_inner start hText]
          simp only [mk.injEq, true_and]
          clear hText
          induction children generalizing start with
          | nil => rfl
          | cons child children ihAll =>
              rw [layoutAll, List.map_cons, List.map_cons, ih child (by simp),
                ihAll fun c hc => ih c (by simp [hc])]

/-- What is laid out from one start is decided by its shape. -/
theorem layout_eq_of_shape {node other : Node} (h : node.WellFormed) (hOther : other.WellFormed)
    (hShape : node.shape = other.shape) (start : Nat) : node.layout start = other.layout start := by
  rw [← layout_shape h, hShape, layout_shape hOther]

theorem descendant?_shape (node : Node) (path : Path) :
    node.shape.descendant? path = (node.descendant? path).map shape := by
  induction path generalizing node with
  | nil => rfl
  | cons index path ih =>
      rw [descendant?_cons, descendant?_cons, children_shape, List.getElem?_map]
      cases node.children[index]? with
      | none => rfl
      | some child => exact ih child

/-- Laying a node out leaves what is below it in its place. -/
theorem exists_descendant?_layout {node below : Node} {path : Path}
    (hBelow : node.descendant? path = some below) (start : Nat) :
    ∃ laid, (node.layout start).descendant? path = some laid ∧ laid.shape = below.shape := by
  have hSame := descendant?_shape (node.layout start) path
  rw [shape_layout, descendant?_shape, hBelow] at hSame
  exact Option.map_eq_some_iff.mp hSame.symm

theorem offsetAt_shape (node : Node) (path : Path) :
    node.shape.offsetAt path = node.offsetAt path := by
  induction path generalizing node with
  | nil => rfl
  | cons index path ih =>
      rw [offsetAt, offsetAt, children_shape, ← List.map_take, sizeOfAll_map_shape,
        List.getElem?_map]
      cases node.children[index]? with
      | none => rfl
      | some child => exact congrArg _ (ih child)

/-- Layout does not change how much text comes before a node. -/
theorem offsetAt_layout (start : Nat) (node : Node) (path : Path) :
    (node.layout start).offsetAt path = node.offsetAt path := by
  rw [← offsetAt_shape, shape_layout, offsetAt_shape]

theorem shape_replaceAt (node : Node) (path : Path) (new : Node) :
    (node.replaceAt path new).shape = node.shape.replaceAt path new.shape := by
  induction path generalizing node with
  | nil => rfl
  | cons index path ih =>
      rw [replaceAt, replaceAt, shape_eq, shape_eq node]
      simp only [mk.injEq, true_and]
      apply List.ext_getElem?
      intro place
      rw [List.getElem?_map, List.getElem?_modify, List.getElem?_modify, List.getElem?_map]
      cases node.children[place]? with
      | none => rfl
      | some child =>
          by_cases hPlace : index = place
          · simp [hPlace, ih]
          · simp [hPlace]

end UiLint.Node
