import UiLint.Proofs.Tree.Shape

/-! How deep trees are. An edit adds nothing but a default value with its tokens, so it takes a
bound on the depth of all other nodes to bound the depth of every later tree. -/
namespace UiLint

namespace Node

theorem height_lt_of_mem {node child : Node} (hChild : child ∈ node.children) :
    child.height < node.height := by
  have hAll : ∀ nodes : List Node, child ∈ nodes → child.height ≤ heightOfAll nodes := by
    intro nodes hMem
    induction nodes with
    | nil => cases hMem
    | cons first rest ih =>
        rw [heightOfAll]
        rcases List.mem_cons.mp hMem with rfl | hMem
        · exact Nat.le_max_left ..
        · exact Nat.le_trans (ih hMem) (Nat.le_max_right ..)
  cases node
  exact Nat.lt_succ_of_le (hAll _ hChild)

/-- No path leads further down than the node is high. -/
theorem length_lt_height {node below : Node} {path : Path}
    (hBelow : node.descendant? path = some below) : path.length < node.height := by
  induction path generalizing node with
  | nil =>
      cases node
      exact Nat.succ_pos _
  | cons index path ih =>
      obtain ⟨child, hChild, hRest⟩ := descendant?_cons_eq_some_iff.mp hBelow
      have hInner := ih hRest
      have hLower := height_lt_of_mem (List.mem_of_getElem? hChild)
      rw [List.length_cons]
      omega

end Node

/-- How far below the other nodes of a tree a node of the kind may lie. -/
def Kind.slack : Kind → Nat
  | .defaultValue => 1
  | .token => 2
  | _ => 0

theorem Kind.slack_le (kind : Kind) : kind.slack ≤ 2 := by
  cases kind <;> decide

namespace Node

/-- In a tree that has the node at the given depth, what is at or below the node keeps to the
bound, apart from the slack of its kind. -/
def Within (bound depth : Nat) (node : Node) : Prop :=
  ∀ path below, node.descendant? path = some below →
    depth + path.length < bound + below.kind.slack

theorem within_height (node : Node) : node.Within node.height 0 := by
  intro path below hBelow
  have hLength := length_lt_height hBelow
  omega

variable {bound depth : Nat} {node : Node}

/-- Only kinds and their places count, so spans do not matter. -/
theorem Within.of_shape (h : node.Within bound depth) {other : Node}
    (hShape : other.shape = node.shape) : other.Within bound depth := by
  intro path below hBelow
  have hThere := descendant?_shape node path
  rw [← hShape, descendant?_shape, hBelow] at hThere
  obtain ⟨found, hFound, hSame⟩ := Option.map_eq_some_iff.mp hThere.symm
  rw [← kind_shape, ← hSame, kind_shape]
  exact h path found hFound

theorem Within.descendant (h : node.Within bound depth) {path : Path} {below : Node}
    (hBelow : node.descendant? path = some below) : below.Within bound (depth + path.length) := by
  intro rest inner hInner
  have hAll := h (path ++ rest) inner (by rw [descendant?_append, hBelow]; exact hInner)
  rw [List.length_append] at hAll
  omega

/-- A node keeps to the bound if it does so itself and its children do one level further down. -/
theorem within_of_children (hHere : depth < bound + node.kind.slack)
    (hParts : ∀ child ∈ node.children, child.Within bound (depth + 1)) :
    node.Within bound depth := by
  intro path below hBelow
  cases path with
  | nil =>
      cases hBelow
      exact hHere
  | cons index path =>
      obtain ⟨child, hChild, hRest⟩ := descendant?_cons_eq_some_iff.mp hBelow
      have hInner := hParts child (List.mem_of_getElem? hChild) path below hRest
      rw [List.length_cons]
      omega

theorem Within.child (h : node.Within bound depth) :
    ∀ child ∈ node.children, child.Within bound (depth + 1) := by
  intro child hChild
  obtain ⟨index, hIndex⟩ := List.getElem?_of_mem hChild
  have hBelow : node.descendant? [index] = some child := by
    rw [descendant?_cons, hIndex]
    rfl
  exact h.descendant hBelow

/-- Replacing a node by one that keeps to the bound there. -/
theorem Within.replaceAt (h : node.Within bound depth) {path : Path} {new : Node}
    (hNew : new.Within bound (depth + path.length)) :
    (node.replaceAt path new).Within bound depth := by
  induction path generalizing node depth with
  | nil => exact hNew
  | cons index path ih =>
      refine within_of_children (h [] node rfl) fun child hChild => ?_
      obtain ⟨place, hPlace⟩ := List.getElem?_of_mem hChild
      rw [Node.replaceAt, List.getElem?_modify] at hPlace
      obtain ⟨old, hOld, hSame⟩ := Option.map_eq_some_iff.mp hPlace
      have hPart := h.child old (List.mem_of_getElem? hOld)
      rw [← hSame]
      split
      · refine ih hPart ?_
        rw [List.length_cons] at hNew
        rwa [Nat.add_assoc, Nat.add_comm 1]
      · exact hPart

end Node

end UiLint
