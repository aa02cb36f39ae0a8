import UiLint.Engine.Run

/-! Which rules are suppressed at a node, told from the file as a whole: by the marks on the node,
on the declarations around it and on the file. -/
namespace UiLint

namespace Node

/-- The rules that the node at a path suppresses there and below. The root and declarations
can do so. -/
def marksAt (root : Node) (path : Path) : List String :=
  match root.descendant? path with
  | some node =>
      if path = [] ∨ Run.isDeclaration node.kind = true then suppressedBy node.payload.annotations
      else []
  | none => []

/-- The rules that are suppressed for the node at a path, by itself or by what is around it. -/
def suppressedAt (root : Node) (path : Path) : List String :=
  (path :: path.ancestors).flatMap root.marksAt

end Node

theorem Path.ancestors_child (path : Path) (index : Nat) :
    (path.child index).ancestors = path :: path.ancestors := by
  have hTake : ∀ k ∈ List.range path.length, (path ++ [index]).take k = path.take k := by
    intro k hk
    rw [List.take_append_of_le_length (Nat.le_of_lt (List.mem_range.mp hk))]
  simp only [ancestors, child, List.length_append, List.length_singleton, List.range_succ,
    List.reverse_append, List.reverse_singleton, List.singleton_append, List.map_cons,
    List.take_left', List.cons.injEq, true_and]
  exact List.map_congr_left fun k hk => hTake k (List.mem_reverse.mp hk)

theorem Node.isSome_of_mem_ancestors {root : Node} {path above : Path}
    (hPath : (root.descendant? path).isSome = true) (hAbove : above ∈ path.ancestors) :
    (root.descendant? above).isSome = true := by
  rw [Path.ancestors, List.mem_map] at hAbove
  obtain ⟨k, -, rfl⟩ := hAbove
  rw [← List.take_append_drop k path, descendant?_append] at hPath
  cases hTake : root.descendant? (path.take k) with
  | none => simp [hTake] at hPath
  | some node => rfl

theorem Node.suppressedAt_nil (root : Node) :
    root.suppressedAt [] = suppressedBy root.payload.annotations := by
  simp [suppressedAt, Path.ancestors, marksAt, descendant?]

theorem Node.suppressedAt_child (root : Node) (path : Path) (index : Nat) :
    root.suppressedAt (path.child index) =
      root.marksAt (path.child index) ++ root.suppressedAt path := by
  rw [suppressedAt, Path.ancestors_child, List.flatMap_cons, suppressedAt]

end UiLint
