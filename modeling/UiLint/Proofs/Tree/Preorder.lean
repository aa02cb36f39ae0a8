import UiLint.Proofs.Tree.Anchor
import UiLint.Proofs.Tree.Position

/-! The pre-order of a tree has every node of the tree in it, and lists the nodes in the order of
their paths, so that none is listed twice. -/
namespace UiLint.Node

theorem mem_preorderFrom {above path : Path} {node below : Node} :
    (path, below) ∈ preorderFrom above node ↔
      ∃ rest, path = above ++ rest ∧ node.descendant? rest = some below := by
  induction node using inductionOn generalizing above path with
  | step kind span payload children ih =>
      rw [preorderFrom, preorderOfAll_eq, List.mem_cons, List.mem_flatMap]
      constructor
      · rintro (hHere | ⟨⟨child, index⟩, hChild, hBelow⟩)
        · cases hHere
          exact ⟨[], by simp, rfl⟩
        · obtain ⟨rest, rfl, hRest⟩ := (ih child (List.fst_mem_of_mem_zipIdx hChild)).mp hBelow
          refine ⟨index :: rest, by simp [Path.child], ?_⟩
          rw [descendant?_cons, List.mem_zipIdx_iff_getElem?.mp hChild]
          exact hRest
      · rintro ⟨rest, rfl, hRest⟩
        cases rest with
        | nil =>
            cases hRest
            exact .inl (by simp)
        | cons index rest =>
            obtain ⟨child, hChild, hBelow⟩ := descendant?_cons_eq_some_iff.mp hRest
            refine .inr ⟨(child, index), List.mem_zipIdx_iff_getElem?.mpr hChild, ?_⟩
            exact (ih child (List.mem_of_getElem? hChild)).mpr ⟨rest, by simp [Path.child], hBelow⟩

/-- A pre-order has the nodes that paths lead to. -/
theorem mem_preorder {root node : Node} {path : Path} :
    (path, node) ∈ root.preorder ↔ root.descendant? path = some node := by
  rw [preorder, mem_preorderFrom]
  simp

/-- The pre-orders of children from an index on lead below those children. -/
theorem exists_index_of_mem_preorderOfAll {above : Path} {start : Nat} {nodes : List Node}
    {entry : Path × Node} (hEntry : entry ∈ preorderOfAll above start nodes) :
    ∃ index rest, start ≤ index ∧ entry.1 = above ++ index :: rest := by
  rw [preorderOfAll_eq, List.mem_flatMap] at hEntry
  obtain ⟨⟨child, index⟩, hChild, hBelow⟩ := hEntry
  obtain ⟨rest, hRest⟩ := exists_append_of_mem_preorderFrom hBelow
  refine ⟨index, rest, (List.mem_zipIdx hChild).1, ?_⟩
  rw [hRest, Path.child, List.append_assoc, List.singleton_append]

/-- In a pre-order every node comes before those whose paths come after its own. -/
theorem pairwise_preorderFrom (above : Path) (node : Node) :
    (preorderFrom above node).Pairwise fun first second => first.1.order second.1 = .lt := by
  induction node using inductionOn generalizing above with
  | step kind span payload children ih =>
      rw [preorderFrom, List.pairwise_cons]
      constructor
      · intro entry hEntry
        obtain ⟨index, rest, -, hPath⟩ := exists_index_of_mem_preorderOfAll hEntry
        have hOrder := Path.order_append above [] (index :: rest)
        rw [List.append_nil] at hOrder
        rw [hPath, hOrder]
        rfl
      · generalize 0 = start
        induction children generalizing start with
        | nil => exact .nil
        | cons child children ihAll =>
            rw [preorderOfAll, List.pairwise_append]
            refine ⟨ih child (by simp) _, ihAll (fun c hc => ih c (by simp [hc])) _, ?_⟩
            intro first hFirst second hSecond
            obtain ⟨below, hBelow⟩ := exists_append_of_mem_preorderFrom hFirst
            obtain ⟨index, rest, hLater, hPath⟩ := exists_index_of_mem_preorderOfAll hSecond
            rw [hBelow, hPath, Path.child, List.append_assoc, Path.order_append]
            exact Path.order_cons_of_lt hLater _ _

end UiLint.Node
