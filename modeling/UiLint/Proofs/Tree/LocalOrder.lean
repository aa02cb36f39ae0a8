import UiLint.Proofs.Tree.Splice

/-! The order of spans around a replaced node. Only the way down to the node and the node itself are
checked, but what passes that check is in order as a whole: whatever else there is has been in order
before, and has been moved as one. Conversely a node that is in order itself and starts where the
old one did passes the check, as long as there are offsets left to move to. -/
namespace UiLint

theorem moveOffset?_eq_some_iff {offset target : Nat} {distance : Int} :
    moveOffset? offset distance = some target ↔
      (offset : Int) + distance = target ∧ target < offsetBound := by
  refine ⟨fun hMove => ?_, fun hMove => moveOffset?_eq_some hMove.1 hMove.2⟩
  simp only [moveOffset?] at hMove
  split at hMove
  · cases hMove
    omega
  · cases hMove

theorem Span.shifted?_eq_some_iff {span target : Span} {distance : Int} :
    span.shifted? distance = some target ↔
      moveOffset? span.start distance = some target.start ∧
        moveOffset? span.stop distance = some target.stop := by
  obtain ⟨start, stop⟩ := target
  rw [shifted?]
  cases moveOffset? span.start distance <;> cases moveOffset? span.stop distance <;> simp

namespace Node

/-- The nodes follow one another between two offsets, and none of them ends before it starts. -/
def Follow (start stop : Nat) : List Node → Prop
  | [] => True
  | node :: nodes =>
    start ≤ node.span.start ∧ node.span.start ≤ node.span.stop ∧ node.span.stop ≤ stop ∧
      Follow node.span.stop stop nodes

/-- At the node and everywhere below it, children follow one another inside their parent. -/
inductive Ordered : Node → Prop where
  | intro {node : Node} (children : Follow node.span.start node.span.stop node.children)
      (parts : ∀ child ∈ node.children, Ordered child) : Ordered node

variable {node old new next : Node} {nodes moved : List Node} {start stop : Nat}
  {distance : Int} {index : Nat} {path : Path}

theorem Ordered.children (h : node.Ordered) :
    Follow node.span.start node.span.stop node.children := by
  cases h
  assumption

theorem Ordered.parts (h : node.Ordered) : ∀ child ∈ node.children, child.Ordered := by
  cases h
  assumption

theorem firstMisplaced?_eq_none_iff {parent : Node} {previous : Nat} :
    firstMisplaced? parent previous nodes = none ↔ Follow previous parent.span.stop nodes := by
  induction nodes generalizing previous with
  | nil => simp [firstMisplaced?, Follow]
  | cons node nodes ih =>
      rw [firstMisplaced?, Follow, ← ih]
      split
      · rename_i hOrder
        simp only [childInOrder, Bool.and_eq_true, decide_eq_true_eq] at hOrder
        simp [hOrder]
      · rename_i hOrder
        simp only [childInOrder, Bool.and_eq_true, decide_eq_true_eq] at hOrder
        refine iff_of_false (Option.some_ne_none _) ?_
        rintro ⟨hStart, hForward, hStop, -⟩
        exact hOrder ⟨⟨hStart, hForward⟩, hStop⟩

theorem childFault?_eq_none_iff :
    node.childFault? = none ↔ Follow node.span.start node.span.stop node.children :=
  firstMisplaced?_eq_none_iff

theorem subtreeFaultOfAll?_eq_none_iff :
    subtreeFaultOfAll? nodes = none ↔ ∀ node ∈ nodes, node.subtreeFault? = none := by
  refine ⟨fun hNone => ?_, subtreeFaultOfAll?_eq_none⟩
  induction nodes with
  | nil => simp
  | cons node nodes ih =>
      rw [subtreeFaultOfAll?] at hNone
      split at hNone
      · cases hNone
      · rename_i hNode
        exact List.forall_mem_cons.mpr ⟨hNode, ih hNone⟩

/-- The check of a subtree finds no fault exactly if it is in order. -/
theorem subtreeFault?_eq_none_iff : node.subtreeFault? = none ↔ node.Ordered := by
  induction node using inductionOn with
  | step kind span payload children ih =>
      rw [subtreeFault?_eq]
      constructor
      · intro hNone
        split at hNone
        · cases hNone
        · rename_i hHere
          exact .intro (childFault?_eq_none_iff.mp hHere) fun child hChild =>
            (ih child hChild).mp (subtreeFaultOfAll?_eq_none_iff.mp hNone child hChild)
      · intro h
        rw [childFault?_eq_none_iff.mpr h.children]
        exact subtreeFaultOfAll?_eq_none fun child hChild =>
          (ih child hChild).mpr (h.parts child hChild)

theorem Follow.mem (h : Follow start stop nodes) (hNode : node ∈ nodes) :
    start ≤ node.span.start ∧ node.span.start ≤ node.span.stop ∧ node.span.stop ≤ stop := by
  induction nodes generalizing start with
  | nil => cases hNode
  | cons first nodes ih =>
      obtain ⟨hStart, hForward, hStop, hRest⟩ := h
      rcases List.mem_cons.mp hNode with rfl | hNode
      · exact ⟨hStart, hForward, hStop⟩
      · obtain ⟨hAfter, hInside⟩ := ih hRest hNode
        exact ⟨by omega, hInside⟩

theorem follow_append {first second : List Node} :
    Follow start stop (first ++ second) ↔
      Follow start stop first ∧ Follow (endOfAll start first) stop second := by
  induction first generalizing start with
  | nil => simp [Follow, endOfAll]
  | cons node nodes ih =>
      rw [List.cons_append, Follow, Follow, ih, endOfAll_cons]
      simp only [and_assoc]

theorem Follow.le_endOfAll (h : Follow start stop nodes) : start ≤ endOfAll start nodes := by
  induction nodes generalizing start with
  | nil => exact Nat.le_refl start
  | cons node nodes ih =>
      obtain ⟨hStart, hForward, -, hRest⟩ := h
      have hLast := ih hRest
      rw [endOfAll_cons]
      omega

/-- Nodes that follow one another do so up to any offset that the last of them does not pass. -/
theorem Follow.of_endOfAll_le (h : Follow start stop nodes) {bound : Nat}
    (hBound : endOfAll start nodes ≤ bound) : Follow start bound nodes := by
  induction nodes generalizing start with
  | nil => trivial
  | cons node nodes ih =>
      obtain ⟨hStart, hForward, -, hRest⟩ := h
      rw [endOfAll_cons] at hBound
      exact ⟨hStart, hForward, Nat.le_trans hRest.le_endOfAll hBound, ih hRest hBound⟩

/-- What lies below a node in order is in order, and does not reach out of it. -/
theorem Ordered.descendant (h : node.Ordered) (hForward : node.span.start ≤ node.span.stop)
    {below : Node} (hBelow : node.descendant? path = some below) :
    below.Ordered ∧ node.span.start ≤ below.span.start ∧ below.span.start ≤ below.span.stop ∧
      below.span.stop ≤ node.span.stop := by
  induction path generalizing node with
  | nil =>
      cases hBelow
      exact ⟨h, Nat.le_refl _, hForward, Nat.le_refl _⟩
  | cons index path ih =>
      obtain ⟨child, hChild, hRest⟩ := descendant?_cons_eq_some_iff.mp hBelow
      have hMem := List.mem_of_getElem? hChild
      obtain ⟨hStart, hChildForward, hStop⟩ := h.children.mem hMem
      obtain ⟨hOrdered, hAfter, hInside, hBefore⟩ := ih (h.parts child hMem) hChildForward hRest
      exact ⟨hOrdered, by omega, hInside, by omega⟩

/-- The children of a node in order, seen from one of them. -/
theorem Ordered.around (h : node.Ordered) {child : Node}
    (hChild : node.children[index]? = some child) :
    Follow node.span.start child.span.start (node.children.take index) ∧
      endOfAll node.span.start (node.children.take index) ≤ child.span.start ∧
      child.span.start ≤ child.span.stop ∧ child.span.stop ≤ node.span.stop ∧
      Follow child.span.stop node.span.stop (node.children.drop (index + 1)) := by
  obtain ⟨hIndex, rfl⟩ := List.getElem?_eq_some_iff.mp hChild
  have hAll := h.children
  rw [← List.take_append_drop index node.children, List.drop_eq_getElem_cons hIndex,
    follow_append, Follow] at hAll
  obtain ⟨hBefore, hStart, hForward, hStop, hAfter⟩ := hAll
  exact ⟨hBefore.of_endOfAll_le hStart, hStart, hForward, hStop, hAfter⟩

theorem shift_eq_ok_iff :
    node.shift distance = .ok next ↔ ∃ span children, node.span.shifted? distance = some span ∧
      shiftAll distance node.children = .ok children ∧
      next = { node with span := span, children := children } := by
  rw [shift_eq]
  cases node.span.shifted? distance with
  | none => simp
  | some span => cases shiftAll distance node.children <;> simp [eq_comm]

theorem shiftAll_cons_eq_ok_iff :
    shiftAll distance (node :: nodes) = .ok moved ↔ ∃ first rest, node.shift distance = .ok first ∧
      shiftAll distance nodes = .ok rest ∧ moved = first :: rest := by
  rw [shiftAll]
  cases node.shift distance with
  | error error => simp
  | ok first => cases shiftAll distance nodes <;> simp [eq_comm]

theorem span_of_shift (h : node.shift distance = .ok next) :
    (node.span.start : Int) + distance = next.span.start ∧
      (node.span.stop : Int) + distance = next.span.stop := by
  obtain ⟨span, children, hSpan, -, rfl⟩ := shift_eq_ok_iff.mp h
  obtain ⟨hStart, hStop⟩ := Span.shifted?_eq_some_iff.mp hSpan
  exact ⟨(moveOffset?_eq_some_iff.mp hStart).1, (moveOffset?_eq_some_iff.mp hStop).1⟩

/-- Nodes that follow one another still do so once they have been moved. -/
theorem Follow.shiftAll (h : Follow start stop nodes) (hMoved : shiftAll distance nodes = .ok moved)
    {first last : Nat} (hFirst : (start : Int) + distance = first)
    (hLast : (stop : Int) + distance = last) : Follow first last moved := by
  induction nodes generalizing start first moved with
  | nil =>
      cases hMoved
      trivial
  | cons node nodes ih =>
      obtain ⟨hStart, hForward, hStop, hRest⟩ := h
      obtain ⟨next, rest, hNext, hNodes, rfl⟩ := shiftAll_cons_eq_ok_iff.mp hMoved
      obtain ⟨hNewStart, hNewStop⟩ := span_of_shift hNext
      exact ⟨by omega, by omega, by omega, ih hRest hNodes hNewStop⟩

theorem exists_shift_of_mem (hMoved : shiftAll distance nodes = .ok moved) (hNext : next ∈ moved) :
    ∃ node ∈ nodes, node.shift distance = .ok next := by
  induction nodes generalizing moved with
  | nil =>
      cases hMoved
      cases hNext
  | cons node nodes ih =>
      obtain ⟨first, rest, hFirst, hRest, rfl⟩ := shiftAll_cons_eq_ok_iff.mp hMoved
      rcases List.mem_cons.mp hNext with rfl | hNext
      · exact ⟨node, List.mem_cons_self, hFirst⟩
      · obtain ⟨below, hBelow, hShift⟩ := ih hRest hNext
        exact ⟨below, List.mem_cons_of_mem node hBelow, hShift⟩

/-- A node in order is still in order once it has been moved. -/
theorem Ordered.shift (h : node.Ordered) (hMoved : node.shift distance = .ok next) :
    next.Ordered := by
  induction h generalizing next with
  | @intro node children parts ih =>
      obtain ⟨hStart, hStop⟩ := span_of_shift hMoved
      obtain ⟨span, moved, -, hChildren, rfl⟩ := shift_eq_ok_iff.mp hMoved
      refine .intro (children.shiftAll hChildren hStart hStop) fun child hChild => ?_
      obtain ⟨old, hOld, hShift⟩ := exists_shift_of_mem hChildren hChild
      exact ih old hOld hShift

/-- Nodes that follow one another can be moved as long as the offsets around them can, if each of
them can. -/
theorem Follow.exists_shiftAll_of (h : Follow start stop nodes)
    (hLow : 0 ≤ (start : Int) + distance) (hHigh : (stop : Int) + distance < offsetBound)
    (hShift : ∀ node ∈ nodes, 0 ≤ (node.span.start : Int) + distance →
      node.span.start ≤ node.span.stop → (node.span.stop : Int) + distance < offsetBound →
      ∃ next, node.shift distance = .ok next) :
    ∃ moved, Node.shiftAll distance nodes = .ok moved := by
  induction nodes generalizing start with
  | nil => exact ⟨[], rfl⟩
  | cons node nodes ih =>
      obtain ⟨hStart, hForward, hStop, hRest⟩ := h
      rw [List.forall_mem_cons] at hShift
      obtain ⟨first, hFirst⟩ := hShift.1 (by omega) hForward (by omega)
      obtain ⟨rest, hMoved⟩ := ih hRest (by omega) hShift.2
      exact ⟨first :: rest, shiftAll_cons_eq_ok_iff.mpr ⟨first, rest, hFirst, hMoved, rfl⟩⟩

/-- A node in order can be moved as long as both of its ends can. -/
theorem Ordered.exists_shift (h : node.Ordered) (hLow : 0 ≤ (node.span.start : Int) + distance)
    (hForward : node.span.start ≤ node.span.stop)
    (hHigh : (node.span.stop : Int) + distance < offsetBound) :
    ∃ next, node.shift distance = .ok next := by
  induction h with
  | @intro node children parts ih =>
      obtain ⟨moved, hMoved⟩ := children.exists_shiftAll_of hLow hHigh ih
      have hStart : moveOffset? node.span.start distance =
          some ((node.span.start : Int) + distance).toNat :=
        moveOffset?_eq_some_iff.mpr (by omega)
      have hStop : moveOffset? node.span.stop distance =
          some ((node.span.stop : Int) + distance).toNat :=
        moveOffset?_eq_some_iff.mpr (by omega)
      exact ⟨_, shift_eq_ok_iff.mpr
        ⟨⟨_, _⟩, moved, Span.shifted?_eq_some_iff.mpr ⟨hStart, hStop⟩, hMoved, rfl⟩⟩

theorem Follow.exists_shiftAll (h : Follow start stop nodes) (hParts : ∀ node ∈ nodes, node.Ordered)
    (hLow : 0 ≤ (start : Int) + distance) (hHigh : (stop : Int) + distance < offsetBound) :
    ∃ moved, Node.shiftAll distance nodes = .ok moved :=
  h.exists_shiftAll_of hLow hHigh fun node hNode => (hParts node hNode).exists_shift

/-- Moving what follows a replaced node, one step further up. -/
theorem shiftAfter_replaceAt_cons_eq_ok_iff {child : Node}
    (hChild : node.children[index]? = some child) :
    (node.replaceAt (index :: path) new).shiftAfter distance (index :: path) = .ok next ↔
      ∃ stop following changed, moveOffset? node.span.stop distance = some stop ∧
        shiftAll distance (node.children.drop (index + 1)) = .ok following ∧
        (child.replaceAt path new).shiftAfter distance path = .ok changed ∧
        next = { node with
          span := ⟨node.span.start, stop⟩
          children := node.children.take index ++ changed :: following } := by
  have hTake : (node.children.take index).modify index (replaceAt · path new) =
      node.children.take index :=
    List.modify_eq_self (List.length_take_le index node.children)
  rw [replaceAt, shiftAfter]
  simp only [List.drop_modify_of_lt _ _ _ _ (Nat.lt_succ_self index), List.take_modify, hTake,
    List.getElem?_modify_eq, hChild, Option.map_eq_map, Option.map_some]
  cases moveOffset? node.span.stop distance with
  | none => simp
  | some stop =>
      cases shiftAll distance (node.children.drop (index + 1)) with
      | error error => simp
      | ok following =>
          cases (child.replaceAt path new).shiftAfter distance path <;> simp [eq_comm]

theorem length_take_of_getElem? {child : Node} (hChild : nodes[index]? = some child) :
    (nodes.take index).length = index := by
  obtain ⟨hIndex, -⟩ := List.getElem?_eq_some_iff.mp hChild
  exact List.length_take_of_le (Nat.le_of_lt hIndex)

/-- The check goes on at the child that the way leads to. -/
theorem faultAlong?_cons_eq_none_iff {whole : Path} {following : List Node} {child changed : Node}
    (hChild : node.children[index]? = some child)
    (hNext : next.children = node.children.take index ++ changed :: following) :
    next.faultAlong? whole (index :: path) = none ↔
      Follow next.span.start next.span.stop next.children ∧
        changed.faultAlong? whole path = none := by
  have hHere : next.children[index]? = some changed := by
    have hIndex := length_take_of_getElem? hChild
    rw [hNext, List.getElem?_append_right (Nat.le_of_eq hIndex), hIndex, Nat.sub_self]
    rfl
  rw [faultAlong?, ← childFault?_eq_none_iff, hHere]
  cases next.childFault? <;> simp

/-- What passes the check along the way down to a replaced node is in order as a whole. -/
theorem Ordered.of_faultAlong? {whole : Path} (h : node.Ordered)
    (hOld : node.descendant? path = some old)
    (hMoved : (node.replaceAt path new).shiftAfter distance path = .ok next)
    (hNone : next.faultAlong? whole path = none) : next.Ordered := by
  induction path generalizing node next with
  | nil => exact subtreeFault?_eq_none_iff.mp hNone
  | cons index path ih =>
      obtain ⟨child, hChild, hRest⟩ := descendant?_cons_eq_some_iff.mp hOld
      obtain ⟨stop, following, changed, -, hFollowing, hChanged, rfl⟩ :=
        (shiftAfter_replaceAt_cons_eq_ok_iff hChild).mp hMoved
      obtain ⟨hHere, hBelow⟩ := (faultAlong?_cons_eq_none_iff hChild rfl).mp hNone
      refine .intro hHere fun part hPart => ?_
      rcases List.mem_append.mp hPart with hPart | hPart
      · exact h.parts part (List.mem_of_mem_take hPart)
      · rcases List.mem_cons.mp hPart with rfl | hPart
        · exact ih (h.parts child (List.mem_of_getElem? hChild)) hRest hChanged hBelow
        · obtain ⟨sibling, hSibling, hShift⟩ := exists_shift_of_mem hFollowing hPart
          exact (h.parts sibling (List.mem_of_mem_drop hSibling)).shift hShift

/-- A node in order that starts where the old one did and does not end before that passes the check
along the way down to it, as long as the end of the whole can be moved. -/
theorem Ordered.exists_shiftAfter (whole : Path) (h : node.Ordered)
    (hOld : node.descendant? path = some old) (hStart : new.span.start = old.span.start)
    (hNew : new.Ordered) (hForward : new.span.start ≤ new.span.stop)
    (hDistance : (old.span.stop : Int) + distance = new.span.stop)
    (hHigh : (node.span.stop : Int) + distance < offsetBound) :
    ∃ next, (node.replaceAt path new).shiftAfter distance path = .ok next ∧
      next.faultAlong? whole path = none ∧ next.span.start = node.span.start ∧
      (node.span.stop : Int) + distance = next.span.stop := by
  induction path generalizing node with
  | nil =>
      cases hOld
      exact ⟨new, rfl, subtreeFault?_eq_none_iff.mpr hNew, hStart, hDistance⟩
  | cons index path ih =>
      obtain ⟨child, hChild, hRest⟩ := descendant?_cons_eq_some_iff.mp hOld
      have hChildOrdered := h.parts child (List.mem_of_getElem? hChild)
      obtain ⟨hBefore, hFirst, hChildForward, hStop, hAfter⟩ := h.around hChild
      obtain ⟨-, hInsideStart, -, hInsideStop⟩ := hChildOrdered.descendant hChildForward hRest
      obtain ⟨changed, hChanged, hBelow, hChangedStart, hChangedStop⟩ :=
        ih hChildOrdered hRest (by omega)
      obtain ⟨following, hFollowing⟩ := hAfter.exists_shiftAll
        (fun sibling hSibling => h.parts sibling (List.mem_of_mem_drop hSibling)) (by omega) hHigh
      have hMove : moveOffset? node.span.stop distance =
          some ((node.span.stop : Int) + distance).toNat :=
        moveOffset?_eq_some_iff.mpr (by omega)
      have hEnd : (node.span.stop : Int) + distance =
          (((node.span.stop : Int) + distance).toNat : Nat) := by
        omega
      -- What stands before the child ends at its start, which has not moved.
      have hHere : Follow node.span.start ((node.span.stop : Int) + distance).toNat
          (node.children.take index ++ changed :: following) := by
        refine follow_append.mpr
          ⟨hBefore.of_endOfAll_le (by omega), by omega, by omega, by omega, ?_⟩
        exact hAfter.shiftAll hFollowing hChangedStop hEnd
      exact ⟨_, (shiftAfter_replaceAt_cons_eq_ok_iff hChild).mpr
          ⟨_, following, changed, hMove, hFollowing, hChanged, rfl⟩,
        (faultAlong?_cons_eq_none_iff hChild rfl).mpr ⟨hHere, hBelow⟩, rfl, hEnd⟩

/-- The whole starts where it did, if the replacement starts where the old node did. -/
theorem start_of_shiftAfter (hOld : node.descendant? path = some old)
    (hStart : new.span.start = old.span.start)
    (hMoved : (node.replaceAt path new).shiftAfter distance path = .ok next) :
    next.span.start = node.span.start := by
  cases path with
  | nil =>
      cases hOld
      cases hMoved
      exact hStart
  | cons index path =>
      obtain ⟨child, hChild, -⟩ := descendant?_cons_eq_some_iff.mp hOld
      obtain ⟨stop, following, changed, -, -, -, rfl⟩ :=
        (shiftAfter_replaceAt_cons_eq_ok_iff hChild).mp hMoved
      rfl

/-- The end of the whole could be moved, if the end of the replacement is an offset itself. -/
theorem stop_lt_of_shiftAfter (hOld : node.descendant? path = some old)
    (hDistance : (old.span.stop : Int) + distance = new.span.stop)
    (hNew : new.span.stop < offsetBound)
    (hMoved : (node.replaceAt path new).shiftAfter distance path = .ok next) :
    (node.span.stop : Int) + distance < offsetBound := by
  cases path with
  | nil =>
      cases hOld
      omega
  | cons index path =>
      obtain ⟨child, hChild, -⟩ := descendant?_cons_eq_some_iff.mp hOld
      obtain ⟨stop, following, changed, hStop, -⟩ :=
        (shiftAfter_replaceAt_cons_eq_ok_iff hChild).mp hMoved
      have hMove := moveOffset?_eq_some_iff.mp hStop
      omega

end Node

namespace SourceTree

variable {tree next : SourceTree} {path : Path} {old new : Node}

/-- There are offsets left to put a node in the place of another: both end where distances can be
taken, and the end of the file can be moved by the distance from one to the other. -/
structure HasRoom (tree : SourceTree) (old new : Node) : Prop where
  oldStop : old.span.stop < distanceBound
  newStop : new.span.stop < distanceBound
  fileStop : tree.root.span.stop + new.span.stop < offsetBound + old.span.stop

theorem fault?_eq_none_iff :
    tree.fault? = none ↔ tree.root.span.start = 0 ∧ tree.root.Ordered := by
  rw [fault?, ← Node.subtreeFault?_eq_none_iff]
  split <;> simp [*]

/-- A tree in which a node has been replaced is in order as a whole, although the order has been
checked only around the node. The node can be put there exactly if it starts where the old one did,
does not end before that and is in order itself, and there is room for it. -/
theorem replaceSubtree_keeps_order (hValid : tree.fault? = none)
    (hOld : tree.root.descendant? path = some old) (new : Node) :
    (∀ next, tree.replaceSubtree path new = .ok next → next.fault? = none) ∧
    ((∃ next, tree.replaceSubtree path new = .ok next) ↔
      new.span.start = old.span.start ∧ new.subtreeFault? = none ∧
        new.span.start ≤ new.span.stop ∧ tree.HasRoom old new) := by
  obtain ⟨hZero, hOrdered⟩ := fault?_eq_none_iff.mp hValid
  have hDistance : (old.span.stop : Int) + ((new.span.stop : Int) - old.span.stop) =
      new.span.stop := by
    omega
  have hBounds : distanceBound < offsetBound := by decide
  have hKept : ∀ next, tree.replaceSubtree path new = .ok next →
      next.root.span.start = 0 ∧ next.root.Ordered := by
    intro next hNext
    obtain ⟨found, hFound, hStart, -, -, hMoved, hNone⟩ := replaceSubtree_eq_ok_iff.mp hNext
    rw [Node.start_of_shiftAfter hFound hStart hMoved]
    exact ⟨hZero, hOrdered.of_faultAlong? hFound hMoved hNone⟩
  refine ⟨fun next hNext => fault?_eq_none_iff.mpr (hKept next hNext), ?_, ?_⟩
  · rintro ⟨next, hNext⟩
    obtain ⟨hNextZero, hNextOrdered⟩ := hKept next hNext
    obtain ⟨found, hFound, hStart, hOldStop, hNewStop, hMoved, -⟩ :=
      replaceSubtree_eq_ok_iff.mp hNext
    cases hOld.symm.trans hFound
    have hFile := Node.stop_lt_of_shiftAfter hOld hDistance (by omega) hMoved
    obtain ⟨hNew, -, hForward, -⟩ :=
      hNextOrdered.descendant (by omega) (descendant?_replaceSubtree hNext)
    exact ⟨hStart, Node.subtreeFault?_eq_none_iff.mpr hNew, hForward,
      hOldStop, hNewStop, by omega⟩
  · rintro ⟨hStart, hNew, hForward, hOldStop, hNewStop, hFile⟩
    obtain ⟨root, hMoved, hNone, -⟩ := hOrdered.exists_shiftAfter path hOld hStart
      (Node.subtreeFault?_eq_none_iff.mp hNew) hForward hDistance (by omega)
    exact ⟨⟨root⟩, replaceSubtree_eq_ok_iff.mpr
      ⟨old, hOld, hStart, hOldStop, hNewStop, hMoved, hNone⟩⟩

end SourceTree

namespace Gapped

/-- A node that is to be replaced: it takes up four bytes. -/
def old : Node :=
  ⟨.other, ⟨5, 9⟩, .plain, [⟨.body, ⟨6, 7⟩, .plain, []⟩]⟩

/-- A replacement of a single byte, with an empty node at its start. -/
def new : Node :=
  ⟨.body, ⟨5, 6⟩, .plain, [⟨.other, ⟨5, 5⟩, .plain, []⟩]⟩

/-- A file with gaps between its nodes, an empty node and another one behind it. -/
def tree : SourceTree where
  root := ⟨.file, ⟨0, 20⟩, .plain,
    [⟨.body, ⟨2, 12⟩, .plain, [⟨.other, ⟨2, 4⟩, .plain, []⟩, old, ⟨.other, ⟨9, 12⟩, .plain, []⟩]⟩,
      ⟨.other, ⟨12, 12⟩, .plain, []⟩, ⟨.other, ⟨15, 20⟩, .plain, []⟩]⟩

end Gapped

/-- The replacement is put in although no span of the tree is that of a text, and leaves the order
intact. -/
theorem SourceTree.replaceSubtree_keeps_order_gapped :
    Gapped.tree.fault? = none ∧ Gapped.tree.root.descendant? [0, 1] = some Gapped.old ∧
      Gapped.new.subtreeFault? = none ∧ Gapped.tree.HasRoom Gapped.old Gapped.new ∧
      ∃ next, Gapped.tree.replaceSubtree [0, 1] Gapped.new = .ok next ∧ next.fault? = none := by
  have hValid : Gapped.tree.fault? = none := rfl
  have hOld : Gapped.tree.root.descendant? [0, 1] = some Gapped.old := rfl
  have hRoom : Gapped.tree.HasRoom Gapped.old Gapped.new := ⟨by decide, by decide, by decide⟩
  obtain ⟨hKept, hAccepted⟩ := replaceSubtree_keeps_order hValid hOld Gapped.new
  obtain ⟨next, hNext⟩ := hAccepted.mpr ⟨rfl, rfl, by decide, hRoom⟩
  exact ⟨hValid, hOld, rfl, hRoom, next, hNext, hKept next hNext⟩

end UiLint
