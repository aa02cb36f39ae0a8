import UiLint.Proofs.Tree.Layout
import UiLint.Tree.Splice

/-! Local changes of laid-out trees. Moving what follows a changed node, and checking the
order around it, comes to the same as laying the whole tree out again. -/
namespace UiLint

/-- An offset moves to wherever the distance takes it below the bound. -/
theorem moveOffset?_eq_some {offset target : Nat} {distance : Int}
    (hMove : (offset : Int) + distance = target) (hBound : target < offsetBound) :
    moveOffset? offset distance = some target := by
  have hRange : 0 ≤ (offset : Int) + distance ∧ (offset : Int) + distance < offsetBound := by
    omega
  simp only [moveOffset?, if_pos hRange]
  congr 1
  omega

theorem endDistance_eq_ok {old new : Nat} (hOld : old < distanceBound) (hNew : new < distanceBound) :
    endDistance old new = .ok ((new : Int) - (old : Int)) := by
  rw [endDistance, if_pos ⟨hOld, hNew⟩]

theorem eq_of_endDistance {old new : Nat} {distance : Int}
    (hDistance : endDistance old new = .ok distance) : distance = (new : Int) - old := by
  rw [endDistance] at hDistance
  split at hDistance
  · exact (Except.ok.inj hDistance).symm
  · cases hDistance

theorem lt_of_endDistance {old new : Nat} {distance : Int}
    (hDistance : endDistance old new = .ok distance) :
    old < distanceBound ∧ new < distanceBound := by
  rw [endDistance] at hDistance
  split at hDistance
  · assumption
  · cases hDistance

namespace Node

/-- Nodes laid out one after the other inside their parent are in order. -/
theorem firstMisplaced?_layoutAll (parent : Node) (start : Nat) (nodes : List Node)
    (hInside : start + sizeOfAll nodes ≤ parent.span.stop) :
    firstMisplaced? parent start (layoutAll start nodes) = none := by
  induction nodes generalizing start with
  | nil => rfl
  | cons node nodes ih =>
      rw [sizeOfAll_cons] at hInside
      have hOrder : childInOrder parent.span start (node.layout start).span = true := by
        simp only [childInOrder, start_layout, stop_layout, Bool.and_eq_true, decide_eq_true_eq]
        omega
      rw [layoutAll, firstMisplaced?, if_pos hOrder]
      apply ih
      rw [stop_layout]
      omega

theorem childFault?_layout {node : Node} (h : node.WellFormed) (start : Nat) :
    (node.layout start).childFault? = none := by
  rw [childFault?, start_layout]
  cases hText : node.payload.tokenText? with
  | some text =>
      rw [layout_of_token start hText]
      simp [h.children_eq_nil hText, firstMisplaced?]
  | none =>
      have hChildren : (node.layout start).children = layoutAll start node.children := by
        rw [layout_of_inner start hText]
      rw [hChildren]
      apply firstMisplaced?_layoutAll
      exact Nat.le_of_eq (by rw [stop_layout, size_of_inner hText])

theorem subtreeFault?_eq (node : Node) :
    node.subtreeFault? = match node.childFault? with
      | some error => some error
      | none => subtreeFaultOfAll? node.children := by
  cases node
  unfold subtreeFault?
  rfl

theorem subtreeFaultOfAll?_eq_none {nodes : List Node}
    (h : ∀ node ∈ nodes, node.subtreeFault? = none) : subtreeFaultOfAll? nodes = none := by
  induction nodes with
  | nil => rfl
  | cons node nodes ih =>
      rw [subtreeFaultOfAll?, h node (by simp)]
      exact ih fun n hn => h n (by simp [hn])

/-- A laid-out tree has no fault. -/
theorem subtreeFault?_layout {node : Node} (h : node.WellFormed) (start : Nat) :
    (node.layout start).subtreeFault? = none := by
  induction h generalizing start with
  | @intro node fits leaf parts ih =>
      have hWell : node.WellFormed := .intro fits leaf parts
      rw [subtreeFault?_eq, childFault?_layout hWell]
      apply subtreeFaultOfAll?_eq_none
      intro child hChild
      cases hText : node.payload.tokenText? with
      | some text =>
          rw [layout_of_token start hText] at hChild
          simp [hWell.children_eq_nil hText] at hChild
      | none =>
          rw [layout_of_inner start hText] at hChild
          obtain ⟨old, hOld, offset, rfl⟩ := mem_layoutAll hChild
          exact ih old hOld offset

/-- Nor is there a fault along any way down a laid-out tree. -/
theorem faultAlong?_layout {node below : Node} (h : node.WellFormed) (start : Nat) (whole : Path)
    {path : Path} (hBelow : node.descendant? path = some below) :
    (node.layout start).faultAlong? whole path = none := by
  induction path generalizing node start with
  | nil => exact subtreeFault?_layout h start
  | cons index path ih =>
      obtain ⟨child, hChild, hRest⟩ := descendant?_cons_eq_some_iff.mp hBelow
      have hMem := List.mem_of_getElem? hChild
      have hInner := h.tokenText?_eq_none hMem
      rw [faultAlong?, childFault?_layout h, layout_of_inner start hInner]
      simp only [getElem?_layoutAll, hChild, Option.map_some]
      exact ih (h.parts child hMem) _ hRest

theorem shift_eq (distance : Int) (node : Node) :
    node.shift distance = match node.span.shifted? distance with
      | none => .error (.offsetOverflow node.span.start)
      | some moved =>
        match shiftAll distance node.children with
        | .error error => .error error
        | .ok shifted => .ok { node with span := moved, children := shifted } := by
  cases node
  unfold shift
  rfl

/-- Moving laid-out nodes lays them out from their new start, if it does so for each. -/
theorem shiftAll_layoutAll_of {nodes : List Node} {start target : Nat} {distance : Int}
    (hMove : (start : Int) + distance = target) (hBound : target + sizeOfAll nodes < offsetBound)
    (hShift : ∀ node ∈ nodes, ∀ start target : Nat, (start : Int) + distance = target →
      target + node.size < offsetBound →
      (node.layout start).shift distance = .ok (node.layout target)) :
    shiftAll distance (layoutAll start nodes) = .ok (layoutAll target nodes) := by
  induction nodes generalizing start target with
  | nil => rfl
  | cons node nodes ih =>
      rw [sizeOfAll_cons] at hBound
      have hFirst := hShift node (by simp) start target hMove (by omega)
      have hStop : ((start + node.size : Nat) : Int) + distance = (target + node.size : Nat) := by
        omega
      have hRest := ih hStop (by omega) fun n hn => hShift n (by simp [hn])
      simp only [layoutAll, stop_layout, shiftAll, hFirst, hRest]

/-- A laid-out node that is moved is laid out from its new start. -/
theorem shift_layout {node : Node} (h : node.WellFormed) {start target : Nat} {distance : Int}
    (hMove : (start : Int) + distance = target) (hBound : target + node.size < offsetBound) :
    (node.layout start).shift distance = .ok (node.layout target) := by
  induction h generalizing start target with
  | @intro node fits leaf parts ih =>
      have hStop : ((start + node.size : Nat) : Int) + distance = (target + node.size : Nat) := by
        omega
      have hSpan : (node.layout start).span.shifted? distance =
          some (node.layout target).span := by
        simp only [span_layout, Span.shifted?, moveOffset?_eq_some hMove (by omega),
          moveOffset?_eq_some hStop hBound]
      have hChildren : shiftAll distance (node.layout start).children =
          .ok (node.layout target).children := by
        cases hText : node.payload.tokenText? with
        | some text =>
            have hNone := (WellFormed.intro fits leaf parts).children_eq_nil hText
            rw [layout_of_token start hText, layout_of_token target hText]
            simp [hNone, shiftAll]
        | none =>
            rw [size_of_inner hText] at hBound
            rw [layout_of_inner start hText, layout_of_inner target hText]
            exact shiftAll_layoutAll_of hMove hBound fun child hChild _ _ => ih child hChild
      rw [shift_eq, hSpan, layout_eq_mk target]
      simp [hChildren]

theorem shiftAll_layoutAll {nodes : List Node} (h : ∀ node ∈ nodes, node.WellFormed)
    {start target : Nat} {distance : Int} (hMove : (start : Int) + distance = target)
    (hBound : target + sizeOfAll nodes < offsetBound) :
    shiftAll distance (layoutAll start nodes) = .ok (layoutAll target nodes) :=
  shiftAll_layoutAll_of hMove hBound fun node hNode _ _ => shift_layout (h node hNode)

/-- One step down the path of a change: the node ends later, the children that follow are
moved, and the child on the way is dealt with further down. -/
theorem shiftAfter_cons (node : Node) (before : List Node) {part changed : Node}
    {after following : List Node} {distance : Int} {stop : Nat} {path : Path}
    (hStop : moveOffset? node.span.stop distance = some stop)
    (hAfter : shiftAll distance after = .ok following)
    (hPart : part.shiftAfter distance path = .ok changed) :
    ({ node with children := before ++ part :: after } : Node).shiftAfter distance
        (before.length :: path) =
      .ok { node with
        span := ⟨node.span.start, stop⟩
        children := before ++ changed :: following } := by
  simp [shiftAfter, hStop, hAfter, hPart]

/-- Replacing a node of a laid-out tree by another one that is laid out from the same start,
and moving what follows, is laying the changed tree out. -/
theorem shiftAfter_replaceAt {node old new : Node} {start : Nat} {path : Path}
    (h : node.WellFormed) (hLaid : node.layout start = node)
    (hOld : node.descendant? path = some old)
    (hNew : new.layout (start + node.offsetAt path) = new)
    (hBound : start + (node.replaceAt path new).size < offsetBound) :
    (node.replaceAt path new).shiftAfter ((new.size : Int) - old.size) path =
      .ok ((node.replaceAt path new).layout start) := by
  induction path generalizing node start with
  | nil =>
      rw [replaceAt, shiftAfter]
      simpa [offsetAt] using hNew.symm
  | cons index path ih =>
      have hSize := size_replaceAt h hOld new
      have hStart := start_of_layout_eq hLaid
      have hEnd := stop_of_layout_eq hLaid
      obtain ⟨child, hChild, hRest⟩ := descendant?_cons_eq_some_iff.mp hOld
      have hMem := List.mem_of_getElem? hChild
      have hInner := h.tokenText?_eq_none hMem
      have hIndex : (node.children.take index).length = index := by
        obtain ⟨hIndex, -⟩ := List.getElem?_eq_some_iff.mp hChild
        rw [List.length_take]
        omega
      obtain ⟨hBefore, hHere, hAfter⟩ :=
        layoutAll_around (layoutAll_children h hLaid hMem) hChild
      have hGrown := size_replaceAt (h.parts child hMem) hRest new
      have hTotal : (node.replaceAt (index :: path) new).size =
          sizeOfAll (node.children.take index) + (child.replaceAt path new).size +
            sizeOfAll (node.children.drop (index + 1)) := by
        rw [replaceAt_cons path new hChild, size_of_inner (by exact hInner), sizeOfAll_append,
          sizeOfAll_cons, Nat.add_assoc]
      rw [offsetAt_cons path hChild, ← Nat.add_assoc] at hNew
      have hPart := ih (h.parts child hMem) hHere hRest hNew (by omega)
      have hFollowing : shiftAll ((new.size : Int) - old.size)
          (layoutAll (start + sizeOfAll (node.children.take index) + child.size)
            (node.children.drop (index + 1))) =
          .ok (layoutAll (start + sizeOfAll (node.children.take index) +
            (child.replaceAt path new).size) (node.children.drop (index + 1))) :=
        shiftAll_layoutAll (fun n hn => h.parts n (List.mem_of_mem_drop hn)) (by omega) (by omega)
      rw [hAfter] at hFollowing
      have hStop : moveOffset? node.span.stop ((new.size : Int) - old.size) =
          some (start + (node.replaceAt (index :: path) new).size) := by
        apply moveOffset?_eq_some _ hBound
        omega
      have hStep := shiftAfter_cons node (node.children.take index) hStop hFollowing hPart
      rw [hIndex, hTotal] at hStep
      rw [replaceAt_cons path new hChild, hStep, layout_inner_eq start (by exact hInner)]
      simp only [layoutAll_append, layoutAll, hBefore, stop_layout, hStart, sizeOfAll_append,
        sizeOfAll_cons, Nat.add_assoc]

/-- A node that has been moved up to a replacement without running out of offsets is laid out. -/
theorem eq_layout_of_shiftAfter {node old new moved : Node} {start : Nat} {path : Path}
    (h : node.WellFormed) (hLaid : node.layout start = node)
    (hOld : node.descendant? path = some old)
    (hNew : new.layout (start + node.offsetAt path) = new)
    (hMoved : (node.replaceAt path new).shiftAfter ((new.size : Int) - old.size) path = .ok moved) :
    moved = (node.replaceAt path new).layout start := by
  cases path with
  | nil =>
      cases hMoved
      exact hNew.symm
  | cons index path =>
      have hSize := size_replaceAt h hOld new
      have hStop := stop_of_layout_eq hLaid
      -- The end of the node has been moved, so its new end is an offset.
      have hBound : start + (node.replaceAt (index :: path) new).size < offsetBound := by
        refine Decidable.byContradiction fun hBeyond => ?_
        have hNone : moveOffset? node.span.stop ((new.size : Int) - old.size) = none := by
          rw [moveOffset?]
          exact if_neg (by omega)
        rw [replaceAt, shiftAfter] at hMoved
        simp only [hNone, reduceCtorEq] at hMoved
      rw [shiftAfter_replaceAt h hLaid hOld hNew hBound] at hMoved
      exact (Except.ok.inj hMoved).symm

/-- Moving what follows a node leaves the node itself alone. -/
theorem descendant?_shiftAfter {node moved : Node} {distance : Int} {path : Path}
    (hMoved : node.shiftAfter distance path = .ok moved) :
    moved.descendant? path = node.descendant? path := by
  induction path generalizing node moved with
  | nil =>
      cases hMoved
      rfl
  | cons index path ih =>
      rw [shiftAfter] at hMoved
      split at hMoved
      · cases hMoved
      · split at hMoved
        · cases hMoved
        · split at hMoved
          · cases hMoved
          · rename_i child hChild
            split at hMoved
            · cases hMoved
            · rename_i changed hChanged
              cases hMoved
              obtain ⟨hIndex, -⟩ := List.getElem?_eq_some_iff.mp hChild
              have hHere : (node.children.take index).length = index := by
                rw [List.length_take]
                omega
              rw [descendant?_cons, descendant?_cons, hChild,
                List.getElem?_append_right (Nat.le_of_eq hHere), hHere, Nat.sub_self]
              exact ih hChanged

end Node

namespace SourceTree

/-- What it takes to put a node in the place of another. -/
theorem replaceSubtree_eq_ok_iff {tree next : SourceTree} {path : Path} {new : Node} :
    tree.replaceSubtree path new = .ok next ↔ ∃ old, tree.root.descendant? path = some old ∧
      new.span.start = old.span.start ∧ old.span.stop < distanceBound ∧
      new.span.stop < distanceBound ∧
      (tree.root.replaceAt path new).shiftAfter ((new.span.stop : Int) - old.span.stop) path =
        .ok next.root ∧
      next.root.faultAlong? path path = none := by
  constructor
  · intro hNext
    rw [replaceSubtree] at hNext
    split at hNext
    · cases hNext
    · rename_i old hOld
      split at hNext
      · rename_i hStart
        split at hNext
        · cases hNext
        · rename_i distance hDistance
          split at hNext
          · cases hNext
          · rename_i root hMoved
            split at hNext
            · cases hNext
            · rename_i hNone
              cases hNext
              rw [eq_of_endDistance hDistance] at hMoved
              obtain ⟨hOldStop, hNewStop⟩ := lt_of_endDistance hDistance
              exact ⟨old, hOld, hStart, hOldStop, hNewStop, hMoved, hNone⟩
      · cases hNext
  · rintro ⟨old, hOld, hStart, hOldStop, hNewStop, hMoved, hNone⟩
    simp only [replaceSubtree, hOld, if_pos hStart, endDistance_eq_ok hOldStop hNewStop, hMoved,
      hNone]

theorem descendant?_replaceSubtree {tree changed : SourceTree} {path : Path} {replacement : Node}
    (hChanged : tree.replaceSubtree path replacement = .ok changed) :
    changed.root.descendant? path = some replacement := by
  obtain ⟨old, hOld, -, -, -, hMoved, -⟩ := replaceSubtree_eq_ok_iff.mp hChanged
  rw [Node.descendant?_shiftAfter hMoved, Node.descendant?_replaceAt_self hOld]

/-- Replacing a node of a laid-out tree by one that is laid out from the same start succeeds
as long as the text fits before and after, and lays the changed tree out. -/
theorem replaceSubtree_eq_ok {tree : SourceTree} {path : Path} {old new : Node}
    (h : tree.root.WellFormed) (hLaid : tree.root.layout 0 = tree.root)
    (hOld : tree.root.descendant? path = some old) (hWell : new.WellFormed)
    (hNew : new.layout (tree.root.offsetAt path) = new) (hFits : tree.root.size < distanceBound)
    (hStillFits : (tree.root.replaceAt path new).size < distanceBound) :
    tree.replaceSubtree path new = .ok ⟨(tree.root.replaceAt path new).layout 0⟩ := by
  have hOldLaid := Node.layout_start_of_descendant h hLaid hOld
  rw [Nat.zero_add] at hOldLaid
  have hOldStop := Node.stop_of_layout_eq hOldLaid
  have hNewStop := Node.stop_of_layout_eq hNew
  have hInside := Node.offsetAt_add_size_le h hOld
  have hSize := Node.size_replaceAt h hOld new
  have hDistance : endDistance old.span.stop new.span.stop = .ok ((new.size : Int) - old.size) := by
    rw [endDistance_eq_ok (by omega) (by omega)]
    congr 1
    omega
  have hBound : 0 + (tree.root.replaceAt path new).size < offsetBound := by
    have : distanceBound < offsetBound := by decide
    omega
  have hShift := Node.shiftAfter_replaceAt h hLaid hOld (by rwa [Nat.zero_add]) hBound
  have hFault := Node.faultAlong?_layout (h.replaceAt hWell path) 0 path
    (Node.descendant?_replaceAt_self hOld new)
  have hStart : new.span.start = old.span.start := by
    rw [Node.start_of_layout_eq hNew, Node.start_of_layout_eq hOldLaid]
  simp only [replaceSubtree, hOld, if_pos hStart, hDistance, hShift, hFault]

/-- A node that has been put into a laid-out tree leaves it laid out. -/
theorem root_of_replaceSubtree {tree next : SourceTree} {path : Path} {old new : Node}
    (h : tree.root.WellFormed) (hLaid : tree.root.layout 0 = tree.root)
    (hOld : tree.root.descendant? path = some old) (hNew : new.Canonical)
    (hNext : tree.replaceSubtree path new = .ok next) :
    next.root = (tree.root.replaceAt path new).layout 0 := by
  have hOldLaid := Node.layout_start_of_descendant h hLaid hOld
  have hOldStop := Node.stop_of_layout_eq hOldLaid
  have hNewStop := hNew.stop_eq
  obtain ⟨found, hFound, hStart, -, -, hMoved, -⟩ := replaceSubtree_eq_ok_iff.mp hNext
  cases hOld.symm.trans hFound
  rw [Node.start_of_layout_eq hOldLaid] at hStart
  have hGrowth : (new.span.stop : Int) - old.span.stop = (new.size : Int) - old.size := by
    omega
  rw [hGrowth] at hMoved
  exact Node.eq_layout_of_shiftAfter h hLaid hOld (by rw [← hStart, hNew.laid]) hMoved

end SourceTree

end UiLint
