import UiLint.Proofs.Tree.Shape

/-! Trees with one more child at chosen places. A place is chosen by its path in the tree as it
was; as new children come last, every old node keeps its path. -/
namespace UiLint.Node

mutual

/-- The node with `extra` as a further last child of each chosen node at or below it. -/
def appendAt : Node → (extra : Node) → (chosen : Path → Bool) → Node
  | ⟨kind, span, payload, children⟩, extra, chosen =>
    ⟨kind, span, payload,
      appendAtAll children extra chosen 0 ++ if chosen [] then [extra] else []⟩

/-- The children from the given index on, with `extra` below those that are chosen. -/
def appendAtAll : List Node → (extra : Node) → (chosen : Path → Bool) → (index : Nat) → List Node
  | [], _, _, _ => []
  | node :: nodes, extra, chosen, index =>
    appendAt node extra (fun path => chosen (index :: path)) ::
      appendAtAll nodes extra chosen (index + 1)

end

variable (extra : Node) (chosen : Path → Bool)

theorem appendAt_eq (node : Node) :
    node.appendAt extra chosen =
      ⟨node.kind, node.span, node.payload,
        appendAtAll node.children extra chosen 0 ++ if chosen [] then [extra] else []⟩ := by
  cases node
  rw [appendAt]

@[simp]
theorem kind_appendAt (node : Node) : (node.appendAt extra chosen).kind = node.kind := by
  rw [appendAt_eq]

@[simp]
theorem payload_appendAt (node : Node) : (node.appendAt extra chosen).payload = node.payload := by
  rw [appendAt_eq]

theorem children_appendAt (node : Node) :
    (node.appendAt extra chosen).children =
      appendAtAll node.children extra chosen 0 ++ if chosen [] then [extra] else [] := by
  rw [appendAt_eq]

@[simp]
theorem length_appendAtAll (index : Nat) (nodes : List Node) :
    (appendAtAll nodes extra chosen index).length = nodes.length := by
  induction nodes generalizing index with
  | nil => rfl
  | cons node nodes ih => rw [appendAtAll, List.length_cons, ih, List.length_cons]

theorem getElem?_appendAtAll (index : Nat) (nodes : List Node) (place : Nat) :
    (appendAtAll nodes extra chosen index)[place]? =
      nodes[place]?.map fun node => node.appendAt extra fun path => chosen ((index + place) :: path) := by
  induction nodes generalizing index place with
  | nil => rfl
  | cons node nodes ih =>
      cases place with
      | zero => rfl
      | succ place => simp only [appendAtAll, List.getElem?_cons_succ, ih, Nat.add_right_comm]; rfl

/-- Every old child is still where it was. -/
theorem getElem?_children_appendAt {node child : Node} {index : Nat}
    (hChild : node.children[index]? = some child) :
    (node.appendAt extra chosen).children[index]? =
      some (child.appendAt extra fun path => chosen (index :: path)) := by
  obtain ⟨hIndex, -⟩ := List.getElem?_eq_some_iff.mp hChild
  rw [children_appendAt, List.getElem?_append_left (by simpa using hIndex), getElem?_appendAtAll,
    hChild, Nat.zero_add, Option.map_some]

/-- Every child is an old one, or the extra one at the end. -/
theorem getElem?_children_appendAt_cases {node child : Node} {index : Nat}
    (hChild : (node.appendAt extra chosen).children[index]? = some child) :
    (∃ old, node.children[index]? = some old ∧
      child = old.appendAt extra fun path => chosen (index :: path)) ∨
    (node.children[index]? = none ∧ chosen [] = true ∧ child = extra) := by
  cases hOld : node.children[index]? with
  | some old =>
      rw [getElem?_children_appendAt extra chosen hOld, Option.some.injEq] at hChild
      exact .inl ⟨old, rfl, hChild.symm⟩
  | none =>
      have hIndex := List.getElem?_eq_none_iff.mp hOld
      rw [children_appendAt, List.getElem?_append_right (by simpa using hIndex)] at hChild
      have hMem := List.mem_of_getElem? hChild
      split at hMem
      · rename_i hChosen
        exact .inr ⟨rfl, hChosen, List.mem_singleton.mp hMem⟩
      · cases hMem

/-- Every old node is still where it was. -/
theorem descendant?_appendAt {node below : Node} {path : Path}
    (hBelow : node.descendant? path = some below) :
    (node.appendAt extra chosen).descendant? path =
      some (below.appendAt extra fun rest => chosen (path ++ rest)) := by
  induction path generalizing node chosen with
  | nil =>
      cases hBelow
      rfl
  | cons index path ih =>
      obtain ⟨child, hChild, hRest⟩ := descendant?_cons_eq_some_iff.mp hBelow
      rw [descendant?_cons, getElem?_children_appendAt extra chosen hChild]
      exact ih _ hRest

/-- Every node is an old one, or lies in a copy of the extra one. -/
theorem descendant?_appendAt_cases {node below : Node} {path : Path}
    (hBelow : (node.appendAt extra chosen).descendant? path = some below) :
    (∃ old, node.descendant? path = some old ∧
      below = old.appendAt extra fun rest => chosen (path ++ rest)) ∨
    (node.descendant? path = none ∧ ∃ rest, extra.descendant? rest = some below) := by
  induction path generalizing node chosen with
  | nil =>
      cases hBelow
      exact .inl ⟨node, rfl, rfl⟩
  | cons index path ih =>
      rw [descendant?_cons] at hBelow ⊢
      obtain ⟨child, hChild, hRest⟩ := Option.bind_eq_some_iff.mp hBelow
      rcases getElem?_children_appendAt_cases extra chosen hChild with
        ⟨old, hOld, rfl⟩ | ⟨hOld, -, rfl⟩
      · rw [hOld]
        exact ih _ hRest
      · rw [hOld]
        exact .inr ⟨rfl, path, hRest⟩

/-- Nothing is appended where nothing is chosen. -/
theorem appendAt_of_none (node : Node) : node.appendAt extra (fun _ => false) = node := by
  induction node using inductionOn with
  | step kind span payload children ih =>
      have hAll : appendAtAll children extra (fun _ => false) 0 = children := by
        apply List.ext_getElem?
        intro place
        rw [getElem?_appendAtAll]
        cases hChild : children[place]? with
        | none => rfl
        | some child => exact congrArg some (ih child (List.mem_of_getElem? hChild))
      rw [appendAt, hAll]
      simp

/-- Trees stay well-formed unless something is put below a token. -/
theorem WellFormed.appendAt {node extra : Node} (h : node.WellFormed) (hExtra : extra.WellFormed)
    {chosen : Path → Bool} (hInner : ∀ path below, chosen path = true →
      node.descendant? path = some below → below.kind ≠ .token) :
    (node.appendAt extra chosen).WellFormed := by
  induction h generalizing chosen with
  | @intro node fits leaf parts ih =>
      refine .intro (by simpa using fits) (fun hToken => ?_) (fun child hChild => ?_)
      · rw [kind_appendAt] at hToken
        have hNot : chosen [] = false := by
          cases hChosen : chosen [] with
          | false => rfl
          | true => exact absurd hToken (hInner [] node hChosen rfl)
        rw [children_appendAt, leaf hToken, hNot]
        rfl
      · obtain ⟨index, hIndex⟩ := List.getElem?_of_mem hChild
        rcases getElem?_children_appendAt_cases extra chosen hIndex with
          ⟨old, hOld, rfl⟩ | ⟨-, -, rfl⟩
        · apply ih old (List.mem_of_getElem? hOld)
          intro path below hChosen hBelow
          apply hInner (index :: path) below hChosen
          rw [descendant?_cons, hOld]
          exact hBelow
        · exact hExtra

/-- The more is chosen, the longer the text becomes. -/
theorem size_appendAt_le (node : Node) {fewer more : Path → Bool}
    (hMore : ∀ path, fewer path = true → more path = true) :
    (node.appendAt extra fewer).size ≤ (node.appendAt extra more).size := by
  induction node using inductionOn generalizing fewer more with
  | step kind span payload children ih =>
      have hAll : ∀ index, sizeOfAll (appendAtAll children extra fewer index) ≤
          sizeOfAll (appendAtAll children extra more index) := by
        induction children with
        | nil => exact fun _ => Nat.le_refl _
        | cons child children ihAll =>
            intro index
            have hHead := ih child (by simp) fun path => hMore (index :: path)
            have hTail := ihAll (fun c hc => ih c (by simp [hc])) (index + 1)
            simp only [appendAtAll, sizeOfAll_cons]
            omega
      have hHere : sizeOfAll (if fewer [] then [extra] else []) ≤
          sizeOfAll (if more [] then [extra] else []) := by
        cases hFewer : fewer [] with
        | false => exact Nat.zero_le _
        | true => exact Nat.le_of_eq (by rw [hMore [] hFewer])
      rw [appendAt, appendAt, size_eq, size_eq]
      cases hText : payload.tokenText? with
      | some text => exact Nat.le_refl _
      | none =>
          have hSum := hAll 0
          simp only [sizeOfAll_append]
          omega

end Node

/-- The choice that is `inner` at and below a path, and the same as before elsewhere. -/
def Path.choose (chosen : Path → Bool) (path : Path) (inner : Path → Bool) (place : Path) : Bool :=
  match place.relativeTo? path with
  | some rest => inner rest
  | none => chosen place

namespace Path

theorem choose_eq_true_iff {chosen inner : Path → Bool} {path place : Path} :
    choose chosen path inner place = true ↔
      (∃ rest, place = path ++ rest ∧ inner rest = true) ∨
        (place.relativeTo? path = none ∧ chosen place = true) := by
  unfold choose
  cases hRest : place.relativeTo? path with
  | none =>
      have hNot : ∀ rest, place ≠ path ++ rest := by
        intro rest hPlace
        rw [relativeTo?_eq_some_iff.mpr hPlace] at hRest
        cases hRest
      simp [hNot]
  | some rest =>
      rw [relativeTo?_eq_some_iff] at hRest
      simp [hRest]

/-- Choosing more below a path, and nothing less, is choosing more. -/
theorem choose_or (chosen extra : Path → Bool) (path : Path) :
    choose chosen path (fun rest => extra rest || chosen (path ++ rest)) = fun place =>
      (place.relativeTo? path).any extra || chosen place := by
  funext place
  unfold choose
  cases hRest : place.relativeTo? path with
  | none => rfl
  | some rest =>
      rw [relativeTo?_eq_some_iff] at hRest
      simp [hRest]

end Path

namespace Node

variable (extra : Node) (chosen : Path → Bool)

/-- Replacing an old node by itself, with other places chosen in it. -/
theorem replaceAt_appendAt {node below : Node} {path : Path}
    (hBelow : node.descendant? path = some below) (inner : Path → Bool) :
    (node.appendAt extra chosen).replaceAt path (below.appendAt extra inner) =
      node.appendAt extra (path.choose chosen inner) := by
  induction path generalizing node chosen with
  | nil =>
      cases hBelow
      have hAll : Path.choose chosen [] inner = inner := by
        funext place
        simp [Path.choose, Path.relativeTo?]
      rw [replaceAt, hAll]
  | cons index path ih =>
      obtain ⟨child, hChild, hRest⟩ := descendant?_cons_eq_some_iff.mp hBelow
      have hHere := getElem?_children_appendAt extra chosen hChild
      have hInside : ∀ rest, Path.choose chosen (index :: path) inner (index :: rest) =
          Path.choose (fun rest => chosen (index :: rest)) path inner rest := by
        intro rest
        simp [Path.choose, Path.relativeTo?]
      have hChildren : (node.appendAt extra chosen).children.modify index
          (Node.replaceAt · path (below.appendAt extra inner)) =
          (node.appendAt extra (Path.choose chosen (index :: path) inner)).children := by
        apply List.ext_getElem?
        intro place
        rw [List.getElem?_modify]
        by_cases hPlace : index = place
        · subst hPlace
          rw [hHere, getElem?_children_appendAt extra _ hChild]
          simpa [hInside] using ih (fun rest => chosen (index :: rest)) hRest
        · have hOutside : ∀ rest, Path.choose chosen (index :: path) inner (place :: rest) =
              chosen (place :: rest) := by
            intro rest
            simp [Path.choose, Path.relativeTo?, Ne.symm hPlace]
          have hRoot : Path.choose chosen (index :: path) inner [] = chosen [] := by
            simp [Path.choose, Path.relativeTo?]
          simp [hPlace, children_appendAt, List.getElem?_append, getElem?_appendAtAll, hOutside,
            hRoot]
      rw [replaceAt, hChildren, appendAt_eq, appendAt_eq]

/-- Up to spans, `grown` is the node with `extra` appended where chosen. -/
def GrownTo (extra node : Node) (chosen : Path → Bool) (grown : Node) : Prop :=
  grown.shape = (node.appendAt extra chosen).shape

theorem grownTo_self (node : Node) : GrownTo extra node (fun _ => false) node := by
  rw [GrownTo, appendAt_of_none]

namespace GrownTo

variable {extra : Node} {chosen : Path → Bool} {node grown : Node}

theorem kind (h : GrownTo extra node chosen grown) : grown.kind = node.kind := by
  rw [← kind_shape, h, kind_shape, kind_appendAt]

theorem payload (h : GrownTo extra node chosen grown) : grown.payload = node.payload := by
  rw [← payload_shape, h, payload_shape, payload_appendAt]

theorem size (h : GrownTo extra node chosen grown) :
    grown.size = (node.appendAt extra chosen).size := by
  rw [← size_shape, h, size_shape]

/-- Growth takes no text away. -/
theorem size_le (h : GrownTo extra node chosen grown) : node.size ≤ grown.size := by
  have hLess : (node.appendAt extra fun _ => false).size ≤ (node.appendAt extra chosen).size :=
    size_appendAt_le extra node (by simp)
  rwa [appendAt_of_none, ← h.size] at hLess

theorem layout (h : GrownTo extra node chosen grown) (start : Nat) :
    GrownTo extra node chosen (grown.layout start) := by
  rw [GrownTo, shape_layout, h]

/-- A canonical node that has grown is the laid-out node with what was appended. -/
theorem eq_layout (h : GrownTo extra node chosen grown) (hGrown : grown.Canonical)
    (hWell : (node.appendAt extra chosen).WellFormed) :
    grown = (node.appendAt extra chosen).layout grown.span.start := by
  rw [← layout_eq_of_shape hGrown.wellFormed hWell h, hGrown.laid]

/-- Every old node is still where it was, itself grown. -/
theorem descendant (h : GrownTo extra node chosen grown) {path : Path} {below : Node}
    (hBelow : node.descendant? path = some below) :
    ∃ found, grown.descendant? path = some found ∧
      GrownTo extra below (fun rest => chosen (path ++ rest)) found := by
  have hShape := descendant?_shape grown path
  rw [h, descendant?_shape, descendant?_appendAt extra chosen hBelow] at hShape
  obtain ⟨found, hFound, hSame⟩ := Option.map_eq_some_iff.mp hShape.symm
  exact ⟨found, hFound, hSame⟩

/-- Every node is an old one, or lies in a copy of the extra one. -/
theorem descendant_cases (h : GrownTo extra node chosen grown) {path : Path} {found : Node}
    (hFound : grown.descendant? path = some found) :
    (∃ below, node.descendant? path = some below ∧
      GrownTo extra below (fun rest => chosen (path ++ rest)) found) ∨
    (node.descendant? path = none ∧
      ∃ rest inner, extra.descendant? rest = some inner ∧ found.shape = inner.shape) := by
  have hShape := descendant?_shape grown path
  rw [h, descendant?_shape, hFound] at hShape
  obtain ⟨there, hThere, hSame⟩ := Option.map_eq_some_iff.mp hShape
  rcases descendant?_appendAt_cases extra chosen hThere with ⟨below, hBelow, rfl⟩ | ⟨hNone, hRest⟩
  · exact .inl ⟨below, hBelow, hSame.symm⟩
  · obtain ⟨rest, hInner⟩ := hRest
    exact .inr ⟨hNone, rest, there, hInner, hSame.symm⟩

/-- Every old child is still where it was, itself grown. -/
theorem child (h : GrownTo extra node chosen grown) {index : Nat} {part : Node}
    (hPart : node.children[index]? = some part) :
    ∃ found, grown.children[index]? = some found ∧
      GrownTo extra part (fun rest => chosen (index :: rest)) found := by
  have hBelow : node.descendant? [index] = some part := by
    rw [descendant?_cons, hPart]
    rfl
  obtain ⟨found, hFound, hGrown⟩ := h.descendant hBelow
  obtain ⟨there, hThere, hSame⟩ := descendant?_cons_eq_some_iff.mp hFound
  cases hSame
  exact ⟨found, hThere, hGrown⟩

/-- Every child is an old one, or a copy of the extra one. -/
theorem child_cases (h : GrownTo extra node chosen grown) {index : Nat} {found : Node}
    (hFound : grown.children[index]? = some found) :
    (∃ part, node.children[index]? = some part ∧
      GrownTo extra part (fun rest => chosen (index :: rest)) found) ∨
    (chosen [] = true ∧ found.shape = extra.shape) := by
  have hShape : (grown.children.map shape)[index]? = some found.shape := by
    rw [List.getElem?_map, hFound, Option.map_some]
  rw [← children_shape, h, children_shape, List.getElem?_map] at hShape
  obtain ⟨there, hThere, hSame⟩ := Option.map_eq_some_iff.mp hShape
  rcases getElem?_children_appendAt_cases extra chosen hThere with
    ⟨part, hPart, rfl⟩ | ⟨-, hChosen, rfl⟩
  · exact .inl ⟨part, hPart, hSame.symm⟩
  · exact .inr ⟨hChosen, hSame.symm⟩

/-- A chosen node has got the extra child. -/
theorem exists_extra (h : GrownTo extra node chosen grown) (hChosen : chosen [] = true) :
    ∃ part ∈ grown.children, part.kind = extra.kind := by
  have hMem : extra.shape ∈ grown.children.map shape := by
    rw [← children_shape, h, children_shape, children_appendAt, hChosen]
    simp
  obtain ⟨part, hPart, hSame⟩ := List.mem_map.mp hMem
  exact ⟨part, hPart, by rw [← kind_shape, hSame, kind_shape]⟩

/-- Putting back an old node that has grown in another way. -/
theorem replaceAt (h : GrownTo extra node chosen grown) {path : Path} {below changed : Node}
    {inner : Path → Bool} (hBelow : node.descendant? path = some below)
    (hChanged : GrownTo extra below inner changed) :
    GrownTo extra node (path.choose chosen inner) (grown.replaceAt path changed) := by
  rw [GrownTo, shape_replaceAt, h, hChanged, ← shape_replaceAt, replaceAt_appendAt _ _ hBelow]

end GrownTo

end UiLint.Node
