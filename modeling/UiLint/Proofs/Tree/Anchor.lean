import UiLint.Proofs.Tree.Layout

/-! Where nodes stand relative to one another. Replacing a node moves what comes after it in the
order of paths, and nothing else. -/
namespace UiLint

namespace Path

theorem order_cons_of_lt {i j : Nat} (hLess : i < j) (first second : Path) :
    order (i :: first) (j :: second) = .lt := by
  rw [order, Nat.compare_eq_lt.mpr hLess]
  rfl

theorem order_cons_of_gt {i j : Nat} (hMore : j < i) (first second : Path) :
    order (i :: first) (j :: second) = .gt := by
  rw [order, Nat.compare_eq_gt.mpr hMore]
  rfl

theorem order_cons_self (i : Nat) (first second : Path) :
    order (i :: first) (i :: second) = order first second := by
  rw [order, Nat.compare_eq_eq.mpr rfl]
  rfl

theorem order_append (path first second : Path) :
    order (path ++ first) (path ++ second) = order first second := by
  induction path with
  | nil => rfl
  | cons index path ih => rw [List.cons_append, List.cons_append, order_cons_self, ih]

/-- What lies below a path is ordered as the path itself, seen from elsewhere. -/
theorem order_append_left {path place : Path} (hOutside : ¬ path <+: place) (rest : Path) :
    order (path ++ rest) place = order path place := by
  induction path generalizing place with
  | nil => exact absurd List.nil_prefix hOutside
  | cons index path ih =>
      cases place with
      | nil => rfl
      | cons other place =>
          rw [List.cons_append]
          rcases Nat.lt_trichotomy index other with hLess | rfl | hMore
          · rw [order_cons_of_lt hLess, order_cons_of_lt hLess]
          · rw [order_cons_self, order_cons_self,
              ih fun hPrefix => hOutside (List.cons_prefix_cons.mpr ⟨rfl, hPrefix⟩)]
          · rw [order_cons_of_gt hMore, order_cons_of_gt hMore]

/-- Of two paths that lead to different parts of a tree, one comes first. -/
theorem order_lt_or_lt {first second : Path} (hFirst : ¬ first <+: second)
    (hSecond : ¬ second <+: first) : order first second = .lt ∨ order second first = .lt := by
  induction first generalizing second with
  | nil => exact absurd List.nil_prefix hFirst
  | cons index first ih =>
      cases second with
      | nil => exact absurd List.nil_prefix hSecond
      | cons other second =>
          rcases Nat.lt_trichotomy index other with hLess | rfl | hMore
          · exact .inl (order_cons_of_lt hLess ..)
          · rw [order_cons_self, order_cons_self]
            exact ih (fun hPrefix => hFirst (List.cons_prefix_cons.mpr ⟨rfl, hPrefix⟩))
              (fun hPrefix => hSecond (List.cons_prefix_cons.mpr ⟨rfl, hPrefix⟩))
          · exact .inr (order_cons_of_lt hMore ..)

/-- What leads to a node or above it does not come after it. -/
theorem order_ne_lt_of_prefix {first second : Path} (hPrefix : second <+: first) :
    order first second ≠ .lt := by
  obtain ⟨rest, rfl⟩ := hPrefix
  have hOrder := order_append second rest []
  rw [List.append_nil] at hOrder
  rw [hOrder]
  cases rest <;> simp [order]

end Path

namespace Node

theorem offsetAt_append {node inner : Node} {first : Path}
    (hInner : node.descendant? first = some inner) (second : Path) :
    node.offsetAt (first ++ second) = node.offsetAt first + inner.offsetAt second := by
  induction first generalizing node with
  | nil =>
      cases hInner
      simp [offsetAt]
  | cons index first ih =>
      obtain ⟨child, hChild, hRest⟩ := descendant?_cons_eq_some_iff.mp hInner
      rw [List.cons_append, offsetAt_cons _ hChild, offsetAt_cons _ hChild, ih hRest, Nat.add_assoc]

/-- Replacing a node does not move it. -/
theorem offsetAt_replaceAt_self {node old : Node} {path : Path}
    (hOld : node.descendant? path = some old) (new : Node) :
    (node.replaceAt path new).offsetAt path = node.offsetAt path := by
  induction path generalizing node with
  | nil => rfl
  | cons index path ih =>
      obtain ⟨child, hChild, hRest⟩ := descendant?_cons_eq_some_iff.mp hOld
      have hThere : (node.replaceAt (index :: path) new).children[index]? =
          some (child.replaceAt path new) := by
        rw [replaceAt, List.getElem?_modify_eq, hChild]
        rfl
      have hBefore : (node.replaceAt (index :: path) new).children.take index =
          node.children.take index := by
        rw [replaceAt, List.take_modify, List.modify_eq_self (List.length_take_le ..)]
      rw [offsetAt_cons _ hThere, offsetAt_cons _ hChild, hBefore, ih hRest]

theorem sizeOfAll_modify {nodes : List Node} {child : Node} {index : Nat}
    (hChild : nodes[index]? = some child) (change : Node → Node) :
    sizeOfAll (nodes.modify index change) + child.size =
      sizeOfAll nodes + (change child).size := by
  have hWhole := sizeOfAll_eq_around hChild
  obtain ⟨hIndex, rfl⟩ := List.getElem?_eq_some_iff.mp hChild
  rw [List.modify_eq_take_cons_drop hIndex, sizeOfAll_append, sizeOfAll_cons]
  omega

/-- Replacing a node moves what comes after it by the difference in length. -/
theorem offsetAt_replaceAt {node old : Node} (h : node.WellFormed) {path place : Path}
    (hOld : node.descendant? path = some old) (new : Node) (hOutside : ¬ path <+: place) :
    (node.replaceAt path new).offsetAt place + (if path.order place = .lt then old.size else 0) =
      node.offsetAt place + if path.order place = .lt then new.size else 0 := by
  induction path generalizing node place with
  | nil => exact absurd List.nil_prefix hOutside
  | cons index path ih =>
      obtain ⟨child, hChild, hRest⟩ := descendant?_cons_eq_some_iff.mp hOld
      cases place with
      | nil => rfl
      | cons other place =>
          have hThere := List.getElem?_modify (Node.replaceAt · path new) index node.children other
          have hPart := h.parts child (List.mem_of_getElem? hChild)
          rw [replaceAt, offsetAt, offsetAt, List.take_modify, hThere]
          rcases Nat.lt_trichotomy index other with hLess | rfl | hMore
          · have hBefore : (node.children.take other)[index]? = some child := by
              rw [List.getElem?_take_of_lt hLess, hChild]
            have hSizes := sizeOfAll_modify hBefore (Node.replaceAt · path new)
            have hChildSize := size_replaceAt hPart hRest new
            rw [Path.order_cons_of_lt hLess]
            simp only [Nat.ne_of_lt hLess, if_true, if_false, id_map']
            omega
          · have hStep := ih hPart hRest
              (fun hPrefix => hOutside (List.cons_prefix_cons.mpr ⟨rfl, hPrefix⟩))
            rw [Path.order_cons_self, List.modify_eq_self (List.length_take_le ..), hChild]
            simp only [if_true, Option.map_eq_map, Option.map_some]
            omega
          · rw [Path.order_cons_of_gt hMore, List.modify_eq_self (by
              rw [List.length_take]
              omega)]
            simp only [Nat.ne_of_gt hMore, if_false, id_map', reduceCtorEq]

/-- Replacing a node leaves every other node in its place, except for what was below. -/
theorem descendant?_replaceAt_outside {node below : Node} {path place : Path}
    (hBelow : node.descendant? place = some below) (hOutside : ¬ path <+: place) (new : Node) :
    ∃ after, (node.replaceAt path new).descendant? place = some after ∧ after.kind = below.kind ∧
      after.payload = below.payload := by
  induction path generalizing node place with
  | nil => exact absurd List.nil_prefix hOutside
  | cons index path ih =>
      cases place with
      | nil =>
          cases hBelow
          exact ⟨_, rfl, rfl, rfl⟩
      | cons other place =>
          obtain ⟨child, hChild, hRest⟩ := descendant?_cons_eq_some_iff.mp hBelow
          rw [replaceAt, descendant?_cons, List.getElem?_modify, hChild]
          by_cases hSame : index = other
          · subst hSame
            simpa using ih hRest fun hPrefix => hOutside (List.cons_prefix_cons.mpr ⟨rfl, hPrefix⟩)
          · simpa [hSame] using ⟨below, hRest, rfl, rfl⟩

/-- Replacing a node leaves alone what is neither above nor below it. -/
theorem descendant?_replaceAt_apart (node : Node) {path place : Path} (hBelow : ¬ path <+: place)
    (hAbove : ¬ place <+: path) (new : Node) :
    (node.replaceAt path new).descendant? place = node.descendant? place := by
  induction path generalizing node place with
  | nil => exact absurd List.nil_prefix hBelow
  | cons index path ih =>
      cases place with
      | nil => exact absurd List.nil_prefix hAbove
      | cons other place =>
          rw [replaceAt, descendant?_cons, descendant?_cons, List.getElem?_modify]
          by_cases hSame : index = other
          · subst hSame
            have hPart (child : Node) :
                (child.replaceAt path new).descendant? place = child.descendant? place :=
              ih child (fun hPrefix => hBelow (List.cons_prefix_cons.mpr ⟨rfl, hPrefix⟩))
                (fun hPrefix => hAbove (List.cons_prefix_cons.mpr ⟨rfl, hPrefix⟩))
            cases node.children[index]? with
            | none => rfl
            | some child => simpa using hPart child
          · simp [hSame]

/-- A node ends before every node that comes after it starts. -/
theorem offsetAt_add_size_le_of_order {node first : Node} (h : node.WellFormed) {path place : Path}
    (hFirst : node.descendant? path = some first) (hOutside : ¬ path <+: place)
    (hOrder : path.order place = .lt) (hPlace : (node.descendant? place).isSome = true) :
    node.offsetAt path + first.size ≤ node.offsetAt place := by
  induction path generalizing node place with
  | nil => exact absurd List.nil_prefix hOutside
  | cons index path ih =>
      cases place with
      | nil => cases hOrder
      | cons other place =>
          rw [descendant?_cons] at hFirst hPlace
          obtain ⟨child, hChild, hRest⟩ := Option.bind_eq_some_iff.mp hFirst
          have hPart := h.parts child (List.mem_of_getElem? hChild)
          rw [offsetAt_cons _ hChild]
          rcases Nat.lt_trichotomy index other with hLess | rfl | hMore
          · have hBefore : (node.children.take other)[index]? = some child := by
              rw [List.getElem?_take_of_lt hLess, hChild]
            have hAround := sizeOfAll_eq_around hBefore
            rw [List.take_take, Nat.min_eq_left (Nat.le_of_lt hLess)] at hAround
            have hInside := offsetAt_add_size_le hPart hRest
            rw [offsetAt]
            omega
          · rw [hChild] at hPlace
            rw [Path.order_cons_self] at hOrder
            have hStep := ih hPart hRest
              (fun hPrefix => hOutside (List.cons_prefix_cons.mpr ⟨rfl, hPrefix⟩)) hOrder hPlace
            rw [offsetAt_cons _ hChild]
            omega
          · rw [Path.order_cons_of_gt hMore] at hOrder
            cases hOrder

/-- In a canonical node, what is above a node spans it. -/
theorem Canonical.span_le_of_prefix {node above below : Node} (h : node.Canonical)
    {place path : Path} (hAbove : node.descendant? place = some above)
    (hBelow : node.descendant? path = some below) (hPrefix : place <+: path) :
    above.span.start ≤ below.span.start ∧ below.span.stop ≤ above.span.stop := by
  obtain ⟨rest, rfl⟩ := hPrefix
  rw [descendant?_append, hAbove, Option.bind_some] at hBelow
  obtain ⟨hCanonical, -⟩ := h.descendant hAbove
  obtain ⟨hInner, hStart⟩ := hCanonical.descendant hBelow
  have hInside := offsetAt_add_size_le hCanonical.wellFormed hBelow
  rw [hInner.stop_eq, hCanonical.stop_eq]
  omega

/-- In a canonical node, what comes after a node starts where that node ends or later. -/
theorem Canonical.stop_le_of_order {node first second : Node} (h : node.Canonical)
    {path place : Path} (hFirst : node.descendant? path = some first)
    (hSecond : node.descendant? place = some second) (hOutside : ¬ path <+: place)
    (hOrder : path.order place = .lt) : first.span.stop ≤ second.span.start := by
  obtain ⟨hCanonical, hStart⟩ := h.descendant hFirst
  have hLess := offsetAt_add_size_le_of_order h.wellFormed hFirst hOutside hOrder
    (by rw [hSecond]; rfl)
  rw [hCanonical.stop_eq, hStart, (h.descendant hSecond).2]
  omega

theorem Canonical.start_le_stop {node : Node} (h : node.Canonical) :
    node.span.start ≤ node.span.stop := by
  rw [h.stop_eq]
  exact Nat.le_add_right _ _

/-- In a canonical node, what starts behind the end of a node comes after it. -/
theorem Canonical.order_lt_of_stop_lt {node first second : Node} (h : node.Canonical)
    {path place : Path} (hFirst : node.descendant? path = some first)
    (hSecond : node.descendant? place = some second)
    (hLess : first.span.stop < second.span.start) :
    path.order place = .lt ∧ ¬ path <+: place := by
  have hFirstSpan := (h.descendant hFirst).1.start_le_stop
  have hSecondSpan := (h.descendant hSecond).1.start_le_stop
  have hBelow : ¬ path <+: place := by
    intro hPrefix
    have hInside := h.span_le_of_prefix hFirst hSecond hPrefix
    omega
  have hAbove : ¬ place <+: path := by
    intro hPrefix
    have hInside := h.span_le_of_prefix hSecond hFirst hPrefix
    omega
  refine ⟨(Path.order_lt_or_lt hBelow hAbove).resolve_right fun hOrder => ?_, hBelow⟩
  have hBefore := h.stop_le_of_order hSecond hFirst hAbove hOrder
  omega

end Node

end UiLint
