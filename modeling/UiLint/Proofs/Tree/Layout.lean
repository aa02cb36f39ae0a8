import UiLint.Tree.Layout

/-! Layout and text. A node that has been laid out spans exactly the bytes of its own text,
right after the text of all that comes before it. -/
namespace UiLint.Node

/-- Induction over a node and the nodes below it. -/
@[elab_as_elim]
theorem inductionOn {motive : Node → Prop} (node : Node)
    (step : ∀ kind span payload children, (∀ child ∈ children, motive child) →
      motive ⟨kind, span, payload, children⟩) : motive node :=
  match node with
  | ⟨kind, span, payload, children⟩ =>
      step kind span payload children fun child _ => inductionOn child step
termination_by node
decreasing_by
  have hChild := List.sizeOf_lt_of_mem ‹child ∈ children›
  simp only [mk.sizeOf_spec]
  omega

/-- The payload of every node fits its kind, and tokens have no children. This is what a
builder guarantees and every edit keeps. -/
inductive WellFormed : Node → Prop where
  | intro {node : Node} (fits : node.payload.fits node.kind = true)
      (leaf : node.kind = .token → node.children = [])
      (parts : ∀ child ∈ node.children, WellFormed child) : WellFormed node

namespace WellFormed

variable {node : Node}

theorem fits (h : node.WellFormed) : node.payload.fits node.kind = true := by
  cases h
  assumption

theorem leaf (h : node.WellFormed) : node.kind = .token → node.children = [] := by
  cases h
  assumption

theorem parts (h : node.WellFormed) : ∀ child ∈ node.children, child.WellFormed := by
  cases h
  assumption

/-- Exactly the tokens have text of their own. -/
theorem kind_eq_token_iff (h : node.WellFormed) :
    node.kind = .token ↔ ∃ text, node.payload = .token text := by
  have hFits := h.fits
  constructor
  · intro hKind
    rw [hKind] at hFits
    exact Payload.fits_token_iff.mp hFits
  · rintro ⟨text, hPayload⟩
    rw [hPayload] at hFits
    simpa [Payload.fits] using hFits

/-- What is no token has no text of its own. -/
theorem tokenText?_of_kind_ne (h : node.WellFormed) (hKind : node.kind ≠ .token) :
    node.payload.tokenText? = none := by
  cases hPayload : node.payload with
  | token text => exact absurd (h.kind_eq_token_iff.mpr ⟨text, hPayload⟩) hKind
  | _ => rfl

/-- What has text of its own has no children. -/
theorem children_eq_nil (h : node.WellFormed) {text : String}
    (hText : node.payload.tokenText? = some text) : node.children = [] := by
  apply h.leaf
  rw [h.kind_eq_token_iff]
  cases hPayload : node.payload <;> simp_all [Payload.tokenText?]

/-- What has children has no text of its own. -/
theorem tokenText?_eq_none (h : node.WellFormed) {child : Node} (hChild : child ∈ node.children) :
    node.payload.tokenText? = none := by
  cases hText : node.payload.tokenText? with
  | none => rfl
  | some text => simp [h.children_eq_nil hText] at hChild

/-- What lies below a well-formed node is well-formed. -/
theorem descendant (h : node.WellFormed) {path : Path} {below : Node}
    (hBelow : node.descendant? path = some below) : below.WellFormed := by
  induction path generalizing node with
  | nil =>
      cases hBelow
      exact h
  | cons index path ih =>
      simp only [descendant?] at hBelow
      cases hChild : node.children[index]? with
      | none => simp [hChild] at hBelow
      | some child =>
          rw [hChild] at hBelow
          exact ih (h.parts child (List.mem_of_getElem? hChild)) hBelow

end WellFormed

theorem wellFormed_leaf (text : String) : (leaf text).WellFormed :=
  .intro rfl (fun _ => rfl) (by simp [leaf, bare])

/-- The length of the node's text in bytes. -/
def size (node : Node) : Nat :=
  node.text.utf8ByteSize

/-- The length of the text of several nodes in bytes. -/
def sizeOfAll (nodes : List Node) : Nat :=
  (textOfAll nodes).utf8ByteSize

theorem text_eq (node : Node) :
    node.text = (node.payload.tokenText?).getD (textOfAll node.children) := by
  cases node with
  | mk kind span payload children =>
      rw [text]
      cases payload.tokenText? <;> rfl

theorem textOfAll_append (first second : List Node) :
    textOfAll (first ++ second) = textOfAll first ++ textOfAll second := by
  induction first with
  | nil => simp [textOfAll]
  | cons node nodes ih => simp [textOfAll, ih, String.append_assoc]

@[simp]
theorem sizeOfAll_nil : sizeOfAll [] = 0 := rfl

@[simp]
theorem sizeOfAll_cons (node : Node) (nodes : List Node) :
    sizeOfAll (node :: nodes) = node.size + sizeOfAll nodes := by
  simp [sizeOfAll, size, textOfAll]

@[simp]
theorem sizeOfAll_append (first second : List Node) :
    sizeOfAll (first ++ second) = sizeOfAll first + sizeOfAll second := by
  simp [sizeOfAll, textOfAll_append]

/-- The length of several nodes, seen from one of them. -/
theorem sizeOfAll_eq_around {nodes : List Node} {node : Node} {index : Nat}
    (hNode : nodes[index]? = some node) :
    sizeOfAll nodes =
      sizeOfAll (nodes.take index) + node.size + sizeOfAll (nodes.drop (index + 1)) := by
  obtain ⟨hIndex, rfl⟩ := List.getElem?_eq_some_iff.mp hNode
  have hSplit : nodes = nodes.take index ++ nodes[index] :: nodes.drop (index + 1) := by simp
  calc
    sizeOfAll nodes = sizeOfAll (nodes.take index ++ nodes[index] :: nodes.drop (index + 1)) := by
      rw [← hSplit]
    _ = _ := by rw [sizeOfAll_append, sizeOfAll_cons, Nat.add_assoc]

/-- A node is as long as its token text, or as long as its children together. -/
theorem size_eq (node : Node) :
    node.size = match node.payload.tokenText? with
      | some text => text.utf8ByteSize
      | none => sizeOfAll node.children := by
  rw [size, text_eq]
  cases node.payload.tokenText? <;> rfl

theorem size_of_inner {node : Node} (hText : node.payload.tokenText? = none) :
    node.size = sizeOfAll node.children := by
  simp [size_eq, hText]

theorem layout_of_token {node : Node} {text : String} (start : Nat)
    (hText : node.payload.tokenText? = some text) :
    node.layout start = { node with span := ⟨start, start + text.utf8ByteSize⟩ } := by
  cases node with
  | mk kind span payload children =>
      simp only at hText
      simp [layout, hText]

theorem layout_of_inner {node : Node} (start : Nat) (hText : node.payload.tokenText? = none) :
    node.layout start =
      { node with
        span := ⟨start, endOfAll start (layoutAll start node.children)⟩
        children := layoutAll start node.children } := by
  cases node with
  | mk kind span payload children =>
      simp only at hText
      simp [layout, hText]

@[simp]
theorem kind_layout (start : Nat) (node : Node) : (node.layout start).kind = node.kind := by
  cases hText : node.payload.tokenText? with
  | none => rw [layout_of_inner start hText]
  | some text => rw [layout_of_token start hText]

@[simp]
theorem payload_layout (start : Nat) (node : Node) :
    (node.layout start).payload = node.payload := by
  cases hText : node.payload.tokenText? with
  | none => rw [layout_of_inner start hText]
  | some text => rw [layout_of_token start hText]

@[simp]
theorem start_layout (start : Nat) (node : Node) : (node.layout start).span.start = start := by
  cases hText : node.payload.tokenText? with
  | none => rw [layout_of_inner start hText]
  | some text => rw [layout_of_token start hText]

theorem layout_eq_mk (start : Nat) (node : Node) :
    node.layout start =
      ⟨node.kind, (node.layout start).span, node.payload, (node.layout start).children⟩ := by
  cases hText : node.payload.tokenText? with
  | none => rw [layout_of_inner start hText]
  | some text => rw [layout_of_token start hText]

theorem endOfAll_cons (start : Nat) (node : Node) (nodes : List Node) :
    endOfAll start (node :: nodes) = endOfAll node.span.stop nodes := by
  cases nodes with
  | nil => rfl
  | cons next rest =>
      rw [endOfAll, endOfAll, List.getLast?_cons_cons, List.getLast?_cons]

/-- Nodes laid out one after the other end where their texts together end, if each of them
does so on its own. -/
theorem endOfAll_layoutAll_of (nodes : List Node) (start : Nat)
    (hStop : ∀ node ∈ nodes, ∀ start, (node.layout start).span.stop = start + node.size) :
    endOfAll start (layoutAll start nodes) = start + sizeOfAll nodes := by
  induction nodes generalizing start with
  | nil => rfl
  | cons node nodes ih =>
      rw [layoutAll, endOfAll_cons, hStop node (by simp), ih _ fun n hn => hStop n (by simp [hn])]
      simp [Nat.add_assoc]

/-- A node that has been laid out ends where its text ends. -/
@[simp]
theorem stop_layout (start : Nat) (node : Node) :
    (node.layout start).span.stop = start + node.size := by
  induction node using inductionOn generalizing start with
  | step kind span payload children ih =>
      rw [size_eq]
      cases hText : payload.tokenText? with
      | none =>
          rw [layout_of_inner start hText]
          exact endOfAll_layoutAll_of children start ih
      | some text => rw [layout_of_token start hText]

theorem endOfAll_layoutAll (start : Nat) (nodes : List Node) :
    endOfAll start (layoutAll start nodes) = start + sizeOfAll nodes :=
  endOfAll_layoutAll_of nodes start fun node _ start => stop_layout start node

/-- A node other than a token spans its children, laid out one after the other. -/
theorem layout_inner_eq {node : Node} (start : Nat) (hText : node.payload.tokenText? = none) :
    node.layout start =
      { node with
        span := ⟨start, start + sizeOfAll node.children⟩
        children := layoutAll start node.children } := by
  rw [layout_of_inner start hText, endOfAll_layoutAll]

/-- A node that has been laid out spans exactly the bytes of its text. -/
theorem span_layout (start : Nat) (node : Node) :
    (node.layout start).span = ⟨start, start + node.size⟩ := by
  rw [show (node.layout start).span =
    ⟨(node.layout start).span.start, (node.layout start).span.stop⟩ from rfl]
  simp

theorem start_of_layout_eq {node : Node} {start : Nat} (hLaid : node.layout start = node) :
    node.span.start = start := by
  rw [← hLaid, start_layout]

theorem stop_of_layout_eq {node : Node} {start : Nat} (hLaid : node.layout start = node) :
    node.span.stop = start + node.size := by
  rw [← stop_layout, hLaid]

theorem layoutAll_append (start : Nat) (first second : List Node) :
    layoutAll start (first ++ second) =
      layoutAll start first ++ layoutAll (start + sizeOfAll first) second := by
  induction first generalizing start with
  | nil => rfl
  | cons node nodes ih => simp [layoutAll, ih, Nat.add_assoc]

@[simp]
theorem length_layoutAll (start : Nat) (nodes : List Node) :
    (layoutAll start nodes).length = nodes.length := by
  induction nodes generalizing start with
  | nil => rfl
  | cons node nodes ih => simp [layoutAll, ih]

@[simp]
theorem length_children_layout (start : Nat) (node : Node) :
    (node.layout start).children.length = node.children.length := by
  cases hText : node.payload.tokenText? with
  | none => rw [layout_of_inner start hText, length_layoutAll]
  | some text => rw [layout_of_token start hText]

/-- The child with an index is laid out after the children before it. -/
theorem getElem?_layoutAll (start : Nat) (nodes : List Node) (index : Nat) :
    (layoutAll start nodes)[index]? =
      nodes[index]?.map (layout (start + sizeOfAll (nodes.take index))) := by
  induction nodes generalizing start index with
  | nil => rfl
  | cons node nodes ih =>
      cases index with
      | zero => rfl
      | succ index => simp [layoutAll, ih, Nat.add_assoc]

/-- Only the text decides where nodes end up, so layout leaves it alone. -/
theorem text_layout (start : Nat) (node : Node) : (node.layout start).text = node.text := by
  induction node using inductionOn generalizing start with
  | step kind span payload children ih =>
      rw [text_eq, text_eq, payload_layout]
      cases hText : payload.tokenText? with
      | some text => rfl
      | none =>
          rw [layout_of_inner start hText]
          simp only [Option.getD_none]
          clear hText
          induction children generalizing start with
          | nil => rfl
          | cons child children ihAll =>
              rw [layoutAll, textOfAll, textOfAll, ih child (by simp),
                ihAll fun c hc => ih c (by simp [hc])]

@[simp]
theorem size_layout (start : Nat) (node : Node) : (node.layout start).size = node.size := by
  rw [size, text_layout, size]

/-- Children that are laid out twice are where the second layout puts them, if that holds of
each of them. -/
theorem layoutAll_layoutAll_of (nodes : List Node) (first second : Nat)
    (hLast : ∀ node ∈ nodes, ∀ first second : Nat,
      (node.layout first).layout second = node.layout second) :
    layoutAll second (layoutAll first nodes) = layoutAll second nodes := by
  induction nodes generalizing first second with
  | nil => rfl
  | cons node nodes ih =>
      simp only [layoutAll, stop_layout, size_layout]
      rw [hLast node (by simp), ih _ _ fun n hn => hLast n (by simp [hn])]

/-- The last layout wins. -/
@[simp]
theorem layout_layout (first second : Nat) (node : Node) :
    (node.layout first).layout second = node.layout second := by
  induction node using inductionOn generalizing first second with
  | step kind span payload children ih =>
      cases hText : payload.tokenText? with
      | some text => simp [layout, hText]
      | none => simp [layout, hText, layoutAll_layoutAll_of children first second ih]

theorem mem_layoutAll {start : Nat} {nodes : List Node} {node : Node}
    (hMem : node ∈ layoutAll start nodes) : ∃ old ∈ nodes, ∃ offset, node = old.layout offset := by
  induction nodes generalizing start with
  | nil => simp [layoutAll] at hMem
  | cons first rest ih =>
      rw [layoutAll, List.mem_cons] at hMem
      rcases hMem with hFirst | hRest
      · exact ⟨first, by simp, start, hFirst⟩
      · obtain ⟨old, hOld, offset, hNode⟩ := ih hRest
        exact ⟨old, by simp [hOld], offset, hNode⟩

theorem WellFormed.layout {node : Node} (h : node.WellFormed) (start : Nat) :
    (node.layout start).WellFormed := by
  induction h generalizing start with
  | @intro node fits leaf parts ih =>
      cases hText : node.payload.tokenText? with
      | some text =>
          rw [layout_of_token start hText]
          exact .intro fits leaf parts
      | none =>
          rw [layout_of_inner start hText]
          refine .intro fits (fun hKind => ?_) (fun child hChild => ?_)
          · simp [leaf hKind, layoutAll]
          · obtain ⟨old, hOld, offset, rfl⟩ := mem_layoutAll hChild
            exact ih old hOld offset

/-- The children of a laid-out node are laid out one after the other. -/
theorem layoutAll_children {node child : Node} {start : Nat} (h : node.WellFormed)
    (hLaid : node.layout start = node) (hChild : child ∈ node.children) :
    layoutAll start node.children = node.children := by
  rw [layout_of_inner start (h.tokenText?_eq_none hChild)] at hLaid
  exact congrArg children hLaid

/-- Nodes that are laid out one after the other, seen from one of them. -/
theorem layoutAll_around {nodes : List Node} {node : Node} {start index : Nat}
    (hLaid : layoutAll start nodes = nodes) (hNode : nodes[index]? = some node) :
    layoutAll start (nodes.take index) = nodes.take index ∧
      node.layout (start + sizeOfAll (nodes.take index)) = node ∧
      layoutAll (start + sizeOfAll (nodes.take index) + node.size) (nodes.drop (index + 1)) =
        nodes.drop (index + 1) := by
  obtain ⟨hIndex, rfl⟩ := List.getElem?_eq_some_iff.mp hNode
  have hSplit := layoutAll_append start (nodes.take index) (nodes.drop index)
  rw [List.take_append_drop, hLaid] at hSplit
  have hParts : layoutAll start (nodes.take index) = nodes.take index ∧
      layoutAll (start + sizeOfAll (nodes.take index)) (nodes.drop index) = nodes.drop index := by
    apply List.append_inj
    · rw [← hSplit, List.take_append_drop]
    · exact length_layoutAll start _
  obtain ⟨hBefore, hFrom⟩ := hParts
  rw [List.drop_eq_getElem_cons hIndex, layoutAll, stop_layout, List.cons.injEq] at hFrom
  exact ⟨hBefore, hFrom⟩

/-- How many bytes of the node's text come before the node at the path. -/
def offsetAt (node : Node) : Path → Nat
  | [] => 0
  | index :: path =>
      sizeOfAll (node.children.take index) +
        match node.children[index]? with
        | some child => child.offsetAt path
        | none => 0

theorem descendant?_cons (node : Node) (index : Nat) (path : Path) :
    node.descendant? (index :: path) = node.children[index]?.bind (·.descendant? path) := by
  rw [descendant?]
  cases node.children[index]? <;> rfl

theorem descendant?_cons_eq_some_iff {node below : Node} {index : Nat} {path : Path} :
    node.descendant? (index :: path) = some below ↔
      ∃ child, node.children[index]? = some child ∧ child.descendant? path = some below := by
  rw [descendant?_cons, Option.bind_eq_some_iff]

theorem offsetAt_cons {node child : Node} {index : Nat} (path : Path)
    (hChild : node.children[index]? = some child) :
    node.offsetAt (index :: path) = sizeOfAll (node.children.take index) + child.offsetAt path := by
  rw [offsetAt, hChild]

/-- A descendant ends inside the text of the node. -/
theorem offsetAt_add_size_le {node below : Node} (h : node.WellFormed) {path : Path}
    (hBelow : node.descendant? path = some below) :
    node.offsetAt path + below.size ≤ node.size := by
  induction path generalizing node with
  | nil =>
      cases hBelow
      simp [offsetAt]
  | cons index path ih =>
      obtain ⟨child, hChild, hRest⟩ := descendant?_cons_eq_some_iff.mp hBelow
      have hMem := List.mem_of_getElem? hChild
      have hPart := ih (h.parts child hMem) hRest
      rw [offsetAt_cons path hChild, size_of_inner (h.tokenText?_eq_none hMem),
        sizeOfAll_eq_around hChild]
      omega

/-- Layout moves every descendant to where the text before it ends. -/
theorem descendant?_layout {node : Node} (h : node.WellFormed) (start : Nat) (path : Path) :
    (node.layout start).descendant? path =
      (node.descendant? path).map (layout (start + node.offsetAt path)) := by
  induction path generalizing node start with
  | nil => rfl
  | cons index path ih =>
      rw [descendant?_cons, descendant?_cons]
      cases hText : node.payload.tokenText? with
      | some text =>
          have hNone : node.children = [] := h.children_eq_nil hText
          simp [layout_of_token start hText, hNone]
      | none =>
          rw [layout_of_inner start hText, getElem?_layoutAll]
          cases hChild : node.children[index]? with
          | none => rfl
          | some child =>
              have hPart := h.parts child (List.mem_of_getElem? hChild)
              simp only [Option.map_some, Option.bind_some]
              rw [ih hPart, offsetAt_cons path hChild, Nat.add_assoc]

/-- Every node of a laid-out tree is laid out itself, from where it starts. -/
theorem layout_start_of_descendant {node below : Node} {start : Nat} {path : Path}
    (h : node.WellFormed) (hLaid : node.layout start = node)
    (hBelow : node.descendant? path = some below) :
    below.layout (start + node.offsetAt path) = below := by
  have hAt := descendant?_layout h start path
  rw [hLaid, hBelow, Option.map_some] at hAt
  exact (Option.some.inj hAt).symm

theorem replaceAt_cons {node child : Node} {index : Nat} (path : Path) (new : Node)
    (hChild : node.children[index]? = some child) :
    node.replaceAt (index :: path) new =
      { node with
        children := node.children.take index ++
          child.replaceAt path new :: node.children.drop (index + 1) } := by
  obtain ⟨hIndex, rfl⟩ := List.getElem?_eq_some_iff.mp hChild
  rw [replaceAt, List.modify_eq_take_cons_drop hIndex]

/-- The replacement is found where it was put. -/
theorem descendant?_replaceAt_self {node old : Node} {path : Path}
    (hOld : node.descendant? path = some old) (new : Node) :
    (node.replaceAt path new).descendant? path = some new := by
  induction path generalizing node with
  | nil => rfl
  | cons index path ih =>
      obtain ⟨child, hChild, hRest⟩ := descendant?_cons_eq_some_iff.mp hOld
      rw [descendant?_cons, replaceAt, List.getElem?_modify_eq, hChild]
      exact ih hRest

theorem WellFormed.replaceAt {node new : Node} (h : node.WellFormed) (hNew : new.WellFormed)
    (path : Path) : (node.replaceAt path new).WellFormed := by
  induction path generalizing node with
  | nil => exact hNew
  | cons index path ih =>
      cases hChild : node.children[index]? with
      | none =>
          rw [Node.replaceAt, List.modify_eq_self (List.getElem?_eq_none_iff.mp hChild)]
          exact .intro h.fits h.leaf h.parts
      | some child =>
          have hMem := List.mem_of_getElem? hChild
          rw [replaceAt_cons path new hChild]
          refine .intro h.fits (fun hKind => ?_) (fun part hPart => ?_)
          · simp [h.leaf hKind] at hMem
          · rcases List.mem_append.mp hPart with hPart | hPart
            · exact h.parts part (List.mem_of_mem_take hPart)
            · rcases List.mem_cons.mp hPart with rfl | hPart
              · exact ih (h.parts child hMem)
              · exact h.parts part (List.mem_of_mem_drop hPart)

/-- The text of a tree grows by as much as the replaced node does. -/
theorem size_replaceAt {node old : Node} (h : node.WellFormed) {path : Path}
    (hOld : node.descendant? path = some old) (new : Node) :
    (node.replaceAt path new).size + old.size = node.size + new.size := by
  induction path generalizing node with
  | nil =>
      cases hOld
      exact Nat.add_comm _ _
  | cons index path ih =>
      obtain ⟨child, hChild, hRest⟩ := descendant?_cons_eq_some_iff.mp hOld
      have hMem := List.mem_of_getElem? hChild
      have hInner := h.tokenText?_eq_none hMem
      have hStep := ih (h.parts child hMem) hRest
      have hWhole := sizeOfAll_eq_around hChild
      rw [replaceAt_cons path new hChild, size_of_inner hInner, size_of_inner (by exact hInner)]
      simp only [sizeOfAll_append, sizeOfAll_cons]
      omega

/-- Whether a replacement has been laid out before makes no difference once the whole tree is
laid out. -/
theorem layout_replaceAt_layout {node old : Node} (h : node.WellFormed) {path : Path}
    (hOld : node.descendant? path = some old) (new : Node) (offset start : Nat) :
    (node.replaceAt path (new.layout offset)).layout start =
      (node.replaceAt path new).layout start := by
  induction path generalizing node start with
  | nil => exact layout_layout offset start new
  | cons index path ih =>
      obtain ⟨child, hChild, hRest⟩ := descendant?_cons_eq_some_iff.mp hOld
      have hMem := List.mem_of_getElem? hChild
      have hInner := h.tokenText?_eq_none hMem
      have hPart := ih (h.parts child hMem) hRest
      have hSize : (child.replaceAt path (new.layout offset)).size =
          (child.replaceAt path new).size := by
        rw [← size_layout 0, hPart 0, size_layout]
      rw [replaceAt_cons _ _ hChild, replaceAt_cons _ _ hChild,
        layout_inner_eq start (by exact hInner), layout_inner_eq start (by exact hInner)]
      simp only [layoutAll_append, layoutAll, stop_layout, sizeOfAll_append, sizeOfAll_cons, hPart,
        hSize]

/-- A well-formed node whose spans are those of its layout. -/
structure Canonical (node : Node) : Prop where
  wellFormed : node.WellFormed
  laid : node.layout node.span.start = node

theorem WellFormed.canonical_layout {node : Node} (h : node.WellFormed) (start : Nat) :
    (node.layout start).Canonical :=
  ⟨h.layout start, by rw [start_layout, layout_layout]⟩

/-- In a canonical node every descendant is canonical, and starts after what comes before it. -/
theorem Canonical.descendant {node below : Node} (h : node.Canonical) {path : Path}
    (hBelow : node.descendant? path = some below) :
    below.Canonical ∧ below.span.start = node.span.start + node.offsetAt path := by
  have hLaid := layout_start_of_descendant h.wellFormed h.laid hBelow
  have hStart := start_of_layout_eq hLaid
  exact ⟨⟨h.wellFormed.descendant hBelow, by rw [hStart, hLaid]⟩, hStart⟩

theorem Canonical.stop_eq {node : Node} (h : node.Canonical) :
    node.span.stop = node.span.start + node.size :=
  stop_of_layout_eq h.laid

end UiLint.Node
