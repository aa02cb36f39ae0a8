import UiLint.Proofs.Tree.Layout

/-! Positions in the text. The span of a node in a laid-out tree starts after the tokens that
come before the node in pre-order, and the bytes of the whole text in that span are the text
of the node. -/
namespace UiLint.Node

/-- The text of the tokens among entries of a pre-order. -/
def tokensText (entries : List (Path × Node)) : String :=
  String.join (entries.map fun entry => entry.2.tokenText?.getD "")

/-- The text of the tokens that come before the node at the path in pre-order. -/
def textBefore (root : Node) (path : Path) : String :=
  tokensText (root.preorder.takeWhile (·.1 != path))

theorem tokensText_cons (entry : Path × Node) (entries : List (Path × Node)) :
    tokensText (entry :: entries) = entry.2.tokenText?.getD "" ++ tokensText entries := by
  simp [tokensText]

theorem tokensText_append (first second : List (Path × Node)) :
    tokensText (first ++ second) = tokensText first ++ tokensText second := by
  simp [tokensText]

theorem preorderFrom_eq (above : Path) (node : Node) :
    preorderFrom above node = (above, node) :: preorderOfAll above 0 node.children := by
  cases node
  rw [preorderFrom]

theorem preorderOfAll_eq (above : Path) (index : Nat) (nodes : List Node) :
    preorderOfAll above index nodes =
      (nodes.zipIdx index).flatMap fun entry => preorderFrom (above.child entry.2) entry.1 := by
  induction nodes generalizing index with
  | nil => rfl
  | cons node nodes ih => simp [preorderOfAll, ih]

/-- The tokens of several nodes spell their text, if those of each node do. -/
theorem tokensText_preorderOfAll_of (above : Path) (index : Nat) (nodes : List Node)
    (hText : ∀ node ∈ nodes, ∀ above, tokensText (preorderFrom above node) = node.text) :
    tokensText (preorderOfAll above index nodes) = textOfAll nodes := by
  induction nodes generalizing index with
  | nil => rfl
  | cons node nodes ih =>
      rw [preorderOfAll, tokensText_append, textOfAll, hText node (by simp),
        ih _ fun n hn => hText n (by simp [hn])]

/-- The tokens of a node in pre-order spell its text. -/
theorem tokensText_preorderFrom {node : Node} (h : node.WellFormed) (above : Path) :
    tokensText (preorderFrom above node) = node.text := by
  induction h generalizing above with
  | @intro node fits leaf parts ih =>
      rw [preorderFrom_eq, tokensText_cons, tokensText_preorderOfAll_of _ _ _ ih, text_eq,
        tokenText?]
      cases hText : node.payload.tokenText? with
      | none => simp
      | some text =>
          have hNone := (WellFormed.intro fits leaf parts).children_eq_nil hText
          simp [hNone, textOfAll]

/-- Every path in the pre-order of a node starts with the path to the node. -/
theorem exists_append_of_mem_preorderFrom {above : Path} {node : Node} {entry : Path × Node}
    (hMem : entry ∈ preorderFrom above node) : ∃ below, entry.1 = above ++ below := by
  induction node using inductionOn generalizing above entry with
  | step kind span payload children ih =>
      rw [preorderFrom, preorderOfAll_eq, List.mem_cons] at hMem
      rcases hMem with rfl | hMem
      · exact ⟨[], by simp⟩
      · obtain ⟨⟨child, index⟩, hChild, hEntry⟩ := List.mem_flatMap.mp hMem
        obtain ⟨below, hBelow⟩ := ih child (List.fst_mem_of_mem_zipIdx hChild) hEntry
        exact ⟨index :: below, by simp [hBelow, Path.child]⟩

/-- The text before a descendant, by the way down to it: what stands before each child on
the way. -/
def textAbove (node : Node) : Path → String
  | [] => ""
  | index :: path =>
      textOfAll (node.children.take index) ++
        match node.children[index]? with
        | some child => child.textAbove path
        | none => ""

theorem utf8ByteSize_textAbove (node : Node) (path : Path) :
    (node.textAbove path).utf8ByteSize = node.offsetAt path := by
  induction path generalizing node with
  | nil => rfl
  | cons index path ih =>
      rw [textAbove, offsetAt, String.utf8ByteSize_append, sizeOfAll]
      cases node.children[index]? with
      | none => rfl
      | some child => simp [ih child]

/-- Up to a path below one of several nodes, a pre-order spells the nodes before that one
and what comes before the path there. -/
theorem tokensText_takeWhile_preorderOfAll (above path : Path) (skipped : Nat)
    (entries : List (Path × Node)) {nodes : List Node} {child : Node} {index : Nat}
    (h : ∀ node ∈ nodes, node.WellFormed) (hChild : nodes[index]? = some child)
    (hBelow : ∀ entries : List (Path × Node),
      tokensText ((preorderFrom (above.child (skipped + index)) child ++ entries).takeWhile
        (·.1 != above ++ (skipped + index) :: path)) = child.textAbove path) :
    tokensText ((preorderOfAll above skipped nodes ++ entries).takeWhile
      (·.1 != above ++ (skipped + index) :: path)) =
        textOfAll (nodes.take index) ++ child.textAbove path := by
  induction nodes generalizing index skipped with
  | nil => simp at hChild
  | cons node nodes ih =>
      rw [preorderOfAll, List.append_assoc]
      cases index with
      | zero =>
          cases hChild
          simpa [textOfAll] using hBelow _
      | succ index =>
          have hBefore : ∀ entry ∈ preorderFrom (above.child skipped) node,
              (entry.1 != above ++ (skipped + (index + 1)) :: path) = true := by
            intro entry hEntry
            obtain ⟨below, hPath⟩ := exists_append_of_mem_preorderFrom hEntry
            simp [hPath, Path.child]
          rw [List.takeWhile_append_of_pos hBefore, tokensText_append,
            tokensText_preorderFrom (h node (by simp)), List.take_succ_cons, textOfAll,
            String.append_assoc]
          rw [show skipped + (index + 1) = skipped + 1 + index by omega] at hBelow ⊢
          rw [ih (skipped + 1) (fun n hn => h n (by simp [hn])) hChild hBelow]

/-- The pre-order up to a descendant spells what stands before each child on the way. -/
theorem tokensText_takeWhile_preorderFrom {node below : Node} (h : node.WellFormed)
    (above : Path) {path : Path} (hBelow : node.descendant? path = some below)
    (entries : List (Path × Node)) :
    tokensText ((preorderFrom above node ++ entries).takeWhile (·.1 != above ++ path)) =
      node.textAbove path := by
  induction path generalizing node above entries with
  | nil => simp [preorderFrom_eq, tokensText, textAbove]
  | cons index path ih =>
      obtain ⟨child, hChild, hRest⟩ := descendant?_cons_eq_some_iff.mp hBelow
      have hInner : node.tokenText? = none :=
        h.tokenText?_eq_none (List.mem_of_getElem? hChild)
      have hParts := tokensText_takeWhile_preorderOfAll above path 0 entries h.parts hChild
        fun entries => by
          simpa [Path.child] using
            ih (h.parts child (List.mem_of_getElem? hChild)) (above.child (0 + index)) hRest entries
      rw [preorderFrom_eq, List.cons_append, List.takeWhile_cons_of_pos (by simp), tokensText_cons,
        hInner, textAbove, hChild]
      simpa using hParts

theorem textBefore_eq_textAbove {root below : Node} (h : root.WellFormed) {path : Path}
    (hBelow : root.descendant? path = some below) : root.textBefore path = root.textAbove path := by
  simpa [textBefore, preorder] using tokensText_takeWhile_preorderFrom h [] hBelow []

/-- The text of a descendant stands in the node's text right after what comes before it, and so does
that of any node put in its place. -/
theorem exists_text_replaceAt {node below : Node} (h : node.WellFormed) {path : Path}
    (hBelow : node.descendant? path = some below) :
    ∃ after, node.text = node.textAbove path ++ below.text ++ after ∧
      ∀ new, (node.replaceAt path new).text = node.textAbove path ++ new.text ++ after := by
  induction path generalizing node with
  | nil =>
      cases hBelow
      exact ⟨"", by simp [textAbove], by simp [textAbove, replaceAt]⟩
  | cons index path ih =>
      obtain ⟨child, hChild, hRest⟩ := descendant?_cons_eq_some_iff.mp hBelow
      obtain ⟨after, hText, hNew⟩ := ih (h.parts child (List.mem_of_getElem? hChild)) hRest
      have hInner := h.tokenText?_eq_none (List.mem_of_getElem? hChild)
      obtain ⟨hIndex, rfl⟩ := List.getElem?_eq_some_iff.mp hChild
      have hSplit : node.children = node.children.take index ++
          node.children[index] :: node.children.drop (index + 1) := by simp
      refine ⟨after ++ textOfAll (node.children.drop (index + 1)), ?_, fun new => ?_⟩
      · rw [text_eq, hInner, Option.getD_none, hSplit, textOfAll_append, textOfAll, hText, textAbove,
          hChild]
        simp [String.append_assoc]
      · rw [replaceAt, text_eq, hInner, Option.getD_none, List.modify_eq_take_cons_drop hIndex,
          textOfAll_append, textOfAll, hNew, textAbove, hChild]
        simp [String.append_assoc]

/-- In a laid-out tree a node spans its own text, right after the tokens before it. -/
theorem span_eq_of_layout {root below : Node} (h : root.WellFormed) (hLaid : root.layout 0 = root)
    {path : Path} (hBelow : root.descendant? path = some below) :
    below.span = ⟨(root.textBefore path).utf8ByteSize,
      (root.textBefore path).utf8ByteSize + below.text.utf8ByteSize⟩ := by
  have hAt := layout_start_of_descendant h hLaid hBelow
  rw [textBefore_eq_textAbove h hBelow, utf8ByteSize_textAbove, ← hAt, span_layout, text_layout]
  simp [size]

/-- The bytes of the whole text in the span of a node are the bytes of the node's text. -/
theorem extract_text_of_layout {root below : Node} (h : root.WellFormed)
    (hLaid : root.layout 0 = root) {path : Path} (hBelow : root.descendant? path = some below) :
    root.text.toByteArray.extract below.span.start below.span.stop = below.text.toByteArray := by
  obtain ⟨after, hText, -⟩ := exists_text_replaceAt h hBelow
  rw [span_eq_of_layout h hLaid hBelow, textBefore_eq_textAbove h hBelow, hText,
    String.toByteArray_append]
  generalize root.textAbove path = before
  rw [ByteArray.extract_append]
  simp [String.toByteArray_append, ByteArray.extract_append_eq_right]

end UiLint.Node
