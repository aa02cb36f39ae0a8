import UiLint.Proofs.Tree.Growth
import UiLint.Proofs.Tree.Position
import UiLint.Text.LineIndex

/-! The text of a tree that has grown: the old text, with that of the extra node put in at the
end of every chosen node. -/
namespace UiLint

namespace Text

theorem byteLength_toList (text : String) : byteLength text.toList = text.utf8ByteSize := by
  have hChars : ∀ cs : List Char, byteLength cs = (String.ofList cs).utf8ByteSize := by
    intro cs
    induction cs with
    | nil => rfl
    | cons c cs ih =>
        rw [byteLength, ih, ← List.singleton_append, String.ofList_append,
          String.utf8ByteSize_append, ← String.singleton_eq_ofList, String.utf8ByteSize_singleton]
  rw [hChars, String.ofList_toList]

/-- The piece as many times as given. -/
def copies (count : Nat) (piece : List Char) : List Char :=
  (List.replicate count piece).flatten

/-- The characters of a text that begins at offset `start`, with as many copies of a piece put in
at each offset as `count` says. -/
def interject (piece : List Char) (count : Nat → Nat) (start : Nat) : List Char → List Char
  | [] => copies (count start) piece
  | c :: cs =>
      copies (count start) piece ++ c :: interject piece count (start + c.utf8Size) cs

variable {piece : List Char}

theorem copies_add (first second : Nat) :
    copies (first + second) piece = copies first piece ++ copies second piece := by
  rw [copies, ← List.replicate_append_replicate, List.flatten_append, copies, copies]

/-- Only the offsets from the start on matter. -/
theorem interject_congr {count other : Nat → Nat} {start : Nat} (cs : List Char)
    (hSame : ∀ offset, start ≤ offset → count offset = other offset) :
    interject piece count start cs = interject piece other start cs := by
  induction cs generalizing start with
  | nil => rw [interject, interject, hSame start (Nat.le_refl _)]
  | cons c cs ih =>
      rw [interject, interject, hSame start (Nat.le_refl _), ih]
      intro offset hOffset
      exact hSame offset (by omega)

/-- Putting pieces into two texts that follow one another. -/
theorem interject_append {first second : Nat → Nat} {start : Nat} (cs ds : List Char)
    (hFirst : ∀ offset, start + byteLength cs < offset → first offset = 0)
    (hSecond : ∀ offset, offset < start + byteLength cs → second offset = 0) :
    interject piece (fun offset => first offset + second offset) start (cs ++ ds) =
      interject piece first start cs ++ interject piece second (start + byteLength cs) ds := by
  induction cs generalizing start with
  | nil =>
      rw [byteLength, Nat.add_zero] at hFirst
      cases ds with
      | nil => exact copies_add _ _
      | cons d ds =>
          rw [List.nil_append, interject, interject, byteLength, Nat.add_zero, interject, copies_add,
            List.append_assoc]
          congr 3
          apply interject_congr
          intro offset hOffset
          have hSize := Char.utf8Size_pos d
          rw [hFirst offset (by omega), Nat.zero_add]
  | cons c cs ih =>
      have hSize := Char.utf8Size_pos c
      simp only [byteLength, ← Nat.add_assoc] at hFirst hSecond ⊢
      rw [List.cons_append, interject, interject, hSecond start (by omega), Nat.add_zero,
        ih hFirst hSecond, List.append_assoc, List.cons_append]

/-- Putting more pieces in at the end. -/
theorem interject_end {count : Nat → Nat} {start : Nat} (cs : List Char) (more : Nat)
    (hCount : ∀ offset, start + byteLength cs < offset → count offset = 0) :
    interject piece
        (fun offset => count offset + if offset = start + byteLength cs then more else 0) start cs =
      interject piece count start cs ++ copies more piece := by
  have hEnd : ∀ offset, offset < start + byteLength cs →
      (if offset = start + byteLength cs then more else 0) = 0 :=
    fun offset hOffset => if_neg (by omega)
  rw [← List.append_nil cs, interject_append cs [] (by simpa using hCount) (by simpa using hEnd)]
  simp [interject]

theorem interject_of_zero {count : Nat → Nat} (hZero : ∀ offset, count offset = 0) (start : Nat)
    (cs : List Char) : interject piece count start cs = cs := by
  induction cs generalizing start with
  | nil => simp [interject, hZero, copies]
  | cons c cs ih => simp [interject, hZero, copies, ih]

end Text

namespace Node

/-- How many of the entries are chosen and end at the offset. -/
def endsAt (entries : List (Path × Node)) (chosen : Path → Bool) (offset : Nat) : Nat :=
  entries.countP fun entry => chosen entry.1 && entry.2.span.stop == offset

theorem endsAt_append (first second : List (Path × Node)) (chosen : Path → Bool) :
    endsAt (first ++ second) chosen =
      fun offset => endsAt first chosen offset + endsAt second chosen offset := by
  funext offset
  exact List.countP_append

theorem endsAt_cons (above : Path) (node : Node) (entries : List (Path × Node))
    (chosen : Path → Bool) :
    endsAt ((above, node) :: entries) chosen = fun offset =>
      endsAt entries chosen offset +
        if offset = node.span.stop then (if chosen above then 1 else 0) else 0 := by
  funext offset
  rw [endsAt, List.countP_cons, endsAt]
  congr 1
  cases chosen above with
  | false => simp
  | true => simp [eq_comm (a := offset)]

/-- Everything below a node that has been laid out ends inside it. -/
theorem stop_of_mem_preorderFrom {node : Node} (h : node.WellFormed) {start : Nat}
    (hLaid : node.layout start = node) {above : Path} {entry : Path × Node}
    (hEntry : entry ∈ preorderFrom above node) :
    start ≤ entry.2.span.stop ∧ entry.2.span.stop ≤ start + node.size := by
  induction h generalizing start above with
  | @intro node fits leaf parts ih =>
      have hWell : node.WellFormed := .intro fits leaf parts
      rw [preorderFrom_eq, List.mem_cons, preorderOfAll_eq, List.mem_flatMap] at hEntry
      rcases hEntry with rfl | ⟨⟨child, index⟩, hChild, hBelow⟩
      · rw [stop_of_layout_eq hLaid]
        omega
      · have hThere := List.mk_mem_zipIdx_iff_getElem?.mp hChild
        have hMem := List.mem_of_getElem? hThere
        obtain ⟨-, hChildLaid, -⟩ := layoutAll_around (layoutAll_children hWell hLaid hMem) hThere
        have hInside := ih child hMem hChildLaid hBelow
        have hSize := sizeOfAll_eq_around hThere
        rw [size_of_inner (hWell.tokenText?_eq_none hMem)]
        omega

theorem le_stop_of_mem_preorderOfAll {nodes : List Node} (h : ∀ node ∈ nodes, node.WellFormed)
    {start : Nat} (hLaid : layoutAll start nodes = nodes) {above : Path} {index : Nat}
    {entry : Path × Node} (hEntry : entry ∈ preorderOfAll above index nodes) :
    start ≤ entry.2.span.stop := by
  rw [preorderOfAll_eq, List.mem_flatMap] at hEntry
  obtain ⟨⟨node, place⟩, hNode, hBelow⟩ := hEntry
  obtain ⟨offset, hOffset⟩ := List.getElem?_of_mem (List.fst_mem_of_mem_zipIdx hNode)
  obtain ⟨-, hNodeLaid, -⟩ := layoutAll_around hLaid hOffset
  have hInside := stop_of_mem_preorderFrom (h node (List.mem_of_getElem? hOffset)) hNodeLaid hBelow
  omega

theorem endsAt_eq_zero {entries : List (Path × Node)} {offset : Nat}
    (hNone : ∀ entry ∈ entries, entry.2.span.stop ≠ offset) (chosen : Path → Bool) :
    endsAt entries chosen offset = 0 := by
  rw [endsAt, List.countP_eq_zero]
  intro entry hEntry
  simp [hNone entry hEntry]

/-- The text of nodes that have grown, if it is the old text with pieces put in for each of
them. -/
theorem text_appendAtAll_of (extra : Node) {above : Path} {chosen : Path → Bool} (nodes : List Node)
    (h : ∀ node ∈ nodes, node.WellFormed) (index : Nat) {start : Nat}
    (hLaid : layoutAll start nodes = nodes)
    (hText : ∀ place node, nodes[place]? = some node → ∀ start, node.layout start = node →
      (node.appendAt extra fun rest => chosen (above ++ (index + place) :: rest)).text.toList =
        Text.interject extra.text.toList
          (endsAt (preorderFrom (above.child (index + place)) node) chosen) start
          node.text.toList) :
    (textOfAll (appendAtAll nodes extra (fun rest => chosen (above ++ rest)) index)).toList =
      Text.interject extra.text.toList (endsAt (preorderOfAll above index nodes) chosen) start
        (textOfAll nodes).toList := by
  induction nodes generalizing index start with
  | nil => exact (Text.interject_of_zero (fun _ => rfl) start []).symm
  | cons node nodes ih =>
      rw [layoutAll, stop_layout, List.cons.injEq] at hLaid
      obtain ⟨hFirst, hRest⟩ := hLaid
      have hHead := hText 0 node rfl start hFirst
      have hTail := ih (fun n hn => h n (by simp [hn])) (index + 1) hRest (by
        intro place other hOther
        have hThere := hText (place + 1) other hOther
        rwa [Nat.add_comm place 1, ← Nat.add_assoc] at hThere)
      have hSize : Text.byteLength node.text.toList = node.size := Text.byteLength_toList _
      rw [appendAtAll, textOfAll, textOfAll, preorderOfAll, endsAt_append, String.toList_append,
        String.toList_append, Text.interject_append, hSize, ← hTail]
      · exact congrArg (· ++ _) hHead
      · intro offset hOffset
        apply endsAt_eq_zero
        intro entry hEntry
        have hInside := stop_of_mem_preorderFrom (h node (by simp)) hFirst hEntry
        omega
      · intro offset hOffset
        apply endsAt_eq_zero
        intro entry hEntry
        have hInside := le_stop_of_mem_preorderOfAll (fun n hn => h n (by simp [hn])) hRest hEntry
        omega

/-- The text of a laid-out node that has grown is the old text, with that of the extra node put
in wherever a chosen node ends. -/
theorem text_appendAt (extra : Node) {node : Node} (h : node.WellFormed) {start : Nat}
    (hLaid : node.layout start = node) (above : Path) (chosen : Path → Bool)
    (hInner : ∀ rest below, chosen (above ++ rest) = true → node.descendant? rest = some below →
      below.kind ≠ .token) :
    (node.appendAt extra fun rest => chosen (above ++ rest)).text.toList =
      Text.interject extra.text.toList (endsAt (preorderFrom above node) chosen) start
        node.text.toList := by
  induction h generalizing start above with
  | @intro node fits leaf parts ih =>
      have hWell : node.WellFormed := .intro fits leaf parts
      rw [text_eq (node.appendAt _ _), payload_appendAt, children_appendAt, List.append_nil,
        preorderFrom_eq, endsAt_cons, text_eq node]
      cases hText : node.payload.tokenText? with
      | some text =>
          have hToken : node.kind = .token := by
            rw [hWell.kind_eq_token_iff]
            cases hPayload : node.payload <;> simp_all [Payload.tokenText?]
          have hNot : chosen above = false := by
            cases hChosen : chosen above with
            | false => rfl
            | true => exact absurd hToken (hInner [] node (by simpa using hChosen) rfl)
          refine (Text.interject_of_zero (fun offset => ?_) start _).symm
          simp [endsAt, leaf hToken, preorderOfAll, hNot]
      | none =>
          have hChildren : layoutAll start node.children = node.children := by
            rw [layout_of_inner start hText] at hLaid
            exact congrArg children hLaid
          have hStop : node.span.stop =
              start + Text.byteLength (textOfAll node.children).toList := by
            rw [stop_of_layout_eq hLaid, size_of_inner hText, sizeOfAll, Text.byteLength_toList]
          have hAll : (textOfAll (appendAtAll node.children extra
              (fun rest => chosen (above ++ rest)) 0)).toList =
              Text.interject extra.text.toList (endsAt (preorderOfAll above 0 node.children) chosen)
                start (textOfAll node.children).toList := by
            apply text_appendAtAll_of extra node.children parts 0 hChildren
            intro place child hChild offset hChildLaid
            have hBelow := ih child (List.mem_of_getElem? hChild) hChildLaid (above.child (0 + place)) (by
              intro rest below hChosen hRest
              apply hInner (place :: rest) below
              · simpa [Path.child] using hChosen
              · rw [descendant?_cons, hChild]
                exact hRest)
            simpa [Path.child] using hBelow
          simp only [Option.getD_none]
          rw [hStop, Text.interject_end, ← hAll, textOfAll_append, String.toList_append]
          · cases chosen above <;> simp [Text.copies, textOfAll]
          · intro offset hOffset
            apply endsAt_eq_zero
            intro entry hEntry
            have hMem : entry ∈ preorderFrom above node := by
              rw [preorderFrom_eq]
              exact List.mem_cons_of_mem _ hEntry
            have hInside := stop_of_mem_preorderFrom hWell hLaid hMem
            rw [← stop_of_layout_eq hLaid] at hInside
            omega

end Node

end UiLint
