import UiLint.Proofs.Engine.Drift

/-! What one edit does to the text of a file and to the nodes around it. An edit that is made replaces
one run of bytes: nodes before it stay, nodes after it move, nodes around it grow. -/
namespace UiLint

namespace Node

/-- Appending a child leaves alone what is neither above nor below that child. -/
theorem descendant?_append_apart {node target : Node} {path place : Path}
    (hTarget : node.descendant? path = some target)
    (hBelow : ¬ path.child target.children.length <+: place)
    (hAbove : ¬ place <+: path.child target.children.length) (new : Node) :
    (node.replaceAt path { target with children := target.children ++ [new] }).descendant? place =
      node.descendant? place := by
  have hOutside : ¬ place <+: path := fun hPrefix =>
    hAbove (hPrefix.trans (List.prefix_append path _))
  by_cases hInside : path <+: place
  · obtain ⟨rest, rfl⟩ := hInside
    rw [descendant?_append, descendant?_append, descendant?_replaceAt_self hTarget, hTarget,
      Option.bind_some, Option.bind_some]
    cases rest with
    | nil => exact absurd (by simp) hOutside
    | cons index rest =>
        have hOther : index ≠ target.children.length := by
          rintro rfl
          exact hBelow ⟨rest, by simp [Path.child]⟩
        rw [descendant?_cons, descendant?_cons]
        rcases Nat.lt_or_gt_of_ne hOther with hLess | hMore
        · rw [List.getElem?_append_left hLess]
        · rw [List.getElem?_eq_none (Nat.le_of_lt hMore),
            List.getElem?_eq_none (by rw [List.length_append]; exact hMore)]
  · exact descendant?_replaceAt_apart node hInside hOutside _

/-- The nodes above a replaced one grow as the whole does. -/
theorem size_replaceAt_above {node old : Node} (h : node.WellFormed) {path place : Path}
    (hOld : node.descendant? path = some old) (hAbove : place <+: path) (new : Node) :
    ∃ above after, node.descendant? place = some above ∧
      (node.replaceAt path new).descendant? place = some after ∧
      (after.size : Int) = above.size + ((node.replaceAt path new).size - node.size) := by
  obtain ⟨rest, rfl⟩ := hAbove
  have hRest := hOld
  rw [descendant?_append] at hRest
  obtain ⟨above, hPlace, hInner⟩ := Option.bind_eq_some_iff.mp hRest
  have hWhole := size_replaceAt h hOld new
  have hPart := size_replaceAt (h.descendant hPlace) hInner new
  refine ⟨above, above.replaceAt rest new, hPlace, ?_, by omega⟩
  rw [replaceAt_append hPlace, descendant?_replaceAt_self hPlace]

end Node

namespace Edit

section Spot

variable {edit : Edit} {file next : Node} {spot place : Path}
  (hNext : edit.redraft? file = some next) (hSpot : edit.spot? file = some spot)
include hNext hSpot

/-- What is neither above nor below the spot that an edit changes is the same up to its layout. -/
theorem shape_redraft?_apart (hBelow : ¬ spot <+: place) (hAbove : ¬ place <+: spot) :
    (next.descendant? place).map Node.shape = (file.descendant? place).map Node.shape := by
  obtain ⟨target, found, hTarget, hFound, new, -, -, hCases⟩ := redraft?_at_spot hNext
  obtain rfl : found = spot := Option.some.inj (hFound.symm.trans hSpot)
  rcases hCases with ⟨old, -, rfl⟩ | ⟨-, rfl, rfl⟩
  · rw [← Node.descendant?_shape, Node.shape_layout, Node.descendant?_shape,
      Node.descendant?_replaceAt_apart file hBelow hAbove]
  · rw [← Node.descendant?_shape, Node.shape_layout, Node.descendant?_shape,
      Node.descendant?_append_apart hTarget hBelow hAbove]

/-- What is above the spot that an edit changes grows as the file does. -/
theorem size_redraft?_above (h : file.WellFormed) (hBelow : ¬ spot <+: place)
    (hAbove : place <+: spot) :
    ∃ above after, file.descendant? place = some above ∧ next.descendant? place = some after ∧
      (after.size : Int) = above.size + (next.size - file.size) := by
  obtain ⟨target, found, hTarget, hFound, new, -, -, hCases⟩ := redraft?_at_spot hNext
  obtain rfl : found = spot := Option.some.inj (hFound.symm.trans hSpot)
  have hReplaced : ∃ (path : Path) (old part : Node), file.descendant? path = some old ∧
      place <+: path ∧ next = (file.replaceAt path part).layout file.span.start := by
    rcases hCases with ⟨old, hOld, hLaid⟩ | ⟨-, rfl, hLaid⟩
    · exact ⟨found, old, new, hOld, hAbove, hLaid⟩
    · have hTargetAbove : place <+: edit.target :=
        (List.prefix_concat_iff.mp hAbove).resolve_left fun hSame =>
          hBelow ⟨[], by simp [hSame, Path.child]⟩
      exact ⟨_, _, _, hTarget, hTargetAbove, hLaid⟩
  obtain ⟨path, old, part, hOld, hPrefix, rfl⟩ := hReplaced
  obtain ⟨above, after, hPlace, hThere, hSize⟩ := Node.size_replaceAt_above h hOld hPrefix part
  obtain ⟨laid, hLaid, hShape⟩ := Node.exists_descendant?_layout hThere file.span.start
  refine ⟨above, laid, hPlace, hLaid, ?_⟩
  rw [← Node.size_shape laid, hShape, Node.size_shape, hSize, Node.size_layout]

/-- Nodes outside of the spot that an edit changes keep their kinds and payloads. Those above it grow
as the file does, and the others keep their length. -/
theorem rel_descendant?_redraft? (h : file.WellFormed) (hBelow : ¬ spot <+: place) :
    Option.Rel (fun old new => new.kind = old.kind ∧ new.payload = old.payload ∧
        (new.size : Int) = old.size + if place <+: spot then (next.size : Int) - file.size else 0)
      (file.descendant? place) (next.descendant? place) := by
  by_cases hAbove : place <+: spot
  · obtain ⟨above, after, hPlace, hThere, hSize⟩ := size_redraft?_above hNext hSpot h hBelow hAbove
    obtain ⟨same, hSame, hKind, hPayload⟩ := descendant?_redraft? hNext hSpot hBelow hPlace
    obtain rfl : after = same := Option.some.inj (hThere.symm.trans hSame)
    rw [hPlace, hThere, if_pos hAbove]
    exact .some ⟨hKind, hPayload, hSize⟩
  · have hShape := shape_redraft?_apart hNext hSpot hBelow hAbove
    rw [if_neg hAbove]
    cases hOld : file.descendant? place with
    | none =>
        rw [hOld, Option.map_none, Option.map_eq_none_iff] at hShape
        rw [hShape]
        exact .none
    | some old =>
        rw [hOld, Option.map_some, Option.map_eq_some_iff] at hShape
        obtain ⟨new, hNew, hSame⟩ := hShape
        rw [hNew]
        refine .some ⟨?_, ?_, ?_⟩
        · rw [← Node.kind_shape, hSame, Node.kind_shape]
        · rw [← Node.payload_shape, hSame, Node.payload_shape]
        · rw [← Node.size_shape, hSame, Node.size_shape, Int.add_zero]

end Spot

end Edit

namespace Node

/-- A node for which no last token is found has no token. -/
theorem kind_ne_token_of_lastTokenPath? {node below : Node} {place : Path}
    (hNone : node.lastTokenPath? = none) (hBelow : node.descendant? place = some below) :
    below.kind ≠ .token := by
  induction node using inductionOn generalizing place with
  | step kind span payload children ih =>
      rw [lastTokenPath?_eq] at hNone
      split at hNone
      · cases hNone
      · rename_i hKind
        cases place with
        | nil =>
            cases hBelow
            exact hKind
        | cons index place =>
            obtain ⟨child, hChild, hRest⟩ := descendant?_cons_eq_some_iff.mp hBelow
            have hMember := List.mem_of_getElem? hChild
            exact ih child hMember (lastTokenPathOfAll?_eq_none hNone child hMember) hRest

/-- The last token comes after every other token. -/
theorem order_lastTokenPath? {node token : Node} {path place : Path} (h : node.WellFormed)
    (hPath : node.lastTokenPath? = some path) (hToken : node.descendant? place = some token)
    (hKind : token.kind = .token) : place = path ∨ place.order path = .lt := by
  induction h generalizing path place with
  | @intro node fits leaf parts ih =>
      rw [lastTokenPath?_eq] at hPath
      cases place with
      | nil =>
          cases hToken
          rw [if_pos hKind] at hPath
          exact .inl (Option.some.inj hPath)
      | cons index place =>
          obtain ⟨child, hChild, hRest⟩ := descendant?_cons_eq_some_iff.mp hToken
          have hMember := List.mem_of_getElem? hChild
          split at hPath
          · rename_i hLeaf
            rw [leaf hLeaf] at hMember
            cases hMember
          · obtain ⟨last, found, rest, rfl, hFound, hLast, hLater⟩ :=
              exists_of_lastTokenPathOfAll? hPath
            rw [Nat.zero_add]
            rcases Nat.lt_trichotomy index last with hLess | rfl | hMore
            · exact .inr (Path.order_cons_of_lt hLess ..)
            · obtain rfl : child = found := Option.some.inj (hChild.symm.trans hFound)
              rw [Path.order_cons_self]
              exact (ih child hMember hLast hRest).imp_left (congrArg _)
            · have hBehind : child ∈ node.children.drop (last + 1) := by
                refine List.mem_of_getElem? (i := index - (last + 1)) ?_
                rw [List.getElem?_drop, Nat.add_sub_cancel' hMore, hChild]
              exact absurd hKind (kind_ne_token_of_lastTokenPath? (hLater child hBehind) hRest)

end Node

/-- The second text is the first one with the bytes of the span replaced by the new text. -/
def Text.Splices (span : Span) (new first second : String) : Prop :=
  ∃ before old after, first = before ++ old ++ after ∧ second = before ++ new ++ after ∧
    span = ⟨before.utf8ByteSize, before.utf8ByteSize + old.utf8ByteSize⟩

/-- What a change of a node takes the place of, with its path and its bytes: the last token of the
node, its first default value, or nothing at its end. -/
inductive Change.Covers (site : Site) : Change → Path → Span → Prop where
  | token {text : String} {token : Site} (hToken : site.lastToken? = some token) :
      Covers site (.lastToken text) token.path token.node.span
  | value {expression : String} {value : Site}
      (hValue : site.childOfKind? .defaultValue = some value) :
      Covers site (.defaultValue expression) value.path value.node.span
  | nothing {expression : String} (hNone : site.childOfKind? .defaultValue = none) :
      Covers site (.defaultValue expression) (site.path.child site.node.children.length)
        ⟨site.node.span.stop, site.node.span.stop⟩

/-- Why a change of the node at a path is impossible: there is no such node, it has no token, or it is
not a parameter. -/
inductive Change.Impossible (root : Node) (path : Path) : Change → Prop where
  | missing {change : Change} (hNone : Site.at? root path = none) : Impossible root path change
  | tokenless {text : String} {site : Site} (hSite : Site.at? root path = some site)
      (hNone : site.lastToken? = none) : Impossible root path (.lastToken text)
  | misplaced {expression : String} {site : Site} (hSite : Site.at? root path = some site)
      (hKind : site.node.kind ≠ .parameter) : Impossible root path (.defaultValue expression)

theorem Text.Splices.size {span : Span} {new first second : String}
    (h : Text.Splices span new first second) :
    (second.utf8ByteSize : Int) - first.utf8ByteSize = new.utf8ByteSize - span.length := by
  obtain ⟨before, old, after, rfl, rfl, rfl⟩ := h
  simp only [String.utf8ByteSize_append, Span.length]
  omega

/-- The first child of a kind, by its index. -/
theorem Site.childOfKind?_eq (site : Site) (kind : Kind) :
    site.childOfKind? kind = (site.node.children.findIdx? (·.kind == kind)).bind fun index =>
      site.node.children[index]?.map fun child => ⟨site.root, site.path.child index, child⟩ := by
  rw [childOfKind?, children, List.find?_map, List.findIdx?_eq_fst_find?_zipIdx]
  have hSame : (fun child : Site => child.node.kind == kind) ∘
      (fun entry : Node × Nat => ⟨site.root, site.path.child entry.2, entry.1⟩) =
      fun entry => entry.1.kind == kind := rfl
  rw [hSame]
  cases hFind : site.node.children.zipIdx.find? (fun entry => entry.1.kind == kind) with
  | none => rfl
  | some entry =>
      have hThere := List.mem_zipIdx_iff_getElem?.mp (List.mem_of_find?_eq_some hFind)
      simp [hThere]

namespace Edit

/-- The bytes of a file that a change at a spot replaces: those of what is there, or none at the end of
the target. -/
def gap (file target : Node) (spot : Path) : Span :=
  (file.descendant? spot).elim ⟨target.span.stop, target.span.stop⟩ Node.span

theorem descendant?_child_length {file target : Node} {path : Path}
    (hTarget : file.descendant? path = some target) :
    file.descendant? (path.child target.children.length) = none := by
  rw [Path.child, Node.descendant?_append, hTarget, Option.bind_some, Node.descendant?_cons,
    List.getElem?_eq_none (Nat.le_refl _)]
  rfl

/-- What an edit replaces is what its change covers. -/
theorem covers_gap {edit : Edit} {file target : Node} {spot : Path}
    (hTarget : file.descendant? edit.target = some target) (hSpot : edit.spot? file = some spot) :
    edit.change.Covers ⟨file, edit.target, target⟩ spot (gap file target spot) := by
  obtain ⟨rest, rfl, hRest⟩ := exists_spot_eq_append hTarget hSpot
  rcases hRest with ⟨text, hChange, hPath⟩ | ⟨expression, hChange, rfl⟩
  · obtain ⟨token, hToken, -⟩ := Node.exists_token_of_lastTokenPath? hPath
    have hThere : file.descendant? (edit.target ++ rest) = some token := by
      rw [Node.descendant?_append, hTarget, Option.bind_some, hToken]
    rw [hChange, gap, hThere]
    have hLast : Site.lastToken? ⟨file, edit.target, target⟩ =
        some ⟨file, edit.target ++ rest, token⟩ := by
      simp only [Site.lastToken?, hPath, Option.bind_some, Site.at?, hThere, Option.map_some]
    exact .token hLast
  · have hChild := Site.childOfKind?_eq ⟨file, edit.target, target⟩ .defaultValue
    rw [hChange]
    cases hIndex : target.children.findIdx? (·.kind == .defaultValue) with
    | none =>
        simp only [hIndex, Option.bind_none] at hChild
        have hNone := descendant?_child_length hTarget
        rw [Path.child] at hNone
        rw [Option.getD_none, gap, hNone]
        exact .nothing hChild
    | some index =>
        obtain ⟨hLess, -⟩ := List.findIdx?_eq_some_iff_findIdx_eq.mp hIndex
        have hThere : file.descendant? (edit.target ++ [index]) = some target.children[index] := by
          rw [Node.descendant?_append, hTarget, Option.bind_some, Node.descendant?_cons,
            List.getElem?_eq_getElem hLess]
          rfl
        simp only [hIndex, Option.bind_some, List.getElem?_eq_getElem hLess, Option.map_some]
          at hChild
        rw [Option.getD_some, gap, hThere]
        exact .value hChild

section Gap

variable {edit : Edit} {file next target : Node} {spot : Path}
  (hNext : edit.redraft? file = some next) (hTarget : file.descendant? edit.target = some target)
  (hSpot : edit.spot? file = some spot)
include hNext hTarget hSpot

/-- The gap of an edit is what is at its spot, or empty at the end of its target. -/
theorem gap_cases :
    (∃ old, file.descendant? spot = some old ∧ gap file target spot = old.span) ∨
      spot = edit.target.child target.children.length ∧
        gap file target spot = ⟨target.span.stop, target.span.stop⟩ := by
  obtain ⟨same, found, hSame, hFound, new, -, -, hCases⟩ := redraft?_at_spot hNext
  obtain rfl : found = spot := Option.some.inj (hFound.symm.trans hSpot)
  obtain rfl : same = target := Option.some.inj (hSame.symm.trans hTarget)
  rcases hCases with ⟨old, hOld, -⟩ | ⟨-, rfl, -⟩
  · exact .inl ⟨old, hOld, by rw [gap, hOld, Option.elim_some]⟩
  · exact .inr ⟨rfl, by rw [gap, descendant?_child_length hTarget, Option.elim_none]⟩

variable (h : file.Canonical)
include h

/-- An edit replaces the bytes of one gap by the text of its change. -/
theorem splices_gap (hStart : file.span.start = 0) :
    Text.Splices (gap file target spot) edit.change.inserted file.text next.text := by
  obtain ⟨same, found, hSame, hFound, new, -, hText, hCases⟩ := redraft?_at_spot hNext
  obtain rfl : found = spot := Option.some.inj (hFound.symm.trans hSpot)
  obtain rfl : same = target := Option.some.inj (hSame.symm.trans hTarget)
  rcases hCases with ⟨old, hOld, rfl⟩ | ⟨hKind, rfl, rfl⟩
  · obtain ⟨after, hBefore, hAfter⟩ := Node.exists_text_replaceAt h.wellFormed hOld
    obtain ⟨hCanonical, hAt⟩ := h.descendant hOld
    refine ⟨file.textAbove found, old.text, after, hBefore, ?_, ?_⟩
    · rw [Node.text_layout, hAfter, hText]
    · rw [gap, hOld, Option.elim_some, Node.utf8ByteSize_textAbove, ← Node.size,
        ← hCanonical.laid, Node.span_layout, Node.size_layout, hAt, hStart, Nat.zero_add]
  · obtain ⟨after, hBefore, hAfter⟩ := Node.exists_text_replaceAt h.wellFormed hTarget
    obtain ⟨hCanonical, hAt⟩ := h.descendant hTarget
    have hInner := hCanonical.wellFormed.tokenText?_of_kind_ne (by simp [hKind])
    refine ⟨file.textAbove edit.target ++ same.text, "", after, ?_, ?_, ?_⟩
    · rw [hBefore, String.append_empty]
    · rw [Node.text_layout, hAfter, Node.text_eq, hInner, Option.getD_none, Node.textOfAll_append,
        Node.text_eq same, hInner, Option.getD_none, ← hText]
      simp [Node.textOfAll, String.append_assoc]
    · rw [gap, descendant?_child_length hTarget, Option.elim_none, String.utf8ByteSize_append,
        Node.utf8ByteSize_textAbove, ← Node.size, hCanonical.stop_eq, hAt, hStart]
      simp

/-- The gap of an edit lies in its target. -/
theorem gap_inside :
    target.span.start ≤ (gap file target spot).start ∧
      (gap file target spot).stop ≤ target.span.stop := by
  rcases gap_cases hNext hTarget hSpot with ⟨old, hOld, hGap⟩ | ⟨-, hGap⟩
  · obtain ⟨rest, rfl, -⟩ := exists_spot_eq_append hTarget hSpot
    rw [hGap]
    exact h.span_le_of_prefix hTarget hOld (List.prefix_append _ rest)
  · rw [hGap]
    exact ⟨(h.descendant hTarget).1.start_le_stop, Nat.le_refl _⟩

/-- What is above the spot of an edit spans the gap. -/
theorem gap_of_above {place : Path} {above : Node} (hPlace : file.descendant? place = some above)
    (hBelow : ¬ spot <+: place) (hAbove : place <+: spot) :
    above.span.start ≤ (gap file target spot).start ∧
      (gap file target spot).stop ≤ above.span.stop := by
  rcases gap_cases hNext hTarget hSpot with ⟨old, hOld, hGap⟩ | ⟨rfl, hGap⟩
  · rw [hGap]
    exact h.span_le_of_prefix hPlace hOld hAbove
  · have hPrefix := (List.prefix_concat_iff.mp hAbove).resolve_left fun hSame =>
      hBelow ⟨[], by simp [hSame, Path.child]⟩
    have hInside := h.span_le_of_prefix hPlace hTarget hPrefix
    have hTargetSpan := (h.descendant hTarget).1.start_le_stop
    rw [hGap]
    exact ⟨Nat.le_trans hInside.1 hTargetSpan, hInside.2⟩

/-- What comes after the spot of an edit starts behind the gap. -/
theorem gap_of_order {place : Path} {later : Node} (hPlace : file.descendant? place = some later)
    (hBelow : ¬ spot <+: place) (hOrder : spot.order place = .lt) :
    (gap file target spot).stop ≤ later.span.start := by
  rcases gap_cases hNext hTarget hSpot with ⟨old, hOld, hGap⟩ | ⟨rfl, hGap⟩
  · rw [hGap]
    exact h.stop_le_of_order hOld hPlace hBelow hOrder
  · have hOutside : ¬ edit.target <+: place := by
      -- There is nothing after the last child of the target.
      rintro ⟨rest, rfl⟩
      rw [Path.child, Path.order_append] at hOrder
      rw [Node.descendant?_append, hTarget, Option.bind_some] at hPlace
      cases rest with
      | nil => cases hOrder
      | cons index rest =>
          obtain ⟨child, hChild, -⟩ := Node.descendant?_cons_eq_some_iff.mp hPlace
          obtain ⟨hLess, -⟩ := List.getElem?_eq_some_iff.mp hChild
          rw [Path.order_cons_of_gt hLess] at hOrder
          cases hOrder
    rw [Path.child, Path.order_append_left hOutside] at hOrder
    rw [hGap]
    exact h.stop_le_of_order hTarget hPlace hOutside hOrder

end Gap

end Edit

/-- How a node that lies outside of what an edit replaces is found again. It keeps its kind and its
payload. What comes after the spot moves by as much as the text grows, what is above it grows, and the
rest stays: so what ends before the gap stays, and what comes after the target moves. -/
structure Node.Carried (target : Site) (spot : Path) (gap : Span) (growth : Int) (place : Path)
    (old new : Node) : Prop where
  kind : new.kind = old.kind
  payload : new.payload = old.payload
  start : (new.span.start : Int) = old.span.start + if spot.order place = .lt then growth else 0
  stop : (new.span.stop : Int) =
    old.span.stop + if spot.order place = .lt ∨ place <+: spot then growth else 0
  -- Where the gap is empty, what ends right there may be the target itself, which grows.
  before : old.span.stop ≤ gap.start → old.span.stop < gap.stop → new.span = old.span
  after : target.node.span.stop < old.span.start ∨
      target.path.order place = .lt ∧ ¬ target.path <+: place →
    (new.span.start : Int) = old.span.start + growth ∧
      (new.span.stop : Int) = old.span.stop + growth

namespace Edit

/-- Every node outside of what an edit replaces is found again. -/
theorem carried_redraft? {edit : Edit} {file next target : Node} {spot place : Path}
    (h : file.Canonical) (hNext : edit.redraft? file = some next)
    (hTarget : file.descendant? edit.target = some target) (hSpot : edit.spot? file = some spot)
    (hBelow : ¬ spot <+: place) :
    Option.Rel (Node.Carried ⟨file, edit.target, target⟩ spot (gap file target spot)
        ((next.size : Int) - file.size) place)
      (file.descendant? place) (next.descendant? place) := by
  have hRel := rel_descendant?_redraft? hNext hSpot h.wellFormed hBelow
  obtain ⟨hCanonical, hNextStart⟩ := canonical_redraft? h hNext
  generalize hOld : file.descendant? place = found, hNew : next.descendant? place = again at hRel ⊢
  cases hRel with
  | none => exact .none
  | @some old new hKept =>
      obtain ⟨hKind, hPayload, hSize⟩ := hKept
      obtain ⟨hOldCanonical, hOldStart⟩ := h.descendant hOld
      obtain ⟨hNewCanonical, hNewStart⟩ := hCanonical.descendant hNew
      have hOffset := offsetAt_redraft? hNext hSpot hBelow h.wellFormed (by rw [hOld]; rfl)
      have hOldStop := hOldCanonical.stop_eq
      have hNewStop := hNewCanonical.stop_eq
      have hMoved : (new.span.start : Int) = old.span.start +
          if spot.order place = .lt then (next.size : Int) - file.size else 0 := by
        omega
      have hEnd : (new.span.stop : Int) = old.span.stop +
          if spot.order place = .lt ∨ place <+: spot then (next.size : Int) - file.size else 0 := by
        -- Nothing is both above the spot and after it.
        by_cases hAbove : place <+: spot
        · rw [if_neg (Path.order_ne_lt_of_prefix hAbove)] at hMoved
          rw [if_pos hAbove] at hSize
          rw [if_pos (.inr hAbove)]
          omega
        · rw [if_neg hAbove] at hSize
          simp only [hAbove, or_false]
          omega
      refine .some ⟨hKind, hPayload, hMoved, hEnd, fun hGap hStop => ?_, fun hAfter => ?_⟩
      · have hOrder : spot.order place ≠ .lt := by
          intro hOrder
          have hLater := gap_of_order hNext hTarget hSpot h hOld hBelow hOrder
          omega
        have hAbove : ¬ place <+: spot := by
          intro hAbove
          have hSpans := gap_of_above hNext hTarget hSpot h hOld hBelow hAbove
          omega
        simp only [hOrder, hAbove, or_self, if_false] at hMoved hEnd
        have hStarts : new.span.start = old.span.start := by omega
        have hStops : new.span.stop = old.span.stop := by omega
        calc
          new.span = ⟨new.span.start, new.span.stop⟩ := rfl
          _ = old.span := by rw [hStarts, hStops]
      · obtain ⟨hTargetOrder, hOutside⟩ : edit.target.order place = .lt ∧ ¬ edit.target <+: place :=
          hAfter.elim (h.order_lt_of_stop_lt hTarget hOld) id
        obtain ⟨rest, rfl, -⟩ := exists_spot_eq_append hTarget hSpot
        have hOrder : (edit.target ++ rest).order place = .lt := by
          rw [Path.order_append_left hOutside, hTargetOrder]
        rw [if_pos hOrder] at hMoved
        rw [if_pos (.inl hOrder)] at hEnd
        exact ⟨hMoved, hEnd⟩

/-- What stands at the spot after an edit is what the change puts in. -/
theorem descendant?_spot_redraft? {edit : Edit} {file next : Node} {spot : Path}
    (hNext : edit.redraft? file = some next) (hSpot : edit.spot? file = some spot) :
    ∃ new, next.descendant? spot = some new ∧ new.kind = edit.change.kind ∧
      new.text = edit.change.inserted := by
  obtain ⟨target, found, hTarget, hFound, new, hKind, hText, hCases⟩ := redraft?_at_spot hNext
  obtain rfl : found = spot := Option.some.inj (hFound.symm.trans hSpot)
  have hPlaced : ∃ changed : Node, next = changed.layout file.span.start ∧
      changed.descendant? found = some new := by
    rcases hCases with ⟨old, hOld, hLaid⟩ | ⟨-, rfl, hLaid⟩
    · exact ⟨_, hLaid, Node.descendant?_replaceAt_self hOld new⟩
    · refine ⟨_, hLaid, ?_⟩
      rw [Path.child, Node.descendant?_append, Node.descendant?_replaceAt_self hTarget,
        Option.bind_some, Node.descendant?_cons, List.getElem?_concat_length]
      rfl
  obtain ⟨changed, rfl, hThere⟩ := hPlaced
  obtain ⟨laid, hLaid, hShape⟩ := Node.exists_descendant?_layout hThere file.span.start
  refine ⟨laid, hLaid, ?_, ?_⟩
  · rw [← Node.kind_shape, hShape, Node.kind_shape, hKind]
  · rw [← Node.text_shape, hShape, Node.text_shape, hText]

end Edit

theorem Node.replaceLastToken?_eq_none_iff {node : Node} (h : node.WellFormed) (text : String) :
    node.replaceLastToken? text = none ↔ node.lastTokenPath? = none := by
  rw [replaceLastToken?]
  cases hPath : node.lastTokenPath? with
  | none => simp
  | some path =>
      obtain ⟨token, hToken, hKind⟩ := exists_token_of_lastTokenPath? hPath
      obtain ⟨old, hOld⟩ := (h.descendant hToken).kind_eq_token_iff.mp hKind
      simp [hToken, tokenText?, hOld, Payload.tokenText?]

theorem Node.setDefault?_eq_none_iff (node : Node) (expression : String) :
    node.setDefault? expression = none ↔ node.kind ≠ .parameter := by
  rw [setDefault?]
  split
  · rename_i hKind
    split <;> simp [hKind]
  · rename_i hKind
    simp [hKind]

theorem Site.lastToken?_eq_none_iff {root node : Node} {path : Path}
    (hNode : root.descendant? path = some node) :
    lastToken? ⟨root, path, node⟩ = none ↔ node.lastTokenPath? = none := by
  rw [lastToken?]
  cases hPath : node.lastTokenPath? with
  | none => simp
  | some below =>
      obtain ⟨token, hToken, -⟩ := Node.exists_token_of_lastTokenPath? hPath
      simp [at?, Node.descendant?_append, hNode, hToken]

namespace Edit

/-- An edit cannot be made exactly if its change is impossible at its target. -/
theorem redraft?_eq_none_iff {edit : Edit} {file : Node} (h : file.WellFormed) :
    edit.redraft? file = none ↔ edit.change.Impossible file edit.target := by
  rw [redraft?]
  cases hTarget : file.descendant? edit.target with
  | none => exact iff_of_true rfl (.missing (by rw [Site.at?, hTarget, Option.map_none]))
  | some target =>
      have hSite : Site.at? file edit.target = some ⟨file, edit.target, target⟩ := by
        rw [Site.at?, hTarget, Option.map_some]
      simp only [Option.map_eq_none_iff]
      constructor
      · intro hNone
        cases hChange : edit.change with
        | lastToken text =>
            rw [hChange, Change.result?,
              Node.replaceLastToken?_eq_none_iff (h.descendant hTarget)] at hNone
            exact .tokenless hSite ((Site.lastToken?_eq_none_iff hTarget).mpr hNone)
        | defaultValue expression =>
            rw [hChange, Change.result?, Node.setDefault?_eq_none_iff] at hNone
            exact .misplaced hSite hNone
      · generalize edit.change = change
        rintro (hNone | ⟨hFound, hNone⟩ | ⟨hFound, hKind⟩)
        · rw [hSite] at hNone
          cases hNone
        · obtain rfl := Option.some.inj (hSite.symm.trans hFound)
          rw [Change.result?, Node.replaceLastToken?_eq_none_iff (h.descendant hTarget)]
          exact (Site.lastToken?_eq_none_iff hTarget).mp hNone
        · obtain rfl := Option.some.inj (hSite.symm.trans hFound)
          rw [Change.result?, Node.setDefault?_eq_none_iff]
          exact hKind

/-- What a rule asks for is refused exactly if it cannot be made. -/
theorem apply_eq_error_iff {edit : Edit} {scope : Path} {node : Node} :
    (∃ error, edit.apply scope node = .error (.rule error)) ↔ edit.redraft? node = none := by
  refine ⟨?_, apply_eq_error scope⟩
  rintro ⟨error, hError⟩
  cases hNext : edit.redraft? node with
  | none => rfl
  | some next =>
      obtain ⟨target, changed, hTarget, hChanged, -⟩ := redraft?_eq_some hNext
      simp only [apply, hTarget, hChanged] at hError
      split at hError
      · cases hError
      · split at hError <;> cases hError

theorem redraft?_lift_eq_none_iff {edit : Edit} {root node : Node} {scope : Path}
    (hNode : root.descendant? scope = some node) :
    (edit.lift scope).redraft? root = none ↔ edit.redraft? node = none := by
  simp only [redraft?, lift, Node.descendant?_append, hNode, Option.bind_some]
  cases node.descendant? edit.target <;> simp

end Edit

/-- A file after an edit: the text of the change has taken the place of one run of bytes, and the nodes
outside of it are found again. The token that the edit replaces is the last one of the target. -/
structure SourceTree.Spliced (tree next : SourceTree) (change : Change) (target : Site) (spot : Path)
    (gap : Span) : Prop where
  covers : change.Covers target spot gap
  last : change.kind = .token → ∀ (place : Path) (token : Node), target.path <+: place →
    tree.root.descendant? place = some token → token.kind = .token →
    place = spot ∨ place.order spot = .lt
  text : Text.Splices gap change.inserted tree.text next.text
  placed : ∃ new, next.root.descendant? spot = some new ∧ new.kind = change.kind ∧
    new.text = change.inserted
  carried : ∀ place, ¬ spot <+: place →
    Option.Rel
      (Node.Carried target spot gap ((change.inserted.utf8ByteSize : Int) - gap.length) place)
      (tree.root.descendant? place) (next.root.descendant? place)

namespace Edit

/-- An edit of a laid-out file comes to one splice of its text. -/
theorem spliced_redraft? {edit : Edit} {tree : SourceTree} (next : SourceTree) (h : tree.Canonical)
    (hNext : edit.redraft? tree.root = some next.root) :
    ∃ target spot, ∃ gap : Span, Site.at? tree.root edit.target = some target ∧
      target.node.span.start ≤ gap.start ∧ gap.stop ≤ target.node.span.stop ∧
      tree.Spliced next edit.change target spot gap := by
  obtain ⟨hCanonical, hStart⟩ := h.root
  obtain ⟨target, spot, hTarget, hSpot, -⟩ := redraft?_at_spot hNext
  have hInside := gap_inside hNext hTarget hSpot hCanonical
  have hText := splices_gap hNext hTarget hSpot hCanonical hStart
  refine ⟨⟨tree.root, edit.target, target⟩, spot, gap tree.root target spot,
    by rw [Site.at?, hTarget, Option.map_some], hInside.1, hInside.2, covers_gap hTarget hSpot, ?_,
    hText, descendant?_spot_redraft? hNext hSpot, fun place hBelow => ?_⟩
  · rintro hKind place token ⟨rest, rfl⟩ hToken hTokenKind
    rw [Node.descendant?_append, hTarget, Option.bind_some] at hToken
    obtain ⟨below, rfl, ⟨text, -, hPath⟩ | ⟨expression, hChange, -⟩⟩ :=
      exists_spot_eq_append hTarget hSpot
    · rw [Path.order_append]
      exact (Node.order_lastTokenPath? (hCanonical.descendant hTarget).1.wellFormed hPath hToken
        hTokenKind).imp_left (congrArg _)
    · rw [hChange] at hKind
      cases hKind
  · rw [← hText.size]
    exact carried_redraft? hCanonical hNext hTarget hSpot hBelow

/-- An edit lengthens the text by no more than what it inserts. -/
theorem size_redraft?_le {edit : Edit} {file next : Node} (h : file.WellFormed)
    (hNext : edit.redraft? file = some next) :
    next.size ≤ file.size + edit.change.inserted.utf8ByteSize := by
  obtain ⟨target, spot, hTarget, -, new, -, hText, hCases⟩ := redraft?_at_spot hNext
  have hNew : new.size = edit.change.inserted.utf8ByteSize := by rw [Node.size, hText]
  rcases hCases with ⟨old, hOld, rfl⟩ | ⟨hKind, -, rfl⟩
  · have hSize := Node.size_replaceAt h hOld new
    rw [Node.size_layout]
    omega
  · have hInner := (h.descendant hTarget).tokenText?_of_kind_ne (by simp [hKind])
    have hSize := Node.size_replaceAt h hTarget { target with children := target.children ++ [new] }
    have hParts : ({ target with children := target.children ++ [new] } : Node).size =
        target.size + new.size := by
      rw [Node.size_of_inner hInner, Node.size_of_inner (by exact hInner), Node.sizeOfAll_append,
        Node.sizeOfAll_cons, Node.sizeOfAll_nil, Nat.add_zero]
    rw [Node.size_layout]
    omega

/-- The length of all that edits insert. -/
def insertedSize : List Edit → Nat
  | [] => 0
  | edit :: edits => edit.change.inserted.utf8ByteSize + insertedSize edits

theorem insertedSize_map_lift (scope : Path) (edits : List Edit) :
    insertedSize (edits.map (lift scope)) = insertedSize edits := by
  induction edits with
  | nil => rfl
  | cons edit edits ih => rw [List.map_cons, insertedSize, insertedSize, ih, lift]

/-- Edits lengthen the text by no more than what they insert, at every stage. -/
theorem size_of_mem_drafts {edits : List Edit} {node draft : Node} (h : node.Canonical)
    (hDraft : draft ∈ drafts node edits) : draft.size ≤ node.size + insertedSize edits := by
  induction edits generalizing node with
  | nil => cases hDraft
  | cons edit edits ih =>
      rw [drafts] at hDraft
      split at hDraft
      · cases hDraft
      · rename_i next hNext
        have hFirst := size_redraft?_le h.wellFormed hNext
        rw [insertedSize]
        rcases List.mem_cons.mp hDraft with rfl | hDraft
        · omega
        · have hLater := ih (canonical_redraft? h hNext).1 hDraft
          omega

/-- Edits of a node that can be made are made and take their place in the file, as long as the text
stays within bounds with all that they insert. -/
theorem applyAll_replaceSubtree {edits : List Edit} {tree : SourceTree} {scope : Path}
    {node last : Node} (h : tree.Canonical) (hNode : tree.root.descendant? scope = some node)
    (hLast : redraftAll? node edits = some last)
    (hFits : tree.text.utf8ByteSize + insertedSize edits < distanceBound) :
    applyAll scope node edits = .ok (last, shifts node edits) ∧
      tree.replaceSubtree scope last = .ok ⟨(tree.root.replaceAt scope last).layout 0⟩ := by
  obtain ⟨hRoot, hZero⟩ := h.root
  obtain ⟨hCanonical, hStart⟩ := hRoot.descendant hNode
  obtain ⟨hLastCanonical, hLastStart⟩ := canonical_redraftAll? hCanonical hLast
  have hFile : tree.root.size = tree.text.utf8ByteSize := rfl
  have hInside := Node.offsetAt_add_size_le h.wellFormed hNode
  have hStop := hCanonical.stop_eq
  have hDrafts : ∀ draft ∈ drafts node edits, draft.span.stop < distanceBound := by
    intro draft hDraft
    obtain ⟨hDraftCanonical, hDraftStart⟩ := canonical_of_mem_drafts hCanonical hDraft
    have hDraftStop := hDraftCanonical.stop_eq
    have hSize := size_of_mem_drafts hCanonical hDraft
    omega
  have hLastSize : last.size ≤ node.size + insertedSize edits := by
    cases edits with
    | nil =>
        cases hLast
        exact Nat.le_add_right _ _
    | cons edit edits =>
        exact size_of_mem_drafts hCanonical (mem_drafts_of_redraftAll? (by simp) hLast)
  have hLaid : last.layout (tree.root.offsetAt scope) = last := by
    rw [← Nat.zero_add (tree.root.offsetAt scope), ← hZero, ← hStart, ← hLastStart,
      hLastCanonical.laid]
  have hSize := Node.size_replaceAt h.wellFormed hNode last
  exact ⟨applyAll_eq_ok scope hCanonical hLast (by omega) hDrafts,
    SourceTree.replaceSubtree_eq_ok h.wellFormed h.laid hNode hLastCanonical.wellFormed hLaid
      (by omega) (by omega)⟩

theorem exists_apply_of_applyAll {edit : Edit} {scope : Path} {node copy : Node}
    {moves : List Shift} (hAll : applyAll scope node [edit] = .ok (copy, moves)) :
    ∃ shift, edit.apply scope node = .ok (copy, shift) := by
  rw [applyAll] at hAll
  split at hAll
  · cases hAll
  · rename_i next shift hApply
    cases hAll
    exact ⟨shift, hApply⟩

/-- Every edit that a rule may ask for, being called for a node of a laid-out file, is refused exactly
if there is no such target, no token in it, or no parameter there. Otherwise, as long as the text
stays within bounds, it is made. What it comes to is one splice of the text within that node, with all
other nodes found again before, around or behind it. -/
theorem apply_splices {tree : SourceTree} {scope target : Path} {node : Node} {change : Change}
    {edit : Edit} (hTree : tree.Canonical) (hNode : tree.root.descendant? scope = some node)
    (hEdit : Edit.within scope target change = .ok edit) :
    (∀ copy shift next, edit.apply scope node = .ok (copy, shift) →
      tree.replaceSubtree scope copy = .ok next →
      ∃ site spot, ∃ gap : Span, Site.at? tree.root target = some site ∧
        node.span.start ≤ gap.start ∧ gap.stop ≤ node.span.stop ∧
        tree.Spliced next change site spot gap) ∧
    ((∃ error, edit.apply scope node = .error (.rule error)) ↔
      change.Impossible tree.root target) ∧
    (tree.text.utf8ByteSize + change.inserted.utf8ByteSize < distanceBound →
      ((∃ copy shift next, edit.apply scope node = .ok (copy, shift) ∧
        tree.replaceSubtree scope copy = .ok next) ↔ ¬ change.Impossible tree.root target)) := by
  have hTarget : edit.lift scope = ⟨target, change⟩ := by
    rw [within] at hEdit
    split at hEdit
    · rename_i below hBelow
      cases hEdit
      rw [lift, ← Path.relativeTo?_eq_some_iff.mp hBelow]
    · cases hEdit
  obtain ⟨hCanonical, hStart⟩ := hTree.root
  obtain ⟨hNodeCanonical, hNodeStart⟩ := hCanonical.descendant hNode
  have hRefused : edit.redraft? node = none ↔ change.Impossible tree.root target := by
    rw [← redraft?_lift_eq_none_iff hNode, hTarget, redraft?_eq_none_iff hTree.wellFormed]
  -- The edit of the node, seen from the root.
  have hWhole {copy : Node} (hCopy : edit.redraft? node = some copy) :
      (⟨target, change⟩ : Edit).redraft? tree.root =
        some ((tree.root.replaceAt scope copy).layout 0) := by
    rw [← hTarget, redraft?_lift hTree.wellFormed hTree.laid hNode hCopy]
  refine ⟨fun copy shift next hApply hNext => ?_, ?_, fun hFits => ?_⟩
  · have hCopy := redraft?_of_apply hNodeCanonical hApply
    have hRoot := SourceTree.root_of_replaceSubtree hTree.wellFormed hTree.laid hNode
      (canonical_redraft? hNodeCanonical hCopy).1 hNext
    obtain ⟨site, spot, gap, hSite, hFirst, hLast, hSpliced⟩ :=
      spliced_redraft? next hTree (by rw [hRoot, hWhole hCopy])
    obtain ⟨found, hFound, rfl⟩ := Option.map_eq_some_iff.mp hSite
    have hInside := hCanonical.span_le_of_prefix hNode hFound
      ⟨edit.target, congrArg Edit.target hTarget⟩
    exact ⟨_, spot, gap, hSite, Nat.le_trans hInside.1 hFirst, Nat.le_trans hLast hInside.2,
      hSpliced⟩
  · rw [apply_eq_error_iff, hRefused]
  · rw [← hRefused, ← ne_eq, Option.ne_none_iff_exists']
    constructor
    · rintro ⟨copy, shift, next, hApply, -⟩
      exact ⟨copy, redraft?_of_apply hNodeCanonical hApply⟩
    · rintro ⟨copy, hCopy⟩
      have hChange : edit.change = change := congrArg Edit.change hTarget
      have hOne : redraftAll? node [edit] = some copy := by
        rw [redraftAll?, hCopy]
        rfl
      obtain ⟨hAll, hSwap⟩ := applyAll_replaceSubtree hTree hNode hOne
        (by simpa [insertedSize, hChange] using hFits)
      obtain ⟨shift, hApply⟩ := exists_apply_of_applyAll hAll
      exact ⟨copy, shift, _, hApply, hSwap⟩

/-- Cutting the second parameter short replaces its token, and the first parameter gets its default
value at its end. The function itself cannot get one. -/
theorem apply_splices_reshaping :
    ∃ tree node shorten complete misplace, SourceTree.ofEvents Reshaping.events = .ok tree ∧
      tree.root.descendant? [0] = some node ∧
      Edit.within [0] [0, 1, 3] (.lastToken "b") = .ok shorten ∧
      Edit.within [0] [0, 1, 1] (.defaultValue "A()") = .ok complete ∧
      Edit.within [0] [0] (.defaultValue "A()") = .ok misplace ∧
      (∃ copy shift next, shorten.apply [0] node = .ok (copy, shift) ∧
        tree.replaceSubtree [0] copy = .ok next ∧ Text.Splices ⟨12, 16⟩ "b" tree.text next.text) ∧
      (∃ copy shift next, complete.apply [0] node = .ok (copy, shift) ∧
        tree.replaceSubtree [0] copy = .ok next ∧
        Text.Splices ⟨10, 10⟩ " = A()" tree.text next.text) ∧
      ∃ error, misplace.apply [0] node = .error (.rule error) := by
  have hTree : SourceTree.ofEvents Reshaping.events = .ok _ := rfl
  obtain ⟨hCanonical, -⟩ := SourceTree.canonical_of_ofEvents hTree
  have hShorten : Edit.within [0] [0, 1, 3] (.lastToken "b") = .ok _ := rfl
  have hComplete : Edit.within [0] [0, 1, 1] (.defaultValue "A()") = .ok _ := rfl
  have hMisplace : Edit.within [0] [0] (.defaultValue "A()") = .ok _ := rfl
  refine ⟨_, _, _, _, _, hTree, rfl, hShorten, hComplete, hMisplace, ?_, ?_, ?_⟩
  · obtain ⟨hSplices, -, hMakes⟩ := apply_splices hCanonical rfl hShorten
    have hMade := (hMakes (by decide +kernel)).mpr fun hImpossible => by
      cases hImpossible with
      | missing hNone => cases hNone
      | tokenless hSite hNone =>
          cases hSite
          cases hNone
    obtain ⟨copy, shift, next, hApply, hNext⟩ := hMade
    obtain ⟨site, spot, gap, hSite, -, -, hSpliced⟩ := hSplices copy shift next hApply hNext
    refine ⟨copy, shift, next, hApply, hNext, ?_⟩
    cases hSite
    cases hSpliced.covers with
    | token hToken =>
        cases hToken
        exact hSpliced.text
  · obtain ⟨hSplices, -, hMakes⟩ := apply_splices hCanonical rfl hComplete
    have hMade := (hMakes (by decide +kernel)).mpr fun hImpossible => by
      cases hImpossible with
      | missing hNone => cases hNone
      | misplaced hSite hKind =>
          cases hSite
          exact hKind rfl
    obtain ⟨copy, shift, next, hApply, hNext⟩ := hMade
    obtain ⟨site, spot, gap, hSite, -, -, hSpliced⟩ := hSplices copy shift next hApply hNext
    refine ⟨copy, shift, next, hApply, hNext, ?_⟩
    cases hSite
    cases hSpliced.covers with
    | value hValue => cases hValue
    | nothing hNone => exact hSpliced.text
  · obtain ⟨-, hRefuses, -⟩ := apply_splices hCanonical rfl hMisplace
    exact hRefuses.mpr (.misplaced rfl (by decide))

end Edit

end UiLint
