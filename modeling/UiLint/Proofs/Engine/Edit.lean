import UiLint.Engine.Edit
import UiLint.Proofs.Tree.Splice

/-! What edits amount to. An edit moves spans around the place that it changes; on a laid-out
node this is the same as making the change and laying the whole node out again. -/
namespace UiLint

namespace Node

theorem wellFormed_defaultValue (expression : String) : (defaultValue expression).WellFormed := by
  refine .intro rfl (by simp [defaultValue]) (fun child hChild => ?_)
  simp only [defaultValue, List.mem_cons, List.not_mem_nil, or_false] at hChild
  rcases hChild with rfl | rfl | rfl | rfl <;> exact wellFormed_leaf _

theorem lastTokenPath?_eq (node : Node) :
    node.lastTokenPath? =
      if node.kind = .token then some [] else lastTokenPathOfAll? 0 node.children := by
  cases node
  rw [lastTokenPath?]

theorem lastTokenPathOfAll?_eq_none {nodes : List Node} {index : Nat}
    (hNone : lastTokenPathOfAll? index nodes = none) :
    ∀ node ∈ nodes, node.lastTokenPath? = none := by
  induction nodes generalizing index with
  | nil => simp
  | cons node nodes ih =>
      rw [lastTokenPathOfAll?] at hNone
      split at hNone
      · cases hNone
      · rename_i hLater
        rw [List.forall_mem_cons]
        exact ⟨by simpa using hNone, ih hLater⟩

/-- The last token of several nodes is the last token of one of them, and those after that one
have none. -/
theorem exists_of_lastTokenPathOfAll? {nodes : List Node} {index : Nat} {path : Path}
    (hPath : lastTokenPathOfAll? index nodes = some path) :
    ∃ place child rest, path = (index + place) :: rest ∧ nodes[place]? = some child ∧
      child.lastTokenPath? = some rest ∧
      ∀ later ∈ nodes.drop (place + 1), later.lastTokenPath? = none := by
  induction nodes generalizing index with
  | nil => cases hPath
  | cons node nodes ih =>
      rw [lastTokenPathOfAll?] at hPath
      split at hPath
      · rename_i found hLater
        cases hPath
        obtain ⟨place, child, rest, rfl, hChild, hRest, hNone⟩ := ih hLater
        refine ⟨place + 1, child, rest, ?_, by simpa using hChild, hRest, by simpa using hNone⟩
        rw [show index + 1 + place = index + (place + 1) by omega]
      · rename_i hLater
        obtain ⟨rest, hRest, rfl⟩ := Option.map_eq_some_iff.mp hPath
        exact ⟨0, node, rest, rfl, rfl, hRest, by simpa using lastTokenPathOfAll?_eq_none hLater⟩

/-- The way down to the last token ends at a token. -/
theorem exists_token_of_lastTokenPath? {node : Node} {path : Path}
    (hPath : node.lastTokenPath? = some path) :
    ∃ token, node.descendant? path = some token ∧ token.kind = .token := by
  induction node using inductionOn generalizing path with
  | step kind span payload children ih =>
      rw [lastTokenPath?_eq] at hPath
      split at hPath
      · rename_i hKind
        cases hPath
        exact ⟨_, rfl, hKind⟩
      · obtain ⟨place, child, rest, rfl, hChild, hRest, -⟩ := exists_of_lastTokenPathOfAll? hPath
        obtain ⟨token, hToken, hKind⟩ := ih child (List.mem_of_getElem? hChild) hRest
        refine ⟨token, ?_, hKind⟩
        rw [Nat.zero_add, descendant?_cons, hChild]
        exact hToken

theorem sizeOfAll_eq_zero {nodes : List Node} (hZero : ∀ node ∈ nodes, node.size = 0) :
    sizeOfAll nodes = 0 := by
  induction nodes with
  | nil => rfl
  | cons node nodes ih =>
      rw [List.forall_mem_cons] at hZero
      rw [sizeOfAll_cons, hZero.1, ih hZero.2]

/-- A node without tokens has no text. -/
theorem size_eq_zero_of_lastTokenPath? {node : Node} (h : node.WellFormed)
    (hNone : node.lastTokenPath? = none) : node.size = 0 := by
  induction h with
  | @intro node fits leaf parts ih =>
      rw [lastTokenPath?_eq] at hNone
      split at hNone
      · cases hNone
      · rename_i hInner
        have hText : node.payload.tokenText? = none := by
          rw [(WellFormed.intro fits leaf parts).kind_eq_token_iff] at hInner
          cases hPayload : node.payload <;> simp_all [Payload.tokenText?]
        rw [size_of_inner hText]
        have hParts := lastTokenPathOfAll?_eq_none hNone
        exact sizeOfAll_eq_zero fun child hChild => ih child hChild (hParts child hChild)

/-- A node ends where its last token ends. -/
theorem offsetAt_lastTokenPath? {node token : Node} {path : Path} (h : node.WellFormed)
    (hPath : node.lastTokenPath? = some path) (hToken : node.descendant? path = some token) :
    node.offsetAt path + token.size = node.size := by
  induction h generalizing path with
  | @intro node fits leaf parts ih =>
      rw [lastTokenPath?_eq] at hPath
      split at hPath
      · cases hPath
        cases hToken
        rw [offsetAt, Nat.zero_add]
      · obtain ⟨place, child, rest, rfl, hChild, hRest, hLater⟩ := exists_of_lastTokenPathOfAll? hPath
        have hMember := List.mem_of_getElem? hChild
        have hText := (WellFormed.intro fits leaf parts).tokenText?_eq_none hMember
        have hZero : sizeOfAll (node.children.drop (place + 1)) = 0 := by
          refine sizeOfAll_eq_zero fun later hMore => ?_
          exact size_eq_zero_of_lastTokenPath? (parts later (List.mem_of_mem_drop hMore))
            (hLater later hMore)
        rw [Nat.zero_add, descendant?_cons, hChild] at hToken
        have hStep := ih child hMember hRest hToken
        rw [Nat.zero_add, offsetAt_cons _ hChild, size_of_inner hText, sizeOfAll_eq_around hChild]
        omega

theorem WellFormed.replaceLastToken? {node changed : Node} {text : String} (h : node.WellFormed)
    (hChanged : node.replaceLastToken? text = some changed) : changed.WellFormed := by
  unfold Node.replaceLastToken? at hChanged
  split at hChanged
  · cases hChanged
  · rename_i path hPath
    obtain ⟨token, hToken, hKind⟩ := exists_token_of_lastTokenPath? hPath
    rw [hToken] at hChanged
    simp only [Option.ite_none_right_eq_some, Option.some.injEq] at hChanged
    have hLeaf := h.descendant hToken
    rw [← hChanged.2]
    apply h.replaceAt
    exact .intro (by simp [hKind, Payload.fits]) hLeaf.leaf hLeaf.parts

theorem WellFormed.setDefault? {node changed : Node} {expression : String} (h : node.WellFormed)
    (hChanged : node.setDefault? expression = some changed) : changed.WellFormed := by
  unfold Node.setDefault? at hChanged
  split at hChanged
  · rename_i hKind
    have hInner : node.kind ≠ .token := by simp [hKind]
    have hParts : ∀ child, child = defaultValue expression ∨ child ∈ node.children →
        child.WellFormed := by
      rintro child (rfl | hChild)
      · exact wellFormed_defaultValue expression
      · exact h.parts child hChild
    split at hChanged
    · cases hChanged
      refine .intro h.fits (fun hToken => absurd hToken hInner) (fun child hChild => hParts child ?_)
      exact (List.mem_or_eq_of_mem_set hChild).symm
    · cases hChanged
      refine .intro h.fits (fun hToken => absurd hToken hInner) (fun child hChild => hParts child ?_)
      simpa [or_comm] using hChild
  · cases hChanged

end Node

/-- A change keeps nodes well-formed. -/
theorem Change.wellFormed_result? {change : Change} {node changed : Node} (h : node.WellFormed)
    (hChanged : change.result? node = some changed) : changed.WellFormed := by
  cases change with
  | lastToken text => exact h.replaceLastToken? hChanged
  | defaultValue expression => exact h.setDefault? hChanged

namespace Edit

/-- The node after an edit, laid out from where it starts. There are no offsets to keep up
here, so this fails only when the target is not there or cannot take the change. -/
def redraft? (edit : Edit) (node : Node) : Option Node :=
  match node.descendant? edit.target with
  | none => none
  | some target =>
      (edit.change.result? target).map fun changed =>
        (node.replaceAt edit.target changed).layout node.span.start

/-- The node after several edits. -/
def redraftAll? (node : Node) : List Edit → Option Node
  | [] => some node
  | edit :: edits => (edit.redraft? node).bind (redraftAll? · edits)

/-- The nodes that edits lead through, up to the first edit that fails. -/
def drafts (node : Node) : List Edit → List Node
  | [] => []
  | edit :: edits =>
      match edit.redraft? node with
      | none => []
      | some next => next :: drafts next edits

/-- What each of several edits moves: all from the end of its target on, by as much as the
node grows. -/
def shifts (node : Node) : List Edit → List Shift
  | [] => []
  | edit :: edits =>
      match node.descendant? edit.target, edit.redraft? node with
      | some target, some next =>
          ⟨target.span.stop, (next.size : Int) - node.size⟩ :: shifts next edits
      | _, _ => []

theorem redraft?_eq_some {edit : Edit} {node next : Node} (hNext : edit.redraft? node = some next) :
    ∃ target changed, node.descendant? edit.target = some target ∧
      edit.change.result? target = some changed ∧
      next = (node.replaceAt edit.target changed).layout node.span.start := by
  unfold redraft? at hNext
  split at hNext
  · cases hNext
  · rename_i target hTarget
    obtain ⟨changed, hChanged, rfl⟩ := Option.map_eq_some_iff.mp hNext
    exact ⟨target, changed, hTarget, hChanged, rfl⟩

/-- An edit leaves a canonical node with the same start. -/
theorem canonical_redraft? {edit : Edit} {node next : Node} (h : node.Canonical)
    (hNext : edit.redraft? node = some next) :
    next.Canonical ∧ next.span.start = node.span.start := by
  obtain ⟨target, changed, hTarget, hChanged, rfl⟩ := redraft?_eq_some hNext
  have hWell := Change.wellFormed_result? (h.wellFormed.descendant hTarget) hChanged
  exact ⟨(h.wellFormed.replaceAt hWell edit.target).canonical_layout _, by simp⟩

theorem canonical_redraftAll? {edits : List Edit} {node next : Node} (h : node.Canonical)
    (hNext : redraftAll? node edits = some next) :
    next.Canonical ∧ next.span.start = node.span.start := by
  induction edits generalizing node with
  | nil =>
      cases hNext
      exact ⟨h, rfl⟩
  | cons edit edits ih =>
      obtain ⟨draft, hDraft, hRest⟩ := Option.bind_eq_some_iff.mp hNext
      obtain ⟨hCanonical, hStart⟩ := canonical_redraft? h hDraft
      obtain ⟨hLast, hLastStart⟩ := ih hCanonical hRest
      exact ⟨hLast, hLastStart.trans hStart⟩

theorem canonical_of_mem_drafts {edits : List Edit} {node draft : Node} (h : node.Canonical)
    (hDraft : draft ∈ drafts node edits) :
    draft.Canonical ∧ draft.span.start = node.span.start := by
  induction edits generalizing node with
  | nil => cases hDraft
  | cons edit edits ih =>
      rw [drafts] at hDraft
      split at hDraft
      · cases hDraft
      · rename_i next hNext
        obtain ⟨hCanonical, hStart⟩ := canonical_redraft? h hNext
        rcases List.mem_cons.mp hDraft with rfl | hDraft
        · exact ⟨hCanonical, hStart⟩
        · obtain ⟨hLater, hLaterStart⟩ := ih hCanonical hDraft
          exact ⟨hLater, hLaterStart.trans hStart⟩

/-- The last of the drafts is what the edits come to. -/
theorem mem_drafts_of_redraftAll? {edits : List Edit} {node next : Node} (hSome : edits ≠ [])
    (hNext : redraftAll? node edits = some next) : next ∈ drafts node edits := by
  induction edits generalizing node with
  | nil => exact absurd rfl hSome
  | cons edit edits ih =>
      obtain ⟨draft, hDraft, hRest⟩ := Option.bind_eq_some_iff.mp hNext
      rw [drafts, hDraft, List.mem_cons]
      cases edits with
      | nil =>
          cases hRest
          exact .inl rfl
      | cons second edits => exact .inr (ih (by simp) hRest)

/-- On a canonical node an edit that can be made is made, as long as the node ends within
bounds before and after. -/
theorem apply_eq_ok {edit : Edit} {node next target : Node} (scope : Path) (h : node.Canonical)
    (hNext : edit.redraft? node = some next) (hTarget : node.descendant? edit.target = some target)
    (hBefore : node.span.stop < distanceBound) (hAfter : next.span.stop < distanceBound) :
    edit.apply scope node = .ok (next, ⟨target.span.stop, (next.size : Int) - node.size⟩) := by
  obtain ⟨found, changed, hFound, hChanged, rfl⟩ := redraft?_eq_some hNext
  obtain rfl : found = target := Option.some.inj (hFound.symm.trans hTarget)
  obtain ⟨hCanonical, hStart⟩ := h.descendant hTarget
  have hSize := Node.size_replaceAt h.wellFormed hTarget changed
  have hLaid := Node.layout_replaceAt_layout h.wellFormed hTarget changed found.span.start
  have hLaidSize : (node.replaceAt edit.target (changed.layout found.span.start)).size =
      (node.replaceAt edit.target changed).size := by
    rw [← Node.size_layout 0, hLaid, Node.size_layout]
  have hStop := hCanonical.stop_eq
  have hInside := Node.offsetAt_add_size_le h.wellFormed hTarget
  have hNodeStop := h.stop_eq
  rw [Node.stop_layout] at hAfter
  have hDistance : endDistance found.span.stop (changed.layout found.span.start).span.stop =
      .ok ((changed.size : Int) - found.size) := by
    rw [Node.stop_layout, endDistance_eq_ok (by omega) (by omega)]
    congr 1
    omega
  have hNew : (changed.layout found.span.start).layout
      (node.span.start + node.offsetAt edit.target) = changed.layout found.span.start := by
    rw [← hStart, Node.layout_layout]
  have hBound : distanceBound < offsetBound := by decide
  have hShift := Node.shiftAfter_replaceAt h.wellFormed h.laid hTarget hNew (by omega)
  rw [Node.size_layout, hLaid] at hShift
  simp only [apply, hTarget, hChanged, hDistance, hShift, Node.size_layout]
  congr 3
  omega

/-- An edit that has been made leaves its node laid out, with the change in it. -/
theorem redraft?_of_apply {edit : Edit} {scope : Path} {node next : Node} {shift : Shift}
    (h : node.Canonical) (hNext : edit.apply scope node = .ok (next, shift)) :
    edit.redraft? node = some next := by
  rw [apply] at hNext
  split at hNext
  · cases hNext
  · rename_i target hTarget
    split at hNext
    · cases hNext
    · rename_i changed hChanged
      obtain ⟨hCanonical, hStart⟩ := h.descendant hTarget
      have hStop := hCanonical.stop_eq
      simp only at hNext
      split at hNext
      · cases hNext
      · rename_i distance hDistance
        have hGrowth : distance =
            ((changed.layout target.span.start).size : Int) - target.size := by
          rw [eq_of_endDistance hDistance, Node.stop_layout, Node.size_layout]
          omega
        split at hNext
        · cases hNext
        · rename_i moved hMoved
          cases hNext
          rw [hGrowth] at hMoved
          have hLaid := Node.eq_layout_of_shiftAfter h.wellFormed h.laid hTarget
            (by rw [← hStart, Node.layout_layout]) hMoved
          rw [Node.layout_replaceAt_layout h.wellFormed hTarget] at hLaid
          simp only [redraft?, hTarget, hChanged, Option.map_some, hLaid]

/-- An edit that cannot be made is refused. -/
theorem apply_eq_error {edit : Edit} {node : Node} (scope : Path)
    (hNone : edit.redraft? node = none) : ∃ error, edit.apply scope node = .error (.rule error) := by
  unfold redraft? at hNone
  unfold apply
  cases hTarget : node.descendant? edit.target with
  | none => exact ⟨_, rfl⟩
  | some target =>
      simp only [hTarget, Option.map_eq_none_iff] at hNone
      simp only [hNone]
      exact ⟨_, rfl⟩

/-- Edits of a canonical node that can all be made are made, as long as the node ends within
bounds at every stage. -/
theorem applyAll_eq_ok {edits : List Edit} {node next : Node} (scope : Path) (h : node.Canonical)
    (hNext : redraftAll? node edits = some next) (hBefore : node.span.stop < distanceBound)
    (hBound : ∀ draft ∈ drafts node edits, draft.span.stop < distanceBound) :
    applyAll scope node edits = .ok (next, shifts node edits) := by
  induction edits generalizing node with
  | nil =>
      cases hNext
      rfl
  | cons edit edits ih =>
      obtain ⟨draft, hDraft, hRest⟩ := Option.bind_eq_some_iff.mp hNext
      obtain ⟨target, changed, hTarget, -, -⟩ := redraft?_eq_some hDraft
      simp only [drafts, hDraft, List.forall_mem_cons] at hBound
      obtain ⟨hFirst, hLater⟩ := hBound
      have hApply := apply_eq_ok scope h hDraft hTarget hBefore hFirst
      have hAll := ih (canonical_redraft? h hDraft).1 hRest hFirst hLater
      simp only [applyAll, shifts, hApply, hAll, hTarget, hDraft]

/-- Edits of a canonical node of which one cannot be made are refused as a whole. -/
theorem applyAll_eq_error {edits : List Edit} {node : Node} (scope : Path) (h : node.Canonical)
    (hNone : redraftAll? node edits = none) (hBefore : node.span.stop < distanceBound)
    (hBound : ∀ draft ∈ drafts node edits, draft.span.stop < distanceBound) :
    ∃ error, applyAll scope node edits = .error (.rule error) := by
  induction edits generalizing node with
  | nil => cases hNone
  | cons edit edits ih =>
      cases hDraft : edit.redraft? node with
      | none =>
          obtain ⟨error, hError⟩ := apply_eq_error scope hDraft
          exact ⟨error, by simp only [applyAll, hError]⟩
      | some draft =>
          obtain ⟨target, changed, hTarget, -, -⟩ := redraft?_eq_some hDraft
          rw [redraftAll?, hDraft] at hNone
          simp only [drafts, hDraft, List.forall_mem_cons] at hBound
          obtain ⟨hFirst, hLater⟩ := hBound
          have hApply := apply_eq_ok scope h hDraft hTarget hBefore hFirst
          obtain ⟨error, hError⟩ := ih (canonical_redraft? h hDraft).1 hNone hFirst hLater
          exact ⟨error, by simp only [applyAll, hApply, hError]⟩

end Edit

end UiLint
