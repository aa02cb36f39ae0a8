import UiLint.Proofs.Engine.History

/-! How far edits take findings away from nodes. An edit moves the nodes behind the text that it
changes; it moves the findings behind its target. Where the two disagree a finding drifts away
from its node, and nowhere else. -/
namespace UiLint

/-- The kind of the node that the change puts in. -/
def Change.kind : Change → Kind
  | lastToken _ => .token
  | defaultValue _ => .defaultValue

/-- The text that the change puts in. -/
def Change.inserted : Change → String
  | lastToken text => text
  | defaultValue expression => " = " ++ expression

theorem Node.text_defaultValue (expression : String) :
    (Node.defaultValue expression).text = " = " ++ expression := by
  simp [Node.text_eq, Node.defaultValue, Node.textOfAll, Node.leaf, Node.bare, Payload.tokenText?,
    ← String.append_assoc]

namespace Edit

/-- Where the edit changes the text of a file: the path of the token that it replaces, of the
default value that it replaces, or of the one that it adds. -/
def spot? (edit : Edit) (file : Node) : Option Path :=
  match file.descendant? edit.target with
  | none => none
  | some target =>
      match edit.change with
      | .lastToken _ => target.lastTokenPath?.map (edit.target ++ ·)
      | .defaultValue _ =>
          some (edit.target.child
            ((target.children.findIdx? (·.kind == .defaultValue)).getD target.children.length))

/-- Whether the edit leaves the node at a path: the node does not lie in a token or default value
that the edit replaces. -/
def spares (edit : Edit) (file : Node) (place : Path) : Bool :=
  (edit.spot? file).all fun spot => !spot.isPrefixOf place

/-- Whether the edit moves the node at a path and the findings at its start differently: the
length changes, and the node comes behind the changed text but starts before the end of the
target, or the other way round. -/
def strays (edit : Edit) (file : Node) (place : Path) : Bool :=
  match file.descendant? edit.target, edit.spot? file, edit.redraft? file with
  | some target, some spot, some next =>
      next.size != file.size &&
        (spot.order place == .lt) != decide (target.span.stop ≤ file.offsetAt place)
  | _, _, _ => false

/-- How far the edit takes a finding away from the node at a path: how far the finding moves,
less how far the node does. -/
def drift (edit : Edit) (file : Node) (place : Path) (offset : Nat) : Int :=
  match file.descendant? edit.target, edit.spot? file, edit.redraft? file with
  | some target, some spot, some next =>
      let growth := (next.size : Int) - file.size
      (Shift.carry ⟨target.span.stop, growth⟩ offset : Int) - offset -
        if spot.order place = .lt then growth else 0
  | _, _, _ => 0

/-- How far several edits take a finding away from the node at a path, one after the other. -/
def driftAll (file : Node) (place : Path) (offset : Nat) : List Edit → Int
  | [] => 0
  | edit :: edits =>
      match file.descendant? edit.target, edit.redraft? file with
      | some target, some next =>
          edit.drift file place offset +
            driftAll next place
              (Shift.carry ⟨target.span.stop, (next.size : Int) - file.size⟩ offset) edits
      | _, _ => 0

/-- The edits, each with the file that it is made in. -/
def history (file : Node) : List Edit → List (Node × Edit)
  | [] => []
  | edit :: edits =>
      (file, edit) :: match edit.redraft? file with
        | some next => history next edits
        | none => []

/-- Replacing a node moves what comes behind it by as much as the file grows. -/
theorem offsetAt_replaceAt {file old : Node} (h : file.WellFormed) {spot place : Path}
    (hOld : file.descendant? spot = some old) (new : Node) (hOutside : ¬ spot <+: place) :
    ((file.replaceAt spot new).offsetAt place : Int) = file.offsetAt place +
      if spot.order place = .lt then ((file.replaceAt spot new).size : Int) - file.size else 0 := by
  have hOffset := Node.offsetAt_replaceAt h hOld new hOutside
  have hSize := Node.size_replaceAt h hOld new
  split
  · rename_i hOrder
    rw [if_pos hOrder, if_pos hOrder] at hOffset
    omega
  · rename_i hOrder
    rw [if_neg hOrder, if_neg hOrder] at hOffset
    omega

/-- Appending a child moves what comes behind the node that gets it. -/
theorem offsetAt_append {file target : Node} (h : file.WellFormed) {path place : Path}
    (hTarget : file.descendant? path = some target) (new : Node)
    (hPlace : (file.descendant? place).isSome = true) :
    ((file.replaceAt path { target with children := target.children ++ [new] }).offsetAt place : Int) =
      file.offsetAt place + if (path.child target.children.length).order place = .lt then
        ((file.replaceAt path { target with children := target.children ++ [new] }).size : Int) -
          file.size else 0 := by
  by_cases hInside : path <+: place
  · obtain ⟨rest, rfl⟩ := hInside
    rw [Node.offsetAt_append (Node.descendant?_replaceAt_self hTarget _),
      Node.offsetAt_append hTarget, Node.offsetAt_replaceAt_self hTarget, Path.child,
      Path.order_append]
    cases rest with
    | nil => simp [Node.offsetAt, Path.order]
    | cons index rest =>
        rw [Node.descendant?_append, hTarget, Option.bind_some, Node.descendant?_cons] at hPlace
        have hIndex : index < target.children.length := by
          refine Nat.lt_of_not_le fun hBeyond => ?_
          rw [List.getElem?_eq_none hBeyond] at hPlace
          cases hPlace
        rw [Path.order_cons_of_gt hIndex]
        simp only [Node.offsetAt, List.take_append_of_le_length (Nat.le_of_lt hIndex),
          List.getElem?_append_left hIndex, reduceCtorEq, if_false]
        rw [Int.add_zero]
  · have hOrder : (path.child target.children.length).order place = path.order place :=
      Path.order_append_left hInside _
    rw [hOrder]
    exact offsetAt_replaceAt h hTarget _ hInside

/-- Appending a child leaves every node in its place, except for the one that gets the child. -/
theorem descendant?_append {file target below : Node} {path place : Path}
    (hTarget : file.descendant? path = some target) (hBelow : file.descendant? place = some below)
    (new : Node) :
    ∃ after, (file.replaceAt path { target with children := target.children ++ [new] }).descendant?
      place = some after ∧ after.kind = below.kind ∧ after.payload = below.payload := by
  by_cases hInside : path <+: place
  · obtain ⟨rest, rfl⟩ := hInside
    rw [Node.descendant?_append, hTarget, Option.bind_some] at hBelow
    rw [Node.descendant?_append, Node.descendant?_replaceAt_self hTarget, Option.bind_some]
    cases rest with
    | nil =>
        cases hBelow
        exact ⟨_, rfl, rfl, rfl⟩
    | cons index rest =>
        rw [Node.descendant?_cons] at hBelow ⊢
        obtain ⟨child, hChild, hRest⟩ := Option.bind_eq_some_iff.mp hBelow
        obtain ⟨hIndex, -⟩ := List.getElem?_eq_some_iff.mp hChild
        rw [List.getElem?_append_left hIndex, hChild]
        exact ⟨below, hRest, rfl, rfl⟩
  · exact Node.descendant?_replaceAt_outside hBelow hInside _

/-- An edit puts another node at the spot that it changes, or appends one to its target. -/
theorem redraft?_at_spot {edit : Edit} {file next : Node} (hNext : edit.redraft? file = some next) :
    ∃ target spot, file.descendant? edit.target = some target ∧ edit.spot? file = some spot ∧
      ∃ new, new.kind = edit.change.kind ∧ new.text = edit.change.inserted ∧
        ((∃ old, file.descendant? spot = some old ∧
            next = (file.replaceAt spot new).layout file.span.start) ∨
          target.kind = .parameter ∧ spot = edit.target.child target.children.length ∧
            next = (file.replaceAt edit.target
              { target with children := target.children ++ [new] }).layout file.span.start) := by
  obtain ⟨target, changed, hTarget, hChanged, rfl⟩ := redraft?_eq_some hNext
  unfold spot?
  rw [hTarget]
  cases hChange : edit.change with
  | lastToken text =>
      rw [hChange, Change.result?, Node.replaceLastToken?] at hChanged
      split at hChanged
      · cases hChanged
      · rename_i path hPath
        obtain ⟨token, hToken, hKind⟩ := Node.exists_token_of_lastTokenPath? hPath
        rw [hToken] at hChanged
        simp only [Option.ite_none_right_eq_some, Option.some.injEq] at hChanged
        refine ⟨target, edit.target ++ path, rfl, by simp only [hPath, Option.map_some],
          { token with payload := .token text }, hKind, by rw [Node.text_eq]; rfl,
          .inl ⟨token, ?_, ?_⟩⟩
        · rw [Node.descendant?_append, hTarget, Option.bind_some, hToken]
        · rw [Node.replaceAt_append hTarget, hChanged.2]
  | defaultValue expression =>
      rw [hChange, Change.result?, Node.setDefault?] at hChanged
      split at hChanged
      · rename_i hKind
        split at hChanged
        · rename_i index hIndex
          cases hChanged
          obtain ⟨hLess, -⟩ := List.findIdx?_eq_some_iff_findIdx_eq.mp hIndex
          refine ⟨target, _, rfl, rfl, Node.defaultValue expression, rfl,
            Node.text_defaultValue expression, .inl ⟨target.children[index], ?_, ?_⟩⟩
          · rw [hIndex, Option.getD_some, Path.child, Node.descendant?_append, hTarget,
              Option.bind_some, Node.descendant?_cons, List.getElem?_eq_getElem hLess]
            rfl
          · rw [hIndex, Option.getD_some, Path.child, Node.replaceAt_append hTarget, Node.replaceAt,
              List.modify_eq_take_cons_drop hLess, List.set_eq_take_append_cons_drop, if_pos hLess]
            rfl
        · rename_i hNone
          cases hChanged
          exact ⟨target, _, rfl, rfl, Node.defaultValue expression, rfl,
            Node.text_defaultValue expression, .inr ⟨hKind, by rw [hNone, Option.getD_none], rfl⟩⟩
      · cases hChanged

section Step

variable {edit : Edit} {file next : Node} {spot place : Path}
  (hNext : edit.redraft? file = some next) (hSpot : edit.spot? file = some spot)
  (hSpares : ¬ spot <+: place)
include hNext hSpot hSpares

/-- An edit moves the nodes that come behind the spot that it changes, and no others. -/
theorem offsetAt_redraft? (h : file.WellFormed) (hPlace : (file.descendant? place).isSome = true) :
    (next.offsetAt place : Int) = file.offsetAt place +
      if spot.order place = .lt then (next.size : Int) - file.size else 0 := by
  obtain ⟨target, found, hTarget, hFound, new, -, -, hCases⟩ := redraft?_at_spot hNext
  obtain rfl : found = spot := Option.some.inj (hFound.symm.trans hSpot)
  rcases hCases with ⟨old, hOld, rfl⟩ | ⟨-, rfl, rfl⟩
  · rw [Node.offsetAt_layout, Node.size_layout]
    exact offsetAt_replaceAt h hOld new hSpares
  · rw [Node.offsetAt_layout, Node.size_layout]
    exact offsetAt_append h hTarget new hPlace

/-- An edit leaves every node that does not lie at the spot in its place. -/
theorem descendant?_redraft? {below : Node} (hBelow : file.descendant? place = some below) :
    ∃ after, next.descendant? place = some after ∧ after.kind = below.kind ∧
      after.payload = below.payload := by
  obtain ⟨target, found, hTarget, hFound, new, -, -, hCases⟩ := redraft?_at_spot hNext
  obtain rfl : found = spot := Option.some.inj (hFound.symm.trans hSpot)
  have hChanged : ∃ changed after : Node, next = changed.layout file.span.start ∧
      changed.descendant? place = some after ∧ after.kind = below.kind ∧
      after.payload = below.payload := by
    rcases hCases with ⟨old, hOld, rfl⟩ | ⟨-, rfl, rfl⟩
    · obtain ⟨after, hAfter⟩ := Node.descendant?_replaceAt_outside hBelow hSpares new
      exact ⟨_, after, rfl, hAfter⟩
    · obtain ⟨after, hAfter⟩ := descendant?_append hTarget hBelow new
      exact ⟨_, after, rfl, hAfter⟩
  obtain ⟨changed, after, rfl, hAfter, hKind, hPayload⟩ := hChanged
  obtain ⟨laid, hLaid, hSame⟩ := Node.exists_descendant?_layout hAfter file.span.start
  refine ⟨laid, hLaid, ?_, ?_⟩
  · rw [← Node.kind_shape, hSame, Node.kind_shape, hKind]
  · rw [← Node.payload_shape, hSame, Node.payload_shape, hPayload]

end Step

theorem not_prefix_of_spares {edit : Edit} {file : Node} {spot place : Path}
    (hSpares : edit.spares file place = true) (hSpot : edit.spot? file = some spot) :
    ¬ spot <+: place := by
  rw [spares, hSpot, Option.all_some, Bool.not_eq_true'] at hSpares
  rw [← List.isPrefixOf_iff_prefix, hSpares]
  exact Bool.false_ne_true

/-- An edit changes the distance between a finding and a node by its drift. -/
theorem carry_eq_add_drift {edit : Edit} {file target next : Node} {place : Path}
    (h : file.WellFormed) (hTarget : file.descendant? edit.target = some target)
    (hNext : edit.redraft? file = some next) (hSpares : edit.spares file place = true)
    (hPlace : (file.descendant? place).isSome = true) (offset : Nat) :
    (Shift.carry ⟨target.span.stop, (next.size : Int) - file.size⟩ offset : Int) =
      next.offsetAt place + (offset - file.offsetAt place + edit.drift file place offset) := by
  obtain ⟨_, spot, -, hSpot, -⟩ := redraft?_at_spot hNext
  have hMoves := offsetAt_redraft? hNext hSpot (not_prefix_of_spares hSpares hSpot) h hPlace
  rw [hMoves, drift, hTarget, hSpot, hNext]
  simp only
  omega

/-- Edits that spare a node leave it in its place, and change its distance from a finding by
their drift. -/
theorem carryAll_eq_add_driftAll {edits : List Edit} {file last below : Node} {place : Path}
    (h : file.Canonical) (hLast : redraftAll? file edits = some last)
    (hSpares : ∀ step ∈ history file edits, step.2.spares step.1 place = true)
    (hBelow : file.descendant? place = some below) (offset : Nat) :
    (∃ after, last.descendant? place = some after ∧ after.kind = below.kind ∧
        after.payload = below.payload) ∧
      (Shift.carryAll (shifts file edits) offset : Int) =
        last.offsetAt place + (offset - file.offsetAt place + driftAll file place offset edits) := by
  induction edits generalizing file below offset with
  | nil =>
      cases hLast
      refine ⟨⟨below, hBelow, rfl, rfl⟩, ?_⟩
      simp only [shifts, Shift.carryAll, List.foldl_nil, driftAll]
      omega
  | cons edit edits ih =>
      obtain ⟨next, hNext, hRest⟩ := Option.bind_eq_some_iff.mp hLast
      obtain ⟨target, spot, hTarget, hSpot, -⟩ := redraft?_at_spot hNext
      simp only [history, hNext, List.forall_mem_cons] at hSpares
      obtain ⟨hFirst, hLater⟩ := hSpares
      obtain ⟨middle, hMiddle, hKind, hPayload⟩ :=
        descendant?_redraft? hNext hSpot (not_prefix_of_spares hFirst hSpot) hBelow
      have hStep := carry_eq_add_drift h.wellFormed hTarget hNext hFirst (by rw [hBelow]; rfl) offset
      obtain ⟨⟨after, hAfter, hLastKind, hLastPayload⟩, hAll⟩ := ih (canonical_redraft? h hNext).1
        hRest hLater hMiddle (Shift.carry ⟨target.span.stop, (next.size : Int) - file.size⟩ offset)
      refine ⟨⟨after, hAfter, hLastKind.trans hKind, hLastPayload.trans hPayload⟩, ?_⟩
      simp only [shifts, driftAll, hTarget, hNext]
      rw [Shift.carryAll, List.foldl_cons, ← Shift.carryAll, hAll]
      omega

/-- From the start of its node, an edit takes a finding away exactly if it strays. -/
theorem drift_eq_zero_iff {edit : Edit} {file next below : Node} {place : Path}
    (h : file.Canonical) (hStart : file.span.start = 0) (hNext : edit.redraft? file = some next)
    (hBelow : file.descendant? place = some below) (hFits : next.size < distanceBound) :
    edit.drift file place (file.offsetAt place) = 0 ↔ edit.strays file place = false := by
  obtain ⟨found, changed, hFound, -, hNextEq⟩ := redraft?_eq_some hNext
  obtain ⟨target, spot, hTarget, hSpot, -⟩ := redraft?_at_spot hNext
  obtain rfl : found = target := Option.some.inj (hFound.symm.trans hTarget)
  obtain ⟨hCanonical, hTargetStart⟩ := h.descendant hTarget
  have hStop := hCanonical.stop_eq
  have hSize := Node.size_replaceAt h.wellFormed hTarget changed
  have hInside := Node.offsetAt_add_size_le h.wellFormed hBelow
  have hBound : distanceBound < offsetBound := by decide
  rw [hNextEq, Node.size_layout] at hFits
  rw [drift, strays, hTarget, hSpot, hNext]
  simp only [Shift.carry, hNextEq, Node.size_layout, moveOffsetWithin]
  by_cases hBehind : found.span.stop ≤ file.offsetAt place <;>
    by_cases hOrder : spot.order place = .lt <;> simp [hBehind, hOrder] <;> omega

/-- A finding keeps to the start of its node through several edits exactly if none of them
strays. -/
theorem driftAll_take_eq_zero_iff {edits : List Edit} {file last below : Node} {place : Path}
    (h : file.Canonical) (hStart : file.span.start = 0)
    (hLast : redraftAll? file edits = some last)
    (hSpares : ∀ step ∈ history file edits, step.2.spares step.1 place = true)
    (hBelow : file.descendant? place = some below)
    (hFits : ∀ draft ∈ drafts file edits, draft.size < distanceBound) :
    (∀ count, driftAll file place (file.offsetAt place) (edits.take count) = 0) ↔
      ∀ step ∈ history file edits, step.2.strays step.1 place = false := by
  induction edits generalizing file below with
  | nil => simp [driftAll, history]
  | cons edit edits ih =>
      obtain ⟨next, hNext, hRest⟩ := Option.bind_eq_some_iff.mp hLast
      obtain ⟨target, spot, hTarget, hSpot, -⟩ := redraft?_at_spot hNext
      simp only [history, hNext, List.forall_mem_cons] at hSpares ⊢
      simp only [drafts, hNext, List.forall_mem_cons] at hFits
      obtain ⟨middle, hMiddle, -, -⟩ :=
        descendant?_redraft? hNext hSpot (not_prefix_of_spares hSpares.1 hSpot) hBelow
      obtain ⟨hCanonical, hSame⟩ := canonical_redraft? h hNext
      have hFirst := drift_eq_zero_iff h hStart hNext hBelow hFits.1
      have hLater := ih hCanonical (hSame.trans hStart) hRest hSpares.2 hMiddle hFits.2
      have hStep := carry_eq_add_drift h.wellFormed hTarget hNext hSpares.1 (by rw [hBelow]; rfl)
        (file.offsetAt place)
      have hTake : ∀ count, driftAll file place (file.offsetAt place) ((edit :: edits).take (count + 1)) =
          edit.drift file place (file.offsetAt place) + driftAll next place
            (Shift.carry ⟨target.span.stop, (next.size : Int) - file.size⟩ (file.offsetAt place))
            (edits.take count) := by
        intro count
        simp only [List.take_succ_cons, driftAll, hTarget, hNext]
      -- Without a drift the finding is at the node again, and the later edits start from there.
      have hCarried (hZero : edit.drift file place (file.offsetAt place) = 0) :
          Shift.carry ⟨target.span.stop, (next.size : Int) - file.size⟩ (file.offsetAt place) =
            next.offsetAt place := by omega
      rw [← hFirst, ← hLater]
      constructor
      · intro hAll
        have hZero : edit.drift file place (file.offsetAt place) = 0 := by
          have hOne := hAll 1
          rw [hTake, List.take_zero, driftAll] at hOne
          omega
        refine ⟨hZero, fun count => ?_⟩
        have hMore := hAll (count + 1)
        rw [hTake, hZero, hCarried hZero] at hMore
        omega
      · rintro ⟨hZero, hMore⟩ count
        cases count with
        | zero => rfl
        | succ count => rw [hTake, hZero, hCarried hZero, hMore count, Int.add_zero]

/-- Where an edit changes the text below its target. -/
theorem exists_spot_eq_append {edit : Edit} {file target : Node} {spot : Path}
    (hTarget : file.descendant? edit.target = some target) (hSpot : edit.spot? file = some spot) :
    ∃ rest, spot = edit.target ++ rest ∧
      ((∃ text, edit.change = .lastToken text ∧ target.lastTokenPath? = some rest) ∨
        ∃ expression, edit.change = .defaultValue expression ∧
          rest = [(target.children.findIdx? (·.kind == .defaultValue)).getD
            target.children.length]) := by
  rw [spot?, hTarget] at hSpot
  cases hChange : edit.change with
  | lastToken text =>
      simp only [hChange] at hSpot
      obtain ⟨rest, hRest, rfl⟩ := Option.map_eq_some_iff.mp hSpot
      exact ⟨rest, rfl, .inl ⟨text, rfl, hRest⟩⟩
  | defaultValue expression =>
      simp only [hChange, Option.some.injEq] at hSpot
      exact ⟨_, hSpot.symm, .inr ⟨expression, rfl, rfl⟩⟩

/-- The edit replaces a default value, and the path leads to a part of the parameter behind it. -/
def PassesDefault (edit : Edit) (target : Node) (place : Path) : Prop :=
  ∃ expression index later rest, edit.change = .defaultValue expression ∧
    target.children.findIdx? (·.kind == .defaultValue) = some index ∧ index < later ∧
    place = edit.target ++ later :: rest

/-- The target has no text, and the text of the node at the path begins where the target is. -/
def OpensEmpty (edit : Edit) (file target : Node) (place : Path) : Prop :=
  target.size = 0 ∧ place <+: edit.target ∧ file.offsetAt edit.target = file.offsetAt place

/-- The edit changes the length of a default value before the node in the same parameter, or of an
empty target that the node begins with. -/
def Misplaces (edit : Edit) (file : Node) (place : Path) : Prop :=
  ∃ target next, file.descendant? edit.target = some target ∧ edit.redraft? file = some next ∧
    next.size ≠ file.size ∧ (edit.PassesDefault target place ∨ edit.OpensEmpty file target place)

section Text

variable {edit : Edit} {file target anchor : Node} {spot place : Path} (h : file.Canonical)
  (hTarget : file.descendant? edit.target = some target) (hSpot : edit.spot? file = some spot)
  (hAnchor : file.descendant? place = some anchor) (hText : 0 < anchor.size)
include h hTarget hSpot hAnchor hText

/-- What has text and comes behind the spot, but before the end of the target, is a part of a
parameter behind its default value. -/
theorem passesDefault_of_order (hSpares : ¬ spot <+: place) (hOrder : spot.order place = .lt)
    (hStop : file.offsetAt place < file.offsetAt edit.target + target.size) :
    edit.PassesDefault target place := by
  obtain ⟨below, rfl, hBelow⟩ := exists_spot_eq_append hTarget hSpot
  have hInside : edit.target <+: place := by
    refine Decidable.byContradiction fun hOutside => ?_
    rw [Path.order_append_left hOutside] at hOrder
    have hBehind := Node.offsetAt_add_size_le_of_order h.wellFormed hTarget hOutside hOrder
      (by rw [hAnchor]; rfl)
    omega
  obtain ⟨rest, rfl⟩ := hInside
  rw [Path.order_append] at hOrder
  rw [List.prefix_append_right_inj] at hSpares
  rw [Node.descendant?_append, hTarget, Option.bind_some] at hAnchor
  have hWell := h.wellFormed.descendant hTarget
  rcases hBelow with ⟨text, -, hPath⟩ | ⟨expression, hChange, rfl⟩
  · -- Behind the last token there is no text.
    obtain ⟨token, hToken, -⟩ := Node.exists_token_of_lastTokenPath? hPath
    have hEnd := Node.offsetAt_lastTokenPath? hWell hPath hToken
    have hBehind := Node.offsetAt_add_size_le_of_order hWell hToken hSpares hOrder
      (by rw [hAnchor]; rfl)
    have hWithin := Node.offsetAt_add_size_le hWell hAnchor
    omega
  · cases rest with
    | nil => cases hOrder
    | cons later rest =>
        have hLater : later < target.children.length := by
          obtain ⟨child, hChild, -⟩ := Node.descendant?_cons_eq_some_iff.mp hAnchor
          exact (List.getElem?_eq_some_iff.mp hChild).1
        cases hIndex : target.children.findIdx? (·.kind == .defaultValue) with
        | none =>
            rw [hIndex, Option.getD_none, Path.order_cons_of_gt hLater] at hOrder
            cases hOrder
        | some index =>
            rw [hIndex, Option.getD_some] at hOrder hSpares
            refine ⟨expression, index, later, rest, hChange, hIndex, ?_, rfl⟩
            rcases Nat.lt_trichotomy index later with hLess | rfl | hMore
            · exact hLess
            · exact absurd (List.cons_prefix_cons.mpr ⟨rfl, List.nil_prefix⟩) hSpares
            · rw [Path.order_cons_of_gt hMore] at hOrder
              cases hOrder

/-- What has text and starts at or behind the end of the target, but does not come behind the
spot, begins with the target, which is empty. -/
theorem opensEmpty_of_order (hOrder : spot.order place ≠ .lt)
    (hStop : file.offsetAt edit.target + target.size ≤ file.offsetAt place) :
    edit.OpensEmpty file target place := by
  obtain ⟨below, rfl, -⟩ := exists_spot_eq_append hTarget hSpot
  have hOutside : ¬ edit.target <+: place := by
    rintro ⟨rest, rfl⟩
    rw [Node.descendant?_append, hTarget, Option.bind_some] at hAnchor
    have hWithin := Node.offsetAt_add_size_le (h.wellFormed.descendant hTarget) hAnchor
    rw [Node.offsetAt_append hTarget] at hStop
    omega
  rw [Path.order_append_left hOutside] at hOrder
  have hAbove : place <+: edit.target := by
    refine Decidable.byContradiction fun hApart => ?_
    rcases Path.order_lt_or_lt hOutside hApart with hFirst | hSecond
    · exact hOrder hFirst
    · have hBehind := Node.offsetAt_add_size_le_of_order h.wellFormed hAnchor hApart hSecond
        (by rw [hTarget]; rfl)
      omega
  obtain ⟨rest, hRest⟩ := hAbove
  have hStart := Node.offsetAt_append hAnchor rest
  rw [hRest] at hStart
  exact ⟨by omega, ⟨rest, hRest⟩, by omega⟩

end Text

/-- Findings at nodes with text stray in two ways only. -/
theorem strays_iff_misplaces {edit : Edit} {file next anchor : Node} {place : Path}
    (h : file.Canonical) (hStart : file.span.start = 0) (hNext : edit.redraft? file = some next)
    (hSpares : edit.spares file place = true) (hAnchor : file.descendant? place = some anchor)
    (hText : 0 < anchor.size) : edit.strays file place = true ↔ edit.Misplaces file place := by
  obtain ⟨target, spot, hTarget, hSpot, -⟩ := redraft?_at_spot hNext
  obtain ⟨hCanonical, hTargetStart⟩ := h.descendant hTarget
  have hStop : target.span.stop = file.offsetAt edit.target + target.size := by
    rw [hCanonical.stop_eq, hTargetStart, hStart, Nat.zero_add]
  have hOutside := not_prefix_of_spares hSpares hSpot
  have hMisplaces : edit.Misplaces file place ↔ next.size ≠ file.size ∧
      (edit.PassesDefault target place ∨ edit.OpensEmpty file target place) := by
    simp [Misplaces, hTarget, hNext]
  rw [hMisplaces, strays, hTarget, hSpot, hNext]
  simp only [hStop, Bool.and_eq_true, bne_iff_ne, ne_eq, and_congr_right_iff]
  intro _
  constructor
  · intro hDiffer
    by_cases hOrder : spot.order place = .lt
    · refine .inl (passesDefault_of_order h hTarget hSpot hAnchor hText hOutside hOrder ?_)
      simpa [hOrder] using hDiffer
    · refine .inr (opensEmpty_of_order h hTarget hSpot hAnchor hText hOrder ?_)
      rw [beq_eq_false_iff_ne.mpr hOrder] at hDiffer
      simpa using hDiffer
  · obtain ⟨below, rfl, hBelow⟩ := exists_spot_eq_append hTarget hSpot
    rintro (⟨expression, index, later, rest, hChange, hIndex, hLess, rfl⟩ | ⟨hEmpty, hAbove, hSame⟩)
    · rcases hBelow with ⟨text, hOther, -⟩ | ⟨_, -, rfl⟩
      · rw [hChange] at hOther
        cases hOther
      · have hInner := hAnchor
        rw [Node.descendant?_append, hTarget, Option.bind_some] at hInner
        have hWithin := Node.offsetAt_add_size_le hCanonical.wellFormed hInner
        rw [hIndex, Option.getD_some, Path.order_append, Path.order_cons_of_lt hLess,
          Node.offsetAt_append hTarget]
        simp only [beq_self_eq_true, Bool.true_eq, decide_eq_true_eq]
        omega
    · have hOrder := Path.order_ne_lt_of_prefix (hAbove.trans (List.prefix_append edit.target below))
      rw [beq_eq_false_iff_ne.mpr hOrder]
      simp [hEmpty, hSame]

/-- Each edit of a history is made in a canonical file. -/
theorem canonical_of_mem_history {edits : List Edit} {file last : Node} (h : file.Canonical)
    (hLast : redraftAll? file edits = some last) {step : Node × Edit}
    (hStep : step ∈ history file edits) :
    step.1.Canonical ∧ step.1.span.start = file.span.start ∧
      ∃ next, step.2.redraft? step.1 = some next := by
  induction edits generalizing file with
  | nil => cases hStep
  | cons edit edits ih =>
      obtain ⟨next, hNext, hRest⟩ := Option.bind_eq_some_iff.mp hLast
      simp only [history, hNext, List.mem_cons] at hStep
      rcases hStep with rfl | hStep
      · exact ⟨h, rfl, next, hNext⟩
      · obtain ⟨hCanonical, hStart⟩ := canonical_redraft? h hNext
        obtain ⟨hThere, hSame, hMade⟩ := ih hCanonical hRest hStep
        exact ⟨hThere, hSame.trans hStart, hMade⟩

end Edit

end UiLint
