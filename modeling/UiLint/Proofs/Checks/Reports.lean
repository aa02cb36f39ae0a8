import Mathlib.Data.List.Forall2
import UiLint.Proofs.Checks.Notes
import UiLint.Proofs.Engine.TurnOrder

/-! The findings of a run of built-in checks. Call by call, what a check says about the file as it then
is turns out to be what it had to say about the file as it was, and every finding keeps standing for
its note while the file changes. -/
namespace UiLint

open HandleDefault

/-- A parameter with the empty handle as its default value. -/
def HandleDefault.withHandle (parameter : Node) : Node :=
  { parameter with children := parameter.children ++ [emptyHandle] }

/-- A relation between files, paths and offsets that tells where a finding stands by the path of its
anchor: it holds of a finding when it is made, and keeps holding when a parameter is given a default
value that does not lie around the anchor. -/
structure Tracks (root : Node) (stands : Node → Path → Nat → Prop) : Prop where
  fresh : ∀ {chosen : Path → Bool} {grown : Node} {place : Path},
    Node.GrownTo emptyHandle root chosen grown → grown.Canonical → grown.span.start = 0 →
    (root.descendant? place).isSome = true → stands grown place (grown.offsetAt place)
  kept : ∀ {chosen : Path → Bool} {grown parameter : Node} {target place : Path} {offset : Nat},
    Node.GrownTo emptyHandle root chosen grown → grown.Canonical → grown.span.start = 0 →
    grown.descendant? target = some parameter → parameter.kind = .parameter →
    (root.descendant? target).isSome = true → (root.descendant? place).isSome = true →
    (target <+: place → target = place) →
    (grown.replaceAt target (withHandle parameter)).size < distanceBound →
    stands grown place offset →
    stands ((grown.replaceAt target (withHandle parameter)).layout 0) place
      (Shift.carry ⟨parameter.span.stop,
        ((grown.replaceAt target (withHandle parameter)).size : Int) - grown.size⟩ offset)

/-- A parameter in the file that has no default value there. -/
def IsUndefaulted (root : Node) (target : Path) : Prop :=
  ∃ parameter, root.descendant? target = some parameter ∧ parameter.kind = .parameter ∧
    ∀ part ∈ parameter.children, part.kind ≠ .defaultValue

/-- A parameter that has not been chosen is given its default value after all its parts. -/
theorem redraft?_giveDefault_eq {root grown : Node} {chosen : Path → Bool} {target : Path}
    (h : Node.GrownTo emptyHandle root chosen grown) (hTarget : IsUndefaulted root target)
    (hNew : chosen target = false) :
    ∃ parameter, grown.descendant? target = some parameter ∧ parameter.kind = .parameter ∧
      (giveDefault target).redraft? grown =
        some ((grown.replaceAt target (withHandle parameter)).layout grown.span.start) := by
  obtain ⟨old, hOld, hKind, hNone⟩ := hTarget
  obtain ⟨parameter, hParameter, hGrown⟩ := h.descendant hOld
  have hSameKind := hGrown.kind.trans hKind
  have hStill : parameter.hasDefault = false := by
    rw [hasDefault_grown hGrown (by simpa using hNew), Node.hasDefault_eq_false_iff]
    exact hNone
  have hFind : parameter.children.findIdx? (·.kind == .defaultValue) = none := by
    rw [List.findIdx?_eq_none_iff]
    intro part hPart
    simpa using Node.hasDefault_eq_false_iff.mp hStill part hPart
  have hSet : parameter.setDefault? stylingHandleName = some (withHandle parameter) := by
    rw [Node.setDefault?, if_pos hSameKind, hFind]
    rfl
  refine ⟨parameter, hParameter, hSameKind, ?_⟩
  simp only [Edit.redraft?, giveDefault, hParameter, Change.result?, hSet, Option.map_some]

/-- Giving several parameters a default value moves findings along with their anchors. -/
theorem Tracks.carryAll {root : Node} {stands : Node → Path → Nat → Prop} (h : Tracks root stands)
    {targets : List Path} {grown last : Node} {chosen : Path → Bool} {place : Path} {offset : Nat}
    (hGrown : Node.GrownTo emptyHandle root chosen grown) (hCanonical : grown.Canonical)
    (hStart : grown.span.start = 0) (hTargets : ∀ target ∈ targets, IsUndefaulted root target)
    (hNodup : targets.Nodup) (hNew : ∀ target ∈ targets, chosen target = false)
    (hLast : Edit.redraftAll? grown (targets.map giveDefault) = some last)
    (hFits : ∀ draft ∈ Edit.drafts grown (targets.map giveDefault), draft.size < distanceBound)
    (hPlace : (root.descendant? place).isSome = true)
    (hApart : ∀ target ∈ targets, target <+: place → target = place)
    (hStands : stands grown place offset) :
    stands last place (Shift.carryAll (Edit.shifts grown (targets.map giveDefault)) offset) := by
  induction targets generalizing grown chosen offset with
  | nil =>
      cases hLast
      exact hStands
  | cons target targets ih =>
      rw [List.forall_mem_cons] at hTargets hNew hApart
      rw [List.nodup_cons] at hNodup
      obtain ⟨parameter, hParameter, hKind, hRedraft⟩ :=
        redraft?_giveDefault_eq hGrown hTargets.1 hNew.1
      obtain ⟨old, hOld, hOldKind, hNone⟩ := hTargets.1
      obtain ⟨next, hNext, hNextGrown⟩ := redraft?_giveDefault hGrown hOld hOldKind hNone
      obtain rfl : (grown.replaceAt target (withHandle parameter)).layout 0 = next := by
        rw [hStart] at hRedraft
        exact Option.some.inj (hRedraft.symm.trans hNext)
      obtain ⟨hNextCanonical, hNextStart⟩ := Edit.canonical_redraft? hCanonical hNext
      rw [List.map_cons, Edit.redraftAll?, hNext, Option.bind_some] at hLast
      simp only [List.map_cons, Edit.drafts, hNext, List.forall_mem_cons] at hFits
      have hThere : grown.descendant? (giveDefault target).target = some parameter := hParameter
      simp only [List.map_cons, Edit.shifts, hThere, hNext]
      rw [Shift.carryAll, List.foldl_cons, ← Shift.carryAll]
      refine ih hNextGrown hNextCanonical (hNextStart.trans hStart) hTargets.2 hNodup.2 ?_ hLast
        hFits.2 hApart.2 ?_
      · intro other hOther
        rw [hNew.2 other hOther, Bool.or_false, beq_eq_false_iff_ne]
        rintro rfl
        exact hNodup.1 hOther
      · rw [Node.size_layout] at hFits ⊢
        exact h.kept hGrown hCanonical hStart hParameter hKind (by rw [hOld]; rfl) hPlace hApart.1
          hFits.1 hStands

/-- What the check of a rule has to say at its turn in a file, each note with the place of the rule
among the rules. -/
def Turn.notes (check? : Nat → Option Check) (root : Node) (turn : Turn) : List (Nat × Note) :=
  match check? turn.rule, Subject.of? turn.hook turn.declared, Site.at? root turn.path with
  | some check, some subject, some site => (check.notes subject site).map (turn.rule, ·)
  | _, _, _ => []

theorem Turn.notes_eq {check? : Nat → Option Check} {root node : Node} {turn : Turn} {check : Check}
    {subject : Subject} (hCheck : check? turn.rule = some check)
    (hSubject : Subject.of? turn.hook turn.declared = some subject)
    (hNode : root.descendant? turn.path = some node) :
    turn.notes check? root =
      (check.notes subject ⟨root, turn.path, node⟩).map (turn.rule, ·) := by
  rw [Turn.notes, hCheck, hSubject, Site.at?_eq_some hNode]

theorem Turn.mem_notes {check? : Nat → Option Check} {root : Node} {turn : Turn} {entry : Nat × Note}
    (hEntry : entry ∈ turn.notes check? root) :
    ∃ check subject node, check? turn.rule = some check ∧
      Subject.of? turn.hook turn.declared = some subject ∧
      root.descendant? turn.path = some node ∧ entry.1 = turn.rule ∧
      entry.2 ∈ check.notes subject ⟨root, turn.path, node⟩ := by
  unfold Turn.notes at hEntry
  split at hEntry
  · rename_i check subject site hCheck hSubject hSite
    obtain ⟨node, hNode, rfl⟩ := Option.map_eq_some_iff.mp hSite
    obtain ⟨note, hNote, rfl⟩ := List.mem_map.mp hEntry
    exact ⟨check, subject, node, hCheck, hSubject, hNode, rfl, hNote⟩
  · cases hEntry

/-- A call of a rule that is a built-in check, for a node that suits the hook. -/
def Call.Answers (check? : Nat → Option Check) (call : Call) : Prop :=
  ∃ check subject, check? call.rule = some check ∧
    Subject.of? call.hook call.site.node.payload = some subject ∧
    call.response = check.respond ⟨subject, call.site, call.fixing⟩

/-- The finding stands for the note: it says the same of the same rule, is fixed if the run fixes and
the note can be fixed, and stands where the anchor of the note does. -/
structure Records (stands : Node → Path → Nat → Prop) (root : Node) (fixing : Bool) (file : Node)
    (entry : Nat × Note) (finding : Finding) : Prop where
  rule : finding.rule = entry.1
  message : finding.message = entry.2.message
  fixable : finding.fixable = entry.2.fixable
  autoFixed : finding.autoFixed = (fixing && entry.2.fixable)
  offset : stands file (root.anchorPath entry.2.place) finding.offset

/-- The findings that remarks become, one by one. -/
theorem Finding.forall₂_ofRemarks {R : Nat × Note → Finding → Prop} {rule : Nat}
    {remark : Note → Remark} {notes : List Note}
    (hEach : ∀ note ∈ notes, ∀ sequence, R (rule, note)
      ⟨(remark note).offset, rule, sequence, (remark note).message, (remark note).fixable, false⟩)
    (place : Nat) :
    List.Forall₂ R (notes.map (rule, ·)) (ofRemarks rule place (notes.map remark)) := by
  induction notes generalizing place with
  | nil => exact .nil
  | cons note notes ih =>
      rw [List.forall_mem_cons] at hEach
      exact .cons (hEach.1 place) (ih hEach.2 (place + 1))

/-- At its call a check looks at the file with some default values given, has the same to say about it
as about the file as it was at first, and says it there. -/
structure Call.Told (check? : Nat → Option Check) (root : Node) (call : Call) : Prop where
  site : call.site.root.descendant? call.site.path = some call.site.node
  grown : ∃ given, Node.GrownTo emptyHandle root given call.site.root
  notes : call.turn.notes check? call.site.root = call.turn.notes check? root
  remarks : call.response.remarks =
    (call.turn.notes check? root).map fun entry => entry.2.remark call.site.root

/-- How far a run over a file has come: which default values have been given, each in a call of the
check for them; what the checks have said at their calls; and that the findings stand for all of
that. -/
structure Reporting (check? : Nat → Option Check) (stands : Node → Path → Nat → Prop) (root : Node)
    (fixing : Bool) (given : Path → Bool) (progress : Progress) : Prop where
  sound : progress.Sound
  grown : Node.GrownTo emptyHandle root given progress.tree.root
  asked : ∀ place, given place = true → ∃ call ∈ progress.calls, ∃ settings i j,
    check? call.rule = some (.handleDefault settings) ∧ call.hook = .composable ∧
      place = call.site.path ++ [i, j]
  parameters : ChoosesParameters root given
  told : ∀ call ∈ progress.calls, call.Told check? root
  recorded : List.Forall₂ (Records stands root fixing progress.tree.root)
    ((progress.calls.map Call.turn).flatMap (Turn.notes check? root)) progress.findings

/-- Of two paths of which the second does not lie below the first, what is two levels below the first
does not lie around what is at most two levels below the second. -/
theorem Path.eq_of_prefix_append {path other rest : Path} {i j : Nat} (hRest : rest.length ≤ 2)
    (hOutside : path <+: other → other = path) (hPrefix : path ++ [i, j] <+: other ++ rest) :
    path ++ [i, j] = other ++ rest := by
  apply hPrefix.eq_of_length_le
  by_cases hLonger : path.length < other.length
  · have hAbove : path <+: other :=
      List.prefix_of_prefix_length_le ((List.prefix_append path [i, j]).trans hPrefix)
        (List.prefix_append other rest) (Nat.le_of_lt hLonger)
    rw [hOutside hAbove] at hLonger
    exact absurd hLonger (Nat.lt_irrefl _)
  · rw [List.length_append, List.length_append, List.length_cons, List.length_singleton]
    omega

section Call

variable {check? : Nat → Option Check} {stands : Node → Path → Nat → Prop} {root : Node}
  {fixing : Bool} {given : Path → Bool} {progress : Progress} {call : Call}

/-- A call is made for an old node if it suits the hook. -/
theorem Reporting.exists_node (h : Reporting check? stands root fixing given progress)
    (hAt : call.IsAt progress) {subject : Subject}
    (hSubject : Subject.of? call.hook call.site.node.payload = some subject) :
    ∃ node, root.descendant? call.site.path = some node ∧
      Node.GrownTo emptyHandle node (fun rest => given (call.site.path ++ rest)) call.site.node := by
  rcases h.grown.descendant_cases hAt.site.2 with hOld | ⟨-, rest, inner, hInner, hShape⟩
  · exact hOld
  · rw [← Node.payload_shape, hShape, Node.payload_shape] at hSubject
    rcases descendant?_emptyHandle hInner with rfl | ⟨text, rfl⟩ <;>
      cases hHook : call.hook <;> rw [hHook] at hSubject <;> cases hSubject

/-- No parameter of a function has been given a default value before a check looks at them. -/
theorem Reporting.untouched (h : Reporting check? stands root fixing given progress)
    (hPrecedes : ∀ other ∈ progress.calls, other.turn.Precedes call.turn)
    (hOne : ∀ i j settings others, check? i = some (.handleDefault settings) →
      check? j = some (.handleDefault others) → i = j)
    {check : Check} {subject : Subject} (hCheck : check? call.rule = some check)
    (hSubject : Subject.of? call.hook call.site.node.payload = some subject)
    (hReads : check.readsDefaults subject = true) (i j : Nat) :
    given (call.site.path ++ [i, j]) = false := by
  rw [Bool.eq_false_iff]
  intro hGiven
  obtain ⟨other, hOther, settings, k, l, hGives, hHook, hPlace⟩ := h.asked _ hGiven
  obtain ⟨hPath, -⟩ := List.append_inj' hPlace rfl
  have hLater := (hPrecedes other hOther).of_path_eq hPath.symm
  simp only [Call.turn, hHook, ← Subject.hook_of_of? hSubject] at hLater
  cases check with
  | handleDefault _ =>
      cases subject with
      | composable header =>
          rcases hLater with hRank | ⟨-, hRule⟩
          · exact Nat.lt_irrefl _ hRank
          · rw [hOne _ _ _ _ hGives hCheck] at hRule
            exact Nat.lt_irrefl _ hRule
      | _ => cases hReads
  | handleMissing _ => cases subject <;> cases hReads
  | parameterOrder _ =>
      cases subject with
      | function header =>
          rcases hLater with hRank | ⟨hSame, -⟩
          · simp [Subject.hook, Hook.rank] at hRank
          · cases hSame
      | _ => cases hReads

/-- At its turn a check has the same to say as about the file as it was. -/
theorem Reporting.noted (h : Reporting check? stands root fixing given progress)
    (hAt : call.IsAt progress)
    (hPrecedes : ∀ other ∈ progress.calls, other.turn.Precedes call.turn)
    (hOne : ∀ i j settings others, check? i = some (.handleDefault settings) →
      check? j = some (.handleDefault others) → i = j)
    {check : Check} {subject : Subject} (hCheck : check? call.rule = some check)
    (hSubject : Subject.of? call.hook call.site.node.payload = some subject) :
    ∃ node, root.descendant? call.site.path = some node ∧
      Node.GrownTo emptyHandle node (fun rest => given (call.site.path ++ rest)) call.site.node ∧
      check.notes subject call.site = check.notes subject ⟨root, call.site.path, node⟩ ∧
      call.turn.notes check? root =
        (check.notes subject ⟨root, call.site.path, node⟩).map (call.rule, ·) ∧
      call.turn.notes check? call.site.root = call.turn.notes check? root := by
  obtain ⟨node, hNode, hGrown⟩ := h.exists_node hAt hSubject
  have hSite : call.site = ⟨progress.tree.root, call.site.path, call.site.node⟩ := by
    rw [← hAt.site.1]
  have hNotes : check.notes subject call.site =
      check.notes subject ⟨root, call.site.path, node⟩ := by
    rw [hSite]
    exact Check.notes_grown h.grown h.parameters hNode hAt.site.2 check subject
      (h.untouched hPrecedes hOne hCheck hSubject)
  have hTurn : call.turn.notes check? root =
      (check.notes subject ⟨root, call.site.path, node⟩).map (call.rule, ·) :=
    Turn.notes_eq hCheck hSubject hNode
  refine ⟨node, hNode, hGrown, hNotes, hTurn, ?_⟩
  rw [hTurn, ← hNotes, hSite]
  exact Turn.notes_eq hCheck hSubject hAt.site.2

/-- The anchors of what has been noted so far are in the file, and the parameters of a function whose
turn comes now do not lie around them. -/
theorem Reporting.apart (hPrecedes : ∀ other ∈ progress.calls, other.turn.Precedes call.turn)
    {entry : Nat × Note}
    (hEntry : entry ∈ ((progress.take call).calls.map Call.turn).flatMap (Turn.notes check? root)) :
    (root.descendant? (root.anchorPath entry.2.place)).isSome = true ∧
      ∀ i j, call.site.path ++ [i, j] <+: root.anchorPath entry.2.place →
        call.site.path ++ [i, j] = root.anchorPath entry.2.place := by
  obtain ⟨turn, hTurn, hNoted⟩ := List.mem_flatMap.mp hEntry
  obtain ⟨check, subject, node, -, -, hNode, -, hNote⟩ := Turn.mem_notes hNoted
  obtain ⟨hPlace, rest, hPath, hRest⟩ := Check.anchorPath_of_mem_notes hNote hNode
  obtain ⟨below, hBelow⟩ := Option.isSome_iff_exists.mp hPlace
  obtain ⟨anchor, hAnchor, -⟩ := Node.descendant?_anchorPath hBelow
  refine ⟨by rw [hAnchor]; rfl, fun i j hPrefix => ?_⟩
  have hOutside : call.site.path <+: turn.path → turn.path = call.site.path := by
    intro hAround
    obtain ⟨other, hOther, rfl⟩ := List.mem_map.mp hTurn
    rw [Progress.calls_take, List.mem_append, List.mem_singleton] at hOther
    rcases hOther with hOther | rfl
    · exact (hPrecedes other hOther).path_eq hAround
    · rfl
  simp only at hPath
  rw [hPath] at hPrefix ⊢
  exact Path.eq_of_prefix_append hRest hOutside hPrefix

/-- A call that asks for no edits is only kept. -/
theorem Progress.take_of_no_edits (hEnding : call.response.ending.failure? = none)
    (hEdits : call.edits = []) : progress.take call = progress.tell call := by
  simp only [take, hEnding, hEdits, List.isEmpty_nil, if_true]

section Step

variable (hTracks : Tracks root stands) (hRoot : root.WellFormed)
  (h : Reporting check? stands root fixing given progress)
  (hAt : call.IsAt progress) (hFits : call.Fits) {notes : List Note}
  (hTurn : call.turn.notes check? root = notes.map (call.rule, ·))
  (hSeen : call.turn.notes check? call.site.root = call.turn.notes check? root)
  (hPlaces : ∀ note ∈ notes, (root.descendant? note.place).isSome = true)
  (hRemarks : call.response.remarks = notes.map (Note.remark progress.tree.root))
  (hEnding : call.response.ending.failure? = none)

include hTracks hRoot h in
/-- A finding that is made now stands where the anchor of its note does. -/
theorem Reporting.stands_remark {note : Note}
    (hPlace : (root.descendant? note.place).isSome = true) :
    stands progress.tree.root (root.anchorPath note.place)
      (note.remark progress.tree.root).offset := by
  obtain ⟨node, hNode⟩ := Option.isSome_iff_exists.mp hPlace
  obtain ⟨found, hFound, -⟩ := h.grown.descendant hNode
  obtain ⟨below, hBelow, -⟩ := Node.descendant?_anchorPath hNode
  obtain ⟨hCanonical, hStart⟩ := h.sound.canonical.root
  rw [Note.remark, Node.anchorAt_eq_offsetAt hCanonical hStart hFound,
    anchorPath_grown h.grown h.parameters hRoot hNode]
  exact hTracks.fresh h.grown hCanonical hStart (by rw [hBelow]; rfl)

include hTurn in
theorem Reporting.turns_take :
    ((progress.take call).calls.map Call.turn).flatMap (Turn.notes check? root) =
      (progress.calls.map Call.turn).flatMap (Turn.notes check? root) ++
        notes.map (call.rule, ·) := by
  rw [Progress.calls_take, List.map_append, List.flatMap_append, List.map_singleton,
    List.flatMap_singleton, hTurn]

include h hAt hTurn hSeen hRemarks in
theorem Reporting.told_take : ∀ other ∈ (progress.take call).calls, other.Told check? root := by
  obtain ⟨hSame, hNode⟩ := hAt.site
  rw [← hSame] at hNode
  rw [Progress.calls_take, List.forall_mem_append, List.forall_mem_singleton]
  refine ⟨h.told, hNode, ⟨given, by rw [hSame]; exact h.grown⟩, hSeen, ?_⟩
  rw [hTurn, hRemarks, hSame, List.map_map]
  rfl

include hTracks hRoot h hAt hFits hTurn hSeen hPlaces hRemarks hEnding in
/-- A call without edits adds findings for its notes. -/
theorem Reporting.take_told (hEdits : call.edits = [])
    (hUnfixed : ∀ note ∈ notes, (fixing && note.fixable) = false) :
    Reporting check? stands root fixing given (progress.take call) := by
  have hTake : progress.take call = progress.tell call := Progress.take_of_no_edits hEnding hEdits
  have hTree : (progress.take call).tree = progress.tree := by rw [hTake]; rfl
  refine ⟨h.sound.take hAt hFits, by rw [hTree]; exact h.grown, ?_, h.parameters,
    h.told_take hAt hTurn hSeen hRemarks, ?_⟩
  · intro place hPlace
    obtain ⟨other, hOther, hRest⟩ := h.asked place hPlace
    exact ⟨other, by rw [Progress.calls_take]; exact List.mem_append_left _ hOther, hRest⟩
  · rw [Reporting.turns_take hTurn, hTree, hTake, Progress.findings_tell, hRemarks]
    refine List.rel_append h.recorded (Finding.forall₂_ofRemarks (fun note hNote sequence => ?_) _)
    exact ⟨rfl, rfl, rfl, (hUnfixed note hNote).symm,
      h.stands_remark hTracks hRoot (hPlaces note hNote)⟩

include h hAt hFits hEnding in
/-- A call that gives default values to parameters that have none. -/
theorem Reporting.take_draft {targets : List Path} (hSome : targets ≠ [])
    (hLift : call.edits.map (Edit.lift call.site.path) = targets.map giveDefault)
    (hTargets : ∀ target ∈ targets, IsUndefaulted root target) {node : Node}
    (hNode : root.descendant? call.site.path = some node)
    (hGrown : Node.GrownTo emptyHandle node (fun rest => given (call.site.path ++ rest))
      call.site.node) :
    ∃ next, call.draft? = some next ∧
      Edit.redraftAll? progress.tree.root (targets.map giveDefault) =
        some (progress.take call).tree.root ∧
      (∀ draft ∈ Edit.drafts progress.tree.root (targets.map giveDefault),
        draft.size < distanceBound) ∧
      Edit.shifts call.site.node call.edits =
        Edit.shifts progress.tree.root (targets.map giveDefault) := by
  -- The edits name their targets from the visited node on.
  have hEach : ∀ edit ∈ call.edits, edit = giveDefault edit.target ∧
      call.site.path ++ edit.target ∈ targets := by
    intro edit hEdit
    have hMember : edit.lift call.site.path ∈ targets.map giveDefault := by
      rw [← hLift]
      exact List.mem_map_of_mem hEdit
    obtain ⟨target, hTarget, hSame⟩ := List.mem_map.mp hMember
    obtain ⟨hPath, hChange⟩ := Edit.mk.inj hSame
    refine ⟨?_, by rwa [← hPath]⟩
    rw [giveDefault, hChange]
  have hEdits : call.edits = (call.edits.map (·.target)).map giveDefault := by
    rw [List.map_map]
    conv => lhs; rw [← List.map_id call.edits]
    exact List.map_congr_left fun edit hEdit => (hEach edit hEdit).1
  have hInner : ∀ target ∈ call.edits.map (·.target), ∃ parameter,
      node.descendant? target = some parameter ∧ parameter.kind = .parameter ∧
        ∀ part ∈ parameter.children, part.kind ≠ .defaultValue := by
    intro target hTarget
    obtain ⟨edit, hEdit, rfl⟩ := List.mem_map.mp hTarget
    obtain ⟨parameter, hParameter, hRest⟩ := hTargets _ (hEach edit hEdit).2
    rw [Node.descendant?_append, hNode, Option.bind_some] at hParameter
    exact ⟨parameter, hParameter, hRest⟩
  obtain ⟨⟨next, hNext, -⟩, -⟩ := redraftAll?_giveDefault hGrown hInner
  rw [← hEdits] at hNext
  have hNotEmpty : ¬ call.edits.isEmpty = true := by
    rw [List.isEmpty_iff]
    intro hNone
    rw [hNone, List.map_nil] at hLift
    exact hSome (List.map_eq_nil_iff.mp hLift.symm)
  have hDraft : call.draft? = some next := by
    simp only [Call.draft?, hEnding]
    rw [if_neg hNotEmpty, hNext]
  have hChanges : call.changes = targets.map giveDefault := by
    rw [Call.changes, hDraft]
    exact hLift
  obtain ⟨hRedraft, hDrafts, -⟩ := h.sound.take_changes hAt hFits
  obtain ⟨-, hShifts, -⟩ := Edit.redraftAll?_lift h.sound.canonical.wellFormed
    h.sound.canonical.laid hAt.site.2 hNext
  rw [hChanges] at hRedraft hDrafts
  rw [hLift] at hShifts
  exact ⟨next, hDraft, hRedraft, hDrafts, hShifts.symm⟩

include hTracks hRoot h hAt hFits hTurn hSeen hPlaces hRemarks hEnding in
/-- A call that gives default values adds findings for its notes, fixes them and moves all findings
along with their anchors. -/
theorem Reporting.take_fixed (hFixing : fixing = true) {targets : List Path} (hSome : targets ≠ [])
    (hLift : call.edits.map (Edit.lift call.site.path) = targets.map giveDefault)
    (hTargets : ∀ target ∈ targets, IsUndefaulted root target ∧
      ∃ i j, target = call.site.path ++ [i, j])
    (hNodup : targets.Nodup) (hNew : ∀ target ∈ targets, given target = false) {node : Node}
    (hNode : root.descendant? call.site.path = some node)
    (hGrown : Node.GrownTo emptyHandle node (fun rest => given (call.site.path ++ rest))
      call.site.node)
    {settings : HandleDefault.Settings} (hGives : check? call.rule = some (.handleDefault settings))
    (hHook : call.hook = .composable)
    (hPrecedes : ∀ other ∈ progress.calls, other.turn.Precedes call.turn) :
    Reporting check? stands root fixing
      (fun place => decide (place ∈ targets) || given place) (progress.take call) := by
  obtain ⟨next, hDraft, hRedraft, hDrafts, hShifts⟩ := h.take_draft hAt hFits hEnding hSome hLift
    (fun target hTarget => (hTargets target hTarget).1) hNode hGrown
  obtain ⟨⟨last, hLast, hLastGrown⟩, -⟩ := redraftAll?_giveDefault h.grown
    fun target hTarget => (hTargets target hTarget).1
  obtain rfl : last = (progress.take call).tree.root :=
    Option.some.inj (hLast.symm.trans hRedraft)
  obtain ⟨hCanonical, hStart⟩ := h.sound.canonical.root
  have hMoves : ∀ entry ∈ ((progress.take call).calls.map Call.turn).flatMap
      (Turn.notes check? root), ∀ offset,
      stands progress.tree.root (root.anchorPath entry.2.place) offset →
      stands (progress.take call).tree.root (root.anchorPath entry.2.place)
        (Shift.carryAll (Edit.shifts call.site.node call.edits) offset) := by
    intro entry hEntry offset hStands
    obtain ⟨hThere, hApart⟩ := Reporting.apart hPrecedes hEntry
    rw [hShifts]
    refine hTracks.carryAll h.grown hCanonical hStart
      (fun target hTarget => (hTargets target hTarget).1) hNodup hNew hRedraft hDrafts hThere ?_
      hStands
    intro target hTarget hPrefix
    obtain ⟨-, i, j, rfl⟩ := hTargets target hTarget
    exact hApart i j hPrefix
  rw [Reporting.turns_take hTurn, List.forall_mem_append] at hMoves
  refine ⟨h.sound.take hAt hFits, hLastGrown, ?_, ?_, h.told_take hAt hTurn hSeen hRemarks, ?_⟩
  · intro place hPlace
    rw [Progress.calls_take]
    rcases Bool.or_eq_true_iff.mp hPlace with hTarget | hGiven
    · obtain ⟨-, i, j, rfl⟩ := hTargets place (of_decide_eq_true hTarget)
      exact ⟨call, by simp, settings, i, j, hGives, hHook, rfl⟩
    · obtain ⟨other, hOther, hRest⟩ := h.asked place hGiven
      exact ⟨other, List.mem_append_left _ hOther, hRest⟩
  · intro place below hPlace hBelow
    rcases Bool.or_eq_true_iff.mp hPlace with hTarget | hGiven
    · obtain ⟨⟨parameter, hParameter, hKind, -⟩, -⟩ := hTargets place (of_decide_eq_true hTarget)
      obtain rfl : parameter = below := Option.some.inj (hParameter.symm.trans hBelow)
      exact hKind
    · exact h.parameters place below hGiven hBelow
  · rw [Reporting.turns_take hTurn, h.sound.findings_take_of_draft hAt hFits hDraft, hRemarks]
    refine List.rel_append ?_ ?_
    · rw [List.forall₂_map_right_iff]
      refine ((List.forall₂_and_left _ _).mpr ⟨hMoves.1, h.recorded⟩).imp ?_
      rintro entry finding ⟨hMove, hRecords⟩
      exact ⟨hRecords.rule, hRecords.message, hRecords.fixable, hRecords.autoFixed,
        hMove _ hRecords.offset⟩
    · rw [List.forall₂_map_right_iff, List.forall₂_map_right_iff]
      refine Finding.forall₂_ofRemarks (fun note hNote sequence => ?_) _
      refine ⟨rfl, rfl, rfl, ?_, ?_⟩
      · rw [hFixing]
        rfl
      · exact hMoves.2 _ (List.mem_map_of_mem hNote) _
          (h.stands_remark hTracks hRoot (hPlaces note hNote))

end Step

/-- One call of a built-in check. -/
theorem Reporting.take (hTracks : Tracks root stands) (hRoot : root.WellFormed)
    (hOne : ∀ i j settings others, check? i = some (.handleDefault settings) →
      check? j = some (.handleDefault others) → i = j)
    (h : Reporting check? stands root fixing given progress) (hAt : call.IsAt progress)
    (hFits : call.Fits) (hFixing : call.fixing = fixing) (hAnswers : call.Answers check?)
    (hPrecedes : ∀ other ∈ progress.calls, other.turn.Precedes call.turn) :
    ∃ more, Reporting check? stands root fixing more (progress.take call) := by
  obtain ⟨check, subject, hCheck, hSubject, hResponse⟩ := hAnswers
  obtain ⟨node, hNode, hGrown, hNotes, hTurn, hSeen⟩ :=
    h.noted hAt hPrecedes hOne hCheck hSubject
  have hThere : call.site.root.descendant? call.site.path = some call.site.node := by
    rw [hAt.site.1]
    exact hAt.site.2
  have hRemarks : call.response.remarks =
      (check.notes subject ⟨root, call.site.path, node⟩).map (Note.remark progress.tree.root) := by
    rw [hResponse, check.remarks_respond hThere hSubject, hNotes, hAt.site.1]
  have hEnding : call.response.ending.failure? = none := by
    rw [hResponse, check.ending_respond]
    rfl
  have hLift : call.edits.map (Edit.lift call.site.path) =
      if fixing then ((check.notes subject ⟨root, call.site.path, node⟩).filter (·.fixable)).map
        fun note => giveDefault note.place else [] := by
    have hAll := check.lift_edits_respond subject call.site call.fixing
    rw [← hResponse, hNotes, hFixing] at hAll
    rw [Call.edits, hFixing, apply_ite (List.map _), hAll]
    split <;> rfl
  have hPlaces : ∀ note ∈ check.notes subject ⟨root, call.site.path, node⟩,
      (root.descendant? note.place).isSome = true := fun note hNote =>
    (Check.anchorPath_of_mem_notes hNote hNode).1
  by_cases hFixes : fixing = true ∧ ∃ note ∈ check.notes subject ⟨root, call.site.path, node⟩,
      note.fixable = true
  · obtain ⟨hTrue, note, hNote, hFixable⟩ := hFixes
    have hWell : node.WellFormed := hRoot.descendant hNode
    have hTargets : ∀ target ∈ ((check.notes subject ⟨root, call.site.path, node⟩).filter
        (·.fixable)).map (·.place), IsUndefaulted root target ∧
        ∃ i j, target = call.site.path ++ [i, j] := by
      intro target hTarget
      obtain ⟨other, hOther, rfl⟩ := List.mem_map.mp hTarget
      obtain ⟨hMember, hOtherFixable⟩ := List.mem_filter.mp hOther
      obtain ⟨i, j, parameter, hPlace, hParameter, hKind, hNone⟩ :=
        Check.exists_parameter_of_fixable hMember hOtherFixable hWell
      refine ⟨⟨parameter, ?_, hKind, hNone⟩, i, j, hPlace⟩
      rw [hPlace, Node.descendant?_append, hNode, Option.bind_some]
      exact hParameter
    obtain ⟨hFalse, -⟩ | ⟨-, settings, header, rfl, rfl, -⟩ := Check.place_of_mem_notes hNote
    · rw [hFalse] at hFixable
      cases hFixable
    · refine ⟨_, h.take_fixed hTracks hRoot hAt hFits hTurn hSeen hPlaces hRemarks hEnding hTrue ?_
        (by rw [hLift, if_pos hTrue, List.map_map]; rfl) hTargets (Check.nodup_fixable ..) ?_ hNode
        hGrown hCheck (Subject.hook_of_of? hSubject).symm hPrecedes⟩
      · exact List.ne_nil_of_mem (List.mem_map_of_mem (List.mem_filter.mpr ⟨hNote, hFixable⟩))
      · intro target hTarget
        obtain ⟨-, i, j, rfl⟩ := hTargets target hTarget
        exact h.untouched hPrecedes hOne hCheck hSubject rfl i j
  · have hUnfixed : ∀ note ∈ check.notes subject ⟨root, call.site.path, node⟩,
        (fixing && note.fixable) = false := by
      intro note hNote
      rw [Bool.eq_false_iff, Ne, Bool.and_eq_true]
      exact fun hBoth => hFixes ⟨hBoth.1, note, hNote, hBoth.2⟩
    refine ⟨given,
      h.take_told hTracks hRoot hAt hFits hTurn hSeen hPlaces hRemarks hEnding ?_ hUnfixed⟩
    rw [← List.map_eq_nil_iff (f := Edit.lift call.site.path), hLift]
    split
    · rename_i hTrue
      rw [List.map_eq_nil_iff, List.filter_eq_nil_iff]
      intro note hNote hFixable
      exact hFixes ⟨hTrue, note, hNote, hFixable⟩
    · rfl

end Call

/-- The calls of a run of checks, as far as they are made for nodes that suit their hooks. -/
theorem answers_runRules {check? : Nat → Option Check} {rules : List ActiveRule}
    (hRules : ∀ rule ∈ rules, ∃ check, check? rule.index = some check ∧
      rule.visitor = .stateless check.respond) (tree : SourceTree) (fixing : Bool) :
    ∀ call ∈ (runRules rules tree fixing).calls, call.fixing = fixing ∧
      ∀ subject, Subject.of? call.hook call.site.node.payload = some subject →
        call.Answers check? := by
  unfold runRules
  apply And.right
  refine Run.walk_induction (P := fun run => run.rules = rules ∧
    ∀ call ∈ run.progress.calls, call.fixing = fixing ∧
      ∀ subject, Subject.of? call.hook call.site.node.payload = some subject →
        call.Answers check?) fixing ?_ ⟨rfl, by simp⟩
  rintro run place rule hook site ⟨rfl, hBefore⟩ - hRule -
  obtain ⟨check, hCheck, hVisit⟩ := hRules rule (List.mem_of_getElem? hRule)
  obtain ⟨hSame, hAnswer⟩ := ActiveRule.answer_of_stateless hVisit fixing hook site
  constructor
  · obtain ⟨hPlace, rfl⟩ := List.getElem?_eq_some_iff.mp hRule
    rw [Run.serve, hSame, List.set_getElem_self]
  · rw [Run.serve, Progress.calls_take, List.forall_mem_append, List.forall_mem_singleton]
    refine ⟨hBefore, rfl, fun subject hSubject => ?_⟩
    exact ⟨check, subject, hCheck, hSubject, hAnswer subject hSubject⟩

/-- A run of checks over a file, of which at most one gives default values. Its findings stand for what
the checks have to say about the file, turn by turn. -/
theorem reporting_runRules {check? : Nat → Option Check} {stands : Node → Path → Nat → Prop}
    {rules : List ActiveRule} {tree : SourceTree} {fixing : Bool}
    (hTracks : Tracks tree.root stands) (hTree : tree.Canonical) (hFile : tree.root.kind = .file)
    (hFits : tree.root.size < distanceBound)
    (hRules : ∀ rule ∈ rules, ∃ check, check? rule.index = some check ∧
      rule.visitor = .stateless check.respond)
    (hOrder : rules.Pairwise fun first second => first.index < second.index)
    (hOne : ∀ i j settings others, check? i = some (.handleDefault settings) →
      check? j = some (.handleDefault others) → i = j)
    (hCalls : ∀ call ∈ (runRules rules tree fixing).calls, call.Fits)
    (hTurns : (runRules rules tree fixing).calls.map Call.turn = schedule rules tree.root) :
    ∃ given, Reporting check? stands tree.root fixing given (runRules rules tree fixing) := by
  have hAnswers : ∀ call ∈ (runRules rules tree fixing).calls, call.Answers check? := by
    intro call hCall
    have hTurn : call.turn ∈ schedule rules tree.root := by
      rw [← hTurns]
      exact List.mem_map_of_mem hCall
    obtain ⟨subject, hSubject⟩ := exists_subject_of_mem_schedule hTree.wellFormed hFile hTurn
    exact (answers_runRules hRules tree fixing call hCall).2 subject hSubject
  have hPairwise := pairwise_schedule hOrder hFile
  rw [← hTurns] at hPairwise
  refine runRules_induction (P := fun progress =>
    (∀ call ∈ progress.calls, call.Fits) → (∀ call ∈ progress.calls, call.Answers check?) →
      (progress.calls.map Call.turn).Pairwise Turn.Precedes →
      ∃ given, Reporting check? stands tree.root fixing given progress) fixing ?_ rules
    (fun rule => List.mem_map_of_mem) tree ?_ hCalls hAnswers hPairwise
  · intro progress call hBefore _ hFixing _ hAt hAllFit hAllAnswer hAllOrdered
    rw [Progress.calls_take, List.forall_mem_append, List.forall_mem_singleton] at hAllFit hAllAnswer
    rw [Progress.calls_take, List.map_append, List.map_singleton, List.pairwise_append] at hAllOrdered
    obtain ⟨hOrdered, -, hLast⟩ := hAllOrdered
    obtain ⟨given, hGiven⟩ := hBefore hAllFit.1 hAllAnswer.1 hOrdered
    refine hGiven.take hTracks hTree.wellFormed hOne hAt hAllFit.2 hFixing hAllAnswer.2 ?_
    intro other hOther
    exact hLast other.turn (List.mem_map_of_mem hOther) call.turn (by simp)
  · intro _ _ _
    have hNone : ChoosesParameters tree.root fun _ => false := by simp [ChoosesParameters]
    exact ⟨fun _ => false, ⟨rfl, hTree, hFits⟩, Node.grownTo_self emptyHandle tree.root, by simp,
      hNone, by simp, .nil⟩

end UiLint
