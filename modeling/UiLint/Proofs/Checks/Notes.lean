import UiLint.Checks.HandleMissing
import UiLint.Checks.ParameterOrder
import UiLint.Proofs.Checks.Parts
import UiLint.Proofs.Engine.History

/-! What the built-in checks have to say about a file, told by the nodes that it is said about and not
by offsets. A check that is called while the file changes has the same to say as it had at the start,
as long as no default value has been given to the parameters that it looks at. -/
namespace UiLint

open HandleDefault

namespace Node

/-- Where findings about a node are placed: at the name of a function, and at the start of any other
node. -/
def anchor (node : Node) : Nat :=
  match node.payload with
  | .function header => node.nameOffset header.name
  | _ => node.span.start

/-- Where findings about the node at a path are placed. -/
def anchorAt (root : Node) (place : Path) : Nat :=
  ((root.descendant? place).map anchor).getD 0

/-- The way from a node to what findings about it are placed at. -/
def anchorStep (node : Node) : Path :=
  match node.payload with
  | .function header => node.namePath header.name
  | _ => []

/-- The way to what findings about the node at a path are placed at. -/
def anchorPath (root : Node) (place : Path) : Path :=
  place ++ (root.descendant? place).elim [] anchorStep

theorem anchor_eq (node : Node) :
    ∃ below, node.descendant? node.anchorStep = some below ∧ node.anchor = below.span.start := by
  unfold anchor anchorStep
  split
  · exact node.nameOffset_eq _
  · exact ⟨node, rfl, rfl⟩

theorem length_anchorStep_le (node : Node) : node.anchorStep.length ≤ 1 := by
  unfold anchorStep
  split
  · exact node.length_namePath_le _
  · exact Nat.zero_le 1

theorem descendant?_anchorPath {root node : Node} {place : Path}
    (hNode : root.descendant? place = some node) :
    ∃ below, root.descendant? (root.anchorPath place) = some below ∧
      root.anchorAt place = below.span.start := by
  obtain ⟨below, hBelow, hAnchor⟩ := node.anchor_eq
  refine ⟨below, ?_, ?_⟩
  · rw [anchorPath, descendant?_append, hNode, Option.bind_some, Option.elim_some, hBelow]
  · rw [anchorAt, hNode, Option.map_some, Option.getD_some, hAnchor]

/-- In a canonical file, findings about a node are placed where the way to their anchor leads. -/
theorem anchorAt_eq_offsetAt {root node : Node} (h : root.Canonical) (hStart : root.span.start = 0)
    {place : Path} (hNode : root.descendant? place = some node) :
    root.anchorAt place = root.offsetAt (root.anchorPath place) := by
  obtain ⟨below, hThere, hAnchor⟩ := descendant?_anchorPath hNode
  rw [hAnchor, (h.descendant hThere).2, hStart, Nat.zero_add]

end Node

/-- Growth does not change the way to an anchor. -/
theorem anchorPath_grown {root grown node : Node} {chosen : Path → Bool}
    (h : Node.GrownTo emptyHandle root chosen grown) (hOn : ChoosesParameters root chosen)
    (hRoot : root.WellFormed) {place : Path} (hNode : root.descendant? place = some node) :
    grown.anchorPath place = root.anchorPath place := by
  obtain ⟨found, hFound, hGrown⟩ := h.descendant hNode
  rw [Node.anchorPath, Node.anchorPath, hFound, hNode, Option.elim_some, Option.elim_some,
    Node.anchorStep, Node.anchorStep, hGrown.payload]
  cases hPayload : node.payload with
  | function header =>
      have hFits := (hRoot.descendant hNode).fits
      rw [hPayload] at hFits
      have hKind : node.kind ≠ .parameter := by
        rw [eq_of_beq hFits]
        decide
      have hNot := (hOn.descendant hNode).not_chosen hKind
      simp only
      rw [Node.namePath_congr header.name (map_children_grown hGrown hNot fun _ _ _ _ hPart => by
        rw [hPart.kind, hPart.payload])]
  | _ => rfl

/-- Something that a check has to say about a node: the path of the node from the root, what is
said, and whether the check can fix it. -/
structure Note where
  place : Path
  message : String
  fixable : Bool
  deriving DecidableEq

/-- The remark that a note amounts to in a file. -/
def Note.remark (root : Node) (note : Note) : Remark :=
  ⟨root.anchorAt note.place, note.message, note.fixable⟩

/-- A built-in check with the options that it reads. -/
inductive Check where
  | handleDefault (settings : HandleDefault.Settings)
  | handleMissing (settings : HandleMissing.Settings)
  | parameterOrder (aliases : NameSet)

namespace Check

/-- What the check answers when it is called. -/
def respond : Check → Visit → Response
  | handleDefault settings => HandleDefault.check settings
  | handleMissing settings => HandleMissing.check settings
  | parameterOrder aliases => ParameterOrder.check aliases

/-- What the check has to say about the node at a site: about each handle without default, about a
function that takes no handle, or about one whose parameters stand in another order. -/
def notes : Check → Subject → Site → List Note
  | handleDefault settings, .composable header, site =>
      if HandleDefault.isExempt settings header site then []
      else (missing settings site.node).map fun parameter =>
        ⟨site.path ++ parameter.path, HandleDefault.message, true⟩
  | handleMissing settings, .composable header, site =>
      if HandleMissing.isExempt settings header site ||
          (HandleMissing.handle? settings.aliases site.node).isSome then []
      else if settings.emitters.isEmitting site.node then
        [⟨site.path, HandleMissing.message, false⟩]
      else []
  | parameterOrder aliases, .function _, site =>
      let current := site.node.parameters
      let sorted := ParameterOrder.expected aliases current
      if current.map (·.path) = sorted.map (·.path) then []
      else [⟨site.path, ParameterOrder.message current sorted, false⟩]
  | _, _, _ => []

/-- Whether the check looks at which parameters have a default value. -/
def readsDefaults : Check → Subject → Bool
  | handleDefault _, .composable _ => true
  | parameterOrder _, .function _ => true
  | _, _ => false

end Check

theorem Node.mem_parameters {node : Node} {parameter : Placed ParameterHeader}
    (hParameter : parameter ∈ node.parameters) :
    ∃ i j, parameter.path = [i, j] ∧ node.descendant? [i, j] = some parameter.node ∧
      parameter.node.payload = .parameter parameter.header := by
  rw [parameters] at hParameter
  split at hParameter
  · cases hParameter
  · rename_i list i hList
    obtain ⟨part, hPart, rfl⟩ := List.mem_map.mp hParameter
    obtain ⟨j, hPath, hChild, -, hHeader⟩ := mem_partsWith.mp hPart
    obtain ⟨hAt, -, -⟩ := firstOfKind?_eq_some_iff.mp hList
    refine ⟨i, j, by rw [hPath], ?_, ?_⟩
    · rw [descendant?_cons, hAt, Option.bind_some, descendant?_cons, hChild]
      rfl
    · cases hPayload : part.node.payload <;> simp_all [Payload.parameterHeader?]

theorem Subject.hook_of_of? {hook : Hook} {payload : Payload} {subject : Subject}
    (hSubject : Subject.of? hook payload = some subject) : subject.hook = hook := by
  cases hook <;> cases payload <;> cases hSubject <;> rfl

/-- The payload of a node that a check is called for as a function. -/
theorem Subject.payload_of_of? {hook : Hook} {payload : Payload} {subject : Subject}
    (hSubject : Subject.of? hook payload = some subject) {header : FunctionHeader}
    (hHeader : subject = .function header ∨ subject = .composable header) :
    payload = .function header := by
  rcases hHeader with rfl | rfl <;> cases hook <;> cases payload <;> cases hSubject <;> rfl

section Answer

variable {site : Site} (hSite : site.root.descendant? site.path = some site.node)
  {hook : Hook} {subject : Subject} (hSubject : Subject.of? hook site.node.payload = some subject)

theorem Check.ending_respond (check : Check) (visit : Visit) : (check.respond visit).ending = .done := by
  cases check with
  | handleDefault settings =>
      show (HandleDefault.check settings visit).ending = .done
      unfold HandleDefault.check
      split
      · split <;> rfl
      · rfl
  | handleMissing settings =>
      show (HandleMissing.check settings visit).ending = .done
      unfold HandleMissing.check
      split
      · dsimp only
        split
        · rfl
        · split <;> rfl
      · rfl
  | parameterOrder aliases =>
      show (ParameterOrder.check aliases visit).ending = .done
      unfold ParameterOrder.check
      split
      · dsimp only
        split <;> rfl
      · rfl

include hSite hSubject in
/-- The remarks of a check are its notes, placed in the file as it is. -/
theorem Check.remarks_respond (check : Check) (fixing : Bool) :
    (check.respond ⟨subject, site, fixing⟩).remarks =
      (check.notes subject site).map (Note.remark site.root) := by
  have hHere : ∀ header, subject = .function header ∨ subject = .composable header →
      site.root.anchorAt site.path = site.node.nameOffset header.name := by
    intro header hHeader
    rw [Node.anchorAt, hSite, Option.map_some, Option.getD_some, Node.anchor,
      Subject.payload_of_of? hSubject hHeader]
  cases check with
  | handleDefault settings =>
      cases subject with
      | composable header =>
          simp only [respond, HandleDefault.check, notes]
          split
          · rfl
          · rw [List.map_map]
            apply List.map_congr_left
            intro parameter hParameter
            obtain ⟨i, j, hPath, hNode, hPayload⟩ :=
              Node.mem_parameters (List.mem_of_mem_filter hParameter)
            have hThere : site.root.anchorAt (site.path ++ parameter.path) =
                parameter.node.span.start := by
              rw [Node.anchorAt, Node.descendant?_append, hSite, Option.bind_some, hPath, hNode,
                Option.map_some, Option.getD_some, Node.anchor, hPayload]
            simp only [Function.comp_apply, Note.remark, hThere]
      | _ => rfl
  | handleMissing settings =>
      cases subject with
      | composable header =>
          simp only [respond, HandleMissing.check, notes]
          split
          · rfl
          · split
            · simp only [List.map_cons, List.map_nil, Note.remark, hHere header (.inr rfl)]
            · rfl
      | _ => rfl
  | parameterOrder aliases =>
      cases subject with
      | function header =>
          simp only [respond, ParameterOrder.check, notes]
          split
          · rfl
          · simp only [List.map_cons, List.map_nil, Note.remark, hHere header (.inl rfl)]
      | _ => rfl

/-- A check that may fix gives a default value to what it notes as fixable. -/
theorem Check.lift_edits_respond (check : Check) (subject : Subject) (site : Site) (fixing : Bool) :
    (check.respond ⟨subject, site, fixing⟩).edits.map (Edit.lift site.path) =
      if fixing then
        ((check.notes subject site).filter (·.fixable)).map fun note => giveDefault note.place
      else [] := by
  cases check with
  | handleDefault settings =>
      cases subject with
      | composable header =>
          simp only [respond, HandleDefault.check, notes]
          cases fixing <;> split <;>
            simp [List.filter_map, Function.comp_def, Edit.lift, giveDefault]
      | _ => simp [respond, HandleDefault.check, notes]
  | handleMissing settings =>
      cases subject with
      | composable header =>
          simp only [respond, HandleMissing.check, notes]
          cases fixing <;> split
          · rfl
          · split <;> rfl
          · rfl
          · split <;> rfl
      | _ => simp [respond, HandleMissing.check, notes]
  | parameterOrder aliases =>
      cases subject with
      | function header =>
          simp only [respond, ParameterOrder.check, notes]
          cases fixing <;> split <;> rfl
      | _ => simp [respond, ParameterOrder.check, notes]

end Answer

namespace Check

variable {check : Check} {subject : Subject} {site : Site} {note : Note}

/-- A note is about the function that the check is called for or, if it can be fixed, about a handle
of that function without default. Only the check for default values notes the latter. -/
theorem place_of_mem_notes (hNote : note ∈ check.notes subject site) :
    (note.fixable = false ∧ note.place = site.path ∧
        (∃ header, subject = .function header ∨ subject = .composable header) ∧
        ∀ settings, check ≠ .handleDefault settings) ∨
      (note.fixable = true ∧ ∃ settings header, check = .handleDefault settings ∧
        subject = .composable header ∧
        ∃ parameter ∈ missing settings site.node, note.place = site.path ++ parameter.path) := by
  cases check with
  | handleDefault settings =>
      cases subject with
      | composable header =>
          simp only [notes] at hNote
          split at hNote
          · cases hNote
          · obtain ⟨parameter, hParameter, rfl⟩ := List.mem_map.mp hNote
            exact .inr ⟨rfl, settings, header, rfl, rfl, parameter, hParameter, rfl⟩
      | _ => cases hNote
  | handleMissing settings =>
      cases subject with
      | composable header =>
          simp only [notes] at hNote
          split at hNote
          · cases hNote
          · split at hNote
            · rw [List.mem_singleton.mp hNote]
              exact .inl ⟨rfl, rfl, ⟨header, .inr rfl⟩, by simp⟩
            · cases hNote
      | _ => cases hNote
  | parameterOrder aliases =>
      cases subject with
      | function header =>
          simp only [notes] at hNote
          split at hNote
          · cases hNote
          · rw [List.mem_singleton.mp hNote]
            exact .inl ⟨rfl, rfl, ⟨header, .inl rfl⟩, by simp⟩
      | _ => cases hNote

/-- What can be fixed is a parameter without default two levels below the function. -/
theorem exists_parameter_of_fixable (hNote : note ∈ check.notes subject site)
    (hFixable : note.fixable = true) (hWell : site.node.WellFormed) :
    ∃ i j parameter, note.place = site.path ++ [i, j] ∧
      site.node.descendant? [i, j] = some parameter ∧ parameter.kind = .parameter ∧
      ∀ part ∈ parameter.children, part.kind ≠ .defaultValue := by
  rcases place_of_mem_notes hNote with
    ⟨hNot, -⟩ | ⟨-, settings, header, -, -, found, hFound, hPlace⟩
  · rw [hNot] at hFixable
    cases hFixable
  · obtain ⟨i, j, list, parameter, hLacks, hPath⟩ := (mem_missing_iff hWell).mp ⟨found, hFound, rfl⟩
    exact ⟨i, j, parameter, by rw [hPlace, hPath], hLacks.descendant?, hLacks.kind_eq hWell,
      hLacks.undefaulted⟩

/-- The anchor of a note is at most two levels below the function that the check is called for. -/
theorem anchorPath_of_mem_notes (hNote : note ∈ check.notes subject site)
    (hSite : site.root.descendant? site.path = some site.node) :
    (site.root.descendant? note.place).isSome = true ∧
      ∃ rest, site.root.anchorPath note.place = site.path ++ rest ∧ rest.length ≤ 2 := by
  rcases place_of_mem_notes hNote with
    ⟨-, hPlace, -⟩ | ⟨-, settings, header, -, -, found, hFound, hPlace⟩
  · have hLength := site.node.length_anchorStep_le
    rw [hPlace, hSite]
    refine ⟨rfl, site.node.anchorStep, ?_, by omega⟩
    rw [Node.anchorPath, hSite, Option.elim_some]
  · obtain ⟨i, j, hPath, hNode, hPayload⟩ := Node.mem_parameters (List.mem_of_mem_filter hFound)
    have hThere : site.root.descendant? note.place = some found.node := by
      rw [hPlace, Node.descendant?_append, hSite, Option.bind_some, hPath, hNode]
    rw [Node.anchorPath, hThere, Option.elim_some, Node.anchorStep, hPayload]
    exact ⟨rfl, [i, j], by rw [hPlace, hPath, List.append_nil], Nat.le_refl 2⟩

end Check

theorem Node.nodup_map_path_partsWith {Header : Type} (header? : Payload → Option Header)
    (node : Node) : ((node.partsWith header?).map (·.path)).Nodup := by
  have hParts := congrArg (List.map (·.1)) (node.map_partsWith header? fun _ => ())
  rw [List.map_map, List.map_filterMap] at hParts
  have hIndices : (node.children.map fun child => (child.kind, child.payload, ())).zipIdx.Pairwise
      fun first second => first.2 ≠ second.2 := by
    rw [← List.pairwise_map, List.zipIdx_map_snd]
    exact List.nodup_range'
  rw [show (node.partsWith header?).map (·.path) = _ from hParts, List.Nodup,
    List.pairwise_filterMap]
  refine hIndices.imp fun hOther path hPath other hSecond => ?_
  simp only [Option.map_eq_some_iff, Option.ite_none_right_eq_some] at hPath hSecond
  obtain ⟨_, ⟨-, _, -, rfl⟩, rfl⟩ := hPath
  obtain ⟨_, ⟨-, _, -, rfl⟩, rfl⟩ := hSecond
  simpa using hOther

theorem Node.nodup_map_path_parameters (node : Node) : (node.parameters.map (·.path)).Nodup := by
  rw [parameters]
  cases node.parameterList? with
  | none => exact .nil
  | some entry =>
      obtain ⟨list, index⟩ := entry
      have hParts := list.nodup_map_path_partsWith Payload.parameterHeader?
      have hBelow : (((list.partsWith Payload.parameterHeader?).map (·.path)).map
          (index :: ·)).Nodup := by
        rw [List.Nodup, List.pairwise_map]
        exact List.Pairwise.imp (fun hOther hSame => hOther (List.cons.inj hSame).2) hParts
      simpa only [List.map_map, Function.comp_def] using hBelow

/-- No parameter is noted twice. -/
theorem Check.nodup_fixable (check : Check) (subject : Subject) (site : Site) :
    (((check.notes subject site).filter (·.fixable)).map (·.place)).Nodup := by
  cases hFixable : (check.notes subject site).filter (·.fixable) with
  | nil => exact .nil
  | cons note notes =>
      have hNote : note ∈ (check.notes subject site).filter (·.fixable) := by simp [hFixable]
      obtain ⟨hMember, hTrue⟩ := List.mem_filter.mp hNote
      rcases place_of_mem_notes hMember with ⟨hFalse, -⟩ | ⟨-, settings, header, rfl, rfl, -⟩
      · rw [hFalse] at hTrue
        cases hTrue
      · rw [← hFixable]
        simp only [Check.notes]
        split
        · exact .nil
        · have hPaths := ((List.filter_sublist (p := fun parameter : Placed ParameterHeader =>
            parameter.header.isStylingHandle settings.aliases && !parameter.node.hasDefault)).map
            (·.path)).nodup site.node.nodup_map_path_parameters
          have hPlaces : (((missing settings site.node).map (·.path)).map (site.path ++ ·)).Nodup := by
            rw [List.Nodup, List.pairwise_map]
            exact List.Pairwise.imp (fun hOther hSame => hOther (List.append_cancel_left hSame)) hPaths
          simpa [List.filter_map, Function.comp_def, missing] using hPlaces

/-- What the checks read of a parameter. -/
def Placed.reading (parameter : Placed ParameterHeader) : Path × ParameterHeader × Bool :=
  (parameter.path, parameter.header, parameter.node.hasDefault)

theorem HandleDefault.map_path_missing (settings : HandleDefault.Settings) (function : Node) :
    (missing settings function).map (·.path) =
      ((function.parameters.map Placed.reading).filter fun reading =>
        reading.2.1.isStylingHandle settings.aliases && !reading.2.2).map (·.1) := by
  simp only [missing, List.filter_map, List.map_map, Function.comp_def, Placed.reading]

/-- The order in which parameters should stand depends on what is read of them. -/
theorem ParameterOrder.map_expected_congr (aliases : NameSet)
    {first second : List (Placed ParameterHeader)}
    (hSame : first.map Placed.reading = second.map Placed.reading) :
    (expected aliases first).map Placed.reading = (expected aliases second).map Placed.reading := by
  obtain ⟨groupOf, hGroup⟩ : ∃ groupOf : Path × ParameterHeader × Bool → Bool → Group,
      ∀ parameter isLast, group aliases parameter isLast = groupOf parameter.reading isLast :=
    ⟨fun reading isLast =>
      let isHandle := reading.2.1.isStylingHandle aliases
      if isLast && reading.2.1.isFunctionType && !isHandle then .trailingLambda
      else if !reading.2.2 then .required
      else if isHandle then .stylingHandle
      else .defaulted, fun _ _ => rfl⟩
  have hExpected : ∀ parameters : List (Placed ParameterHeader),
      (expected aliases parameters).map Placed.reading =
        ((((parameters.map Placed.reading).zipIdx.map fun entry =>
          (groupOf entry.1 (entry.2 + 1 == (parameters.map Placed.reading).length), entry.1))).mergeSort
            fun first second => decide (first.1.rank ≤ second.1.rank)).map (·.2) := by
    intro parameters
    have hSort := List.map_mergeSort (l := grouped aliases parameters)
      (r := fun first second => decide (first.1.rank ≤ second.1.rank))
      (s := fun first second => decide (first.1.rank ≤ second.1.rank))
      (f := Prod.map id Placed.reading) fun _ _ _ _ => rfl
    rw [expected, List.map_map, List.zipIdx_map, List.map_map, List.length_map]
    have hGrouped : (grouped aliases parameters).map (Prod.map id Placed.reading) =
        parameters.zipIdx.map ((fun entry => (groupOf entry.1 (entry.2 + 1 == parameters.length),
          entry.1)) ∘ Prod.map Placed.reading id) := by
      rw [grouped, List.map_map]
      apply List.map_congr_left
      intro entry _
      simp only [Function.comp_apply, Prod.map_apply, id_eq, hGroup]
      rfl
    rw [← hGrouped, ← hSort, List.map_map]
    rfl
  rw [hExpected, hExpected, hSame]

theorem ParameterOrder.names_congr {first second : List (Placed ParameterHeader)}
    (hSame : first.map Placed.reading = second.map Placed.reading) : names first = names second := by
  have hNames := congrArg (List.map (·.2.1.name)) hSame
  simp only [List.map_map, Function.comp_def, Placed.reading] at hNames
  rw [names, names, hNames]

section Growth

variable {root grown : Node} {chosen : Path → Bool} (h : Node.GrownTo emptyHandle root chosen grown)
  (hOn : ChoosesParameters root chosen) {path : Path} {node found : Node}
  (hNode : root.descendant? path = some node) (hFound : grown.descendant? path = some found)
include h hOn hNode hFound

/-- The parameters of a function are read as before, unless one has been given a default value. -/
theorem map_reading_grown (hStill : ∀ i j, chosen (path ++ [i, j]) = false) :
    found.parameters.map Placed.reading = node.parameters.map Placed.reading := by
  obtain ⟨there, hThere, hGrown⟩ := h.descendant hNode
  obtain rfl : there = found := Option.some.inj (hThere.symm.trans hFound)
  refine map_parameters_grown hGrown (hOn.descendant hNode) Node.hasDefault ?_
  intro i j part grownPart hPart
  exact hasDefault_grown hPart (hStill i j)

theorem isSome_handle?_grown (aliases : NameSet) :
    (HandleMissing.handle? aliases found).isSome = (HandleMissing.handle? aliases node).isSome := by
  obtain ⟨there, hThere, hGrown⟩ := h.descendant hNode
  obtain rfl : there = found := Option.some.inj (hThere.symm.trans hFound)
  have hHeaders := map_parameters_grown hGrown (hOn.descendant hNode) (fun _ => ())
    fun _ _ _ _ _ => rfl
  have hAny : ∀ function : Node, (HandleMissing.handle? aliases function).isSome =
      (function.parameters.map fun part => (part.path, part.header, ())).any
        fun reading => reading.2.1.isStylingHandle aliases := by
    intro function
    simp only [HandleMissing.handle?, List.isSome_find?, List.any_map, Function.comp_def]
  rw [hAny, hAny, hHeaders]

theorem isEmitting_grown (emitters : ContentEmitters) :
    emitters.isEmitting found = emitters.isEmitting node := by
  obtain ⟨there, hThere, hGrown⟩ := h.descendant hNode
  obtain rfl : there = found := Option.some.inj (hThere.symm.trans hFound)
  have hCalls := map_statementCalls_grown hGrown (hOn.descendant hNode)
  have hAny : ∀ function : Node, emitters.isEmitting function =
      (function.statementCalls.map (·.header)).any emitters.emits := by
    intro function
    simp only [ContentEmitters.isEmitting, List.any_map, Function.comp_def]
  rw [hAny, hAny, hCalls]

/-- A check has the same to say as before, unless it looks at default values and one of the
parameters has been given one. -/
theorem Check.notes_grown (check : Check) (subject : Subject)
    (hStill : check.readsDefaults subject = true → ∀ i j, chosen (path ++ [i, j]) = false) :
    check.notes subject ⟨grown, path, found⟩ = check.notes subject ⟨root, path, node⟩ := by
  have hThere : (root.descendant? path).isSome = true := by rw [hNode]; rfl
  cases check with
  | handleDefault settings =>
      cases subject with
      | composable header =>
          have hPaths := HandleDefault.map_path_missing settings found
          rw [map_reading_grown h hOn hNode hFound (hStill rfl),
            ← HandleDefault.map_path_missing] at hPaths
          have hNotes := congrArg (List.map fun target =>
            (⟨path ++ target, HandleDefault.message, true⟩ : Note)) hPaths
          simp only [List.map_map, Function.comp_def] at hNotes
          simp only [notes]
          rw [isExempt_grown h settings header hThere found node, hNotes]
      | _ => rfl
  | handleMissing settings =>
      cases subject with
      | composable header =>
          have hExempt : HandleMissing.isExempt settings header ⟨grown, path, found⟩ =
              HandleMissing.isExempt settings header ⟨root, path, node⟩ := by
            rw [HandleMissing.isExempt, HandleMissing.isExempt, isInInterface_grown h hThere found node]
          simp only [notes]
          rw [hExempt, isSome_handle?_grown h hOn hNode hFound, isEmitting_grown h hOn hNode hFound]
      | _ => rfl
  | parameterOrder aliases =>
      cases subject with
      | function header =>
          have hReading := map_reading_grown h hOn hNode hFound (hStill rfl)
          have hExpected := ParameterOrder.map_expected_congr aliases hReading
          have hCurrent := congrArg (List.map (·.1)) hReading
          have hSorted := congrArg (List.map (·.1)) hExpected
          simp only [List.map_map, Function.comp_def, Placed.reading] at hCurrent hSorted
          have hMessage : ParameterOrder.message found.parameters
              (ParameterOrder.expected aliases found.parameters) =
              ParameterOrder.message node.parameters
                (ParameterOrder.expected aliases node.parameters) := by
            unfold ParameterOrder.message
            rw [ParameterOrder.names_congr hReading, ParameterOrder.names_congr hExpected]
          simp only [notes]
          rw [hCurrent, hSorted, hMessage]
      | _ => rfl

end Growth

end UiLint
