import UiLint.Proofs.Checks.PresetRun
import UiLint.Proofs.Engine.Anchor
import UiLint.Proofs.Sketch.Build

/-! Where a run that fixes places its violations. All parameters having text, a violation ends up at
the parameter or at the name of the function that it was reported for, whatever has been inserted
before, between and after them in the meantime. -/
namespace UiLint

open HandleDefault

/-- Of the anchors that a parameter with text does not lie around, those that come after its last
child are those at or behind its end. -/
theorem Node.order_lt_iff_stop_le {file parameter : Node} (h : file.Canonical)
    (hStart : file.span.start = 0) {target place : Path}
    (hParameter : file.descendant? target = some parameter) (hText : 0 < parameter.size)
    (hPlace : (file.descendant? place).isSome = true) (hApart : target <+: place → target = place) :
    (target.child parameter.children.length).order place = .lt ↔
      parameter.span.stop ≤ file.offsetAt place := by
  obtain ⟨hInner, hAt⟩ := h.descendant hParameter
  have hStop : parameter.span.stop = file.offsetAt target + parameter.size := by
    rw [hInner.stop_eq, hAt, hStart, Nat.zero_add]
  rw [hStop]
  by_cases hInside : target <+: place
  · obtain rfl := hApart hInside
    refine iff_of_false (Path.order_ne_lt_of_prefix (List.prefix_append target _)) ?_
    omega
  · have hOrder : (target.child parameter.children.length).order place = target.order place :=
      Path.order_append_left hInside _
    rw [hOrder]
    constructor
    · exact fun hLess =>
        offsetAt_add_size_le_of_order h.wellFormed hParameter hInside hLess hPlace
    · intro hBehind
      by_contra hNot
      obtain ⟨below, hBelow⟩ := Option.isSome_iff_exists.mp hPlace
      -- What is above the parameter or before it starts no later than the parameter does.
      have hBefore : file.offsetAt place ≤ file.offsetAt target := by
        by_cases hAbove : place <+: target
        · obtain ⟨rest, rfl⟩ := hAbove
          rw [offsetAt_append hBelow]
          exact Nat.le_add_right _ _
        · have hLess := (Path.order_lt_or_lt hInside hAbove).resolve_left hNot
          have hEnd := offsetAt_add_size_le_of_order h.wellFormed hBelow hAbove hLess
            (by rw [hParameter]; rfl)
          omega
      omega

/-- Findings stay at their anchors while default values are given to parameters with text. -/
theorem tracks_offsetAt {root : Node} (hText : root.ParametersHaveText) :
    Tracks root fun file place offset => offset = file.offsetAt place where
  fresh _ _ _ _ := rfl
  kept {chosen grown parameter target place offset} hGrown hCanonical hStart hParameter hKind hTarget
      hPlace hApart hFits hOffset := by
    obtain ⟨below, hBelow⟩ := Option.isSome_iff_exists.mp hPlace
    obtain ⟨found, hFound, -⟩ := hGrown.descendant hBelow
    have hThere : (grown.descendant? place).isSome = true := by rw [hFound]; rfl
    have hSize : 0 < parameter.size := by
      obtain ⟨old, hOld⟩ := Option.isSome_iff_exists.mp hTarget
      obtain ⟨same, hSame, hOldGrown⟩ := hGrown.descendant hOld
      obtain rfl : same = parameter := Option.some.inj (hSame.symm.trans hParameter)
      have hOldText := hText target old hOld (by rw [← hOldGrown.kind, hKind])
      have hOldSize : 0 < old.size := by
        rw [Node.size, Nat.pos_iff_ne_zero]
        simpa using hOldText
      exact Nat.lt_of_lt_of_le hOldSize hOldGrown.size_le
    have hMoved : ((grown.replaceAt target (withHandle parameter)).offsetAt place : Int) = _ :=
      Edit.offsetAt_append hCanonical.wellFormed hParameter emptyHandle hThere
    rw [← withHandle] at hMoved
    have hIff := Node.order_lt_iff_stop_le hCanonical hStart hParameter hSize hThere hApart
    have hInside := Node.offsetAt_add_size_le hCanonical.wellFormed hFound
    have hBound : distanceBound < offsetBound := by decide
    rw [Node.offsetAt_layout, hOffset]
    simp only [Shift.carry, moveOffsetWithin]
    by_cases hBehind : parameter.span.stop ≤ grown.offsetAt place
    · rw [if_pos (hIff.mpr hBehind)] at hMoved
      rw [if_pos hBehind]
      omega
    · rw [if_neg fun hLess => hBehind (hIff.mp hLess)] at hMoved
      rw [if_neg hBehind]
      omega

/-- Nothing happens in a file without children if no rule is called for files. -/
theorem runRules_of_childless {rules : List ActiveRule}
    (hRules : ∀ rule ∈ rules, rule.hooks.contains .file = false) {tree : SourceTree}
    (hNone : tree.root.children = []) (fixing : Bool) : runRules rules tree fixing = { tree } := by
  rw [runRules, Run.walk, Run.dispatch_of_deaf hRules]
  simp [Run.walkBelow, Node.descendant?, hNone]

/-- The violation for a note of a rule, fixed if it can be and placed in the file as it is. -/
def Note.violation (config : Config) (file : SourceTree) (rule : Rule) (note : Note) : Violation where
  code := rule.code
  rule := rule.name
  severity := (config.ruleSeverity? rule.name).getD rule.severity
  location := .ofOffset file.text (file.root.anchorAt note.place)
  message := note.message
  fixable := note.fixable
  autoFixed := note.fixable

/-- The note is about a parameter without default of the function that the call is for. In the file, what
is said about it is placed at the start of that parameter. -/
def Note.IsOfParameter (call : Call) (file : Node) (note : Note) : Prop :=
  ∃ parameter ∈ call.site.node.parameters, parameter.node.hasDefault = false ∧
    note.place = call.site.path ++ parameter.path ∧
    ∃ after, file.descendant? note.place = some after ∧
      after.payload = .parameter parameter.header ∧ file.anchorAt note.place = after.span.start

/-- The note is about the function that the call is for. In the file, what is said about it is placed
at the name of that function. -/
def Note.IsOfFunction (call : Call) (file : Node) (note : Note) : Prop :=
  note.place = call.site.path ∧
    ∃ header after, call.site.node.payload = .function header ∧
      file.descendant? note.place = some after ∧ after.payload = .function header ∧
      file.anchorAt note.place = after.nameOffset header.name

theorem Node.anchorAt_eq {root node : Node} {place : Path}
    (hNode : root.descendant? place = some node) : root.anchorAt place = node.anchor := by
  rw [anchorAt, hNode, Option.map_some, Option.getD_some]

/-- The rule at a place of a preset is the one that makes the check at that place. -/
theorem Preset.rule_of_checkAt? {preset : Preset} {config : Config} {index : Nat} {rule : Rule}
    {check : Check} (hRule : (preset.linter config).rules[index]? = some rule)
    (hCheck : BuiltIn.checkAt? preset.entries config index = some check) :
    ∃ severity, rule = (BuiltIn.ofCheck check).rule severity := by
  have hEntries : (preset.linter config).rules =
      preset.entries.map fun entry => entry.1.rule entry.2 := preset.rules_eq
  obtain ⟨entry, hEntry, hMade⟩ := Option.bind_eq_some_iff.mp hCheck
  rw [hEntries, List.getElem?_map, hEntry, Option.map_some] at hRule
  rw [← BuiltIn.eq_of_checkIn? hMade]
  exact ⟨entry.2, (Option.some.inj hRule).symm⟩

theorem BuiltIn.name_rule_eq_iff (builtIn : BuiltIn) (severity : Severity) :
    (builtIn.rule severity).name = HandleDefault.rule.name ↔ builtIn = .handleDefault := by
  cases builtIn <;> cases severity <;> decide

/-- What a rule of a preset has to say at its call, each note with the place of the rule among the
rules. -/
def Preset.notesAt (preset : Preset) (config : Config) (call : Call) : List (Nat × Note) :=
  call.turn.notes (BuiltIn.checkAt? preset.entries config) call.site.root

section Run

variable {preset : Preset} {config : Config} {rules : List ActiveRule} {tree : SourceTree}
  {given : Path → Bool}
  (hReporting : Reporting (BuiltIn.checkAt? preset.entries config)
    (fun file place offset => offset = file.offsetAt place) tree.root true given
    (runRules rules tree true))
include hReporting

/-- The violations are those of the notes that the checks made at their calls, placed in the file as it
is in the end. -/
theorem Preset.violations_perm_notes (hWell : tree.root.WellFormed) :
    ((preset.linter config).violations (runRules rules tree true).tree.text
      (runRules rules tree true).findings).Perm
      ((runRules rules tree true).calls.flatMap fun call =>
        (preset.notesAt config call).filterMap fun entry =>
          (preset.linter config).rules[entry.1]?.map
            (entry.2.violation config (runRules rules tree true).tree)) := by
  have hNoted : ((runRules rules tree true).calls.map Call.turn).flatMap
      (Turn.notes (BuiltIn.checkAt? preset.entries config) tree.root) =
      (runRules rules tree true).calls.flatMap (preset.notesAt config) := by
    rw [List.flatMap_map]
    exact List.flatMap_congr fun call hCall => (hReporting.told call hCall).notes.symm
  rw [← List.filterMap_flatMap, ← hNoted]
  obtain ⟨hCanonical, hStart⟩ := hReporting.sound.canonical.root
  have hPerm := Linter.map_violations_perm (preset.linter config) (runRules rules tree true).tree.text
    ((List.forall₂_and_left _ _).mpr ⟨fun entry hEntry => hEntry, hReporting.recorded⟩) id
    (fun rule note => note.violation config (runRules rules tree true).tree rule)
    (fun entry finding hRecords => hRecords.2.rule) ?_
  · rwa [List.map_id] at hPerm
  · rintro entry finding rule ⟨hEntry, hRecords⟩ -
    obtain ⟨turn, -, hTurn⟩ := List.mem_flatMap.mp hEntry
    obtain ⟨check, subject, node, -, -, hNode, -, hNote⟩ := Turn.mem_notes hTurn
    obtain ⟨old, hOld⟩ := Option.isSome_iff_exists.mp (Check.anchorPath_of_mem_notes hNote hNode).1
    obtain ⟨after, hAfter, -⟩ := hReporting.grown.descendant hOld
    have hOffset : finding.offset =
        (runRules rules tree true).tree.root.anchorAt entry.2.place := by
      rw [Node.anchorAt_eq_offsetAt hCanonical hStart hAfter,
        anchorPath_grown hReporting.grown hReporting.parameters hWell hOld]
      exact hRecords.offset
    simp only [id, Linter.violation, Violation.withFix, Note.violation, Location.ofOffset, hOffset,
      hRecords.message, hRecords.fixable, hRecords.autoFixed, Bool.true_and, Bool.and_self]
    rfl

/-- What the default-value rule reports is about parameters, and what the other rules report is about
functions; in the end, what is said about them is placed at their start or at their name. -/
theorem Preset.isOf_of_mem_notes {call : Call} (hCall : call ∈ (runRules rules tree true).calls)
    {entry : Nat × Note}
    (hEntry : entry ∈ preset.notesAt config call)
    {rule : Rule} (hRule : (preset.linter config).rules[entry.1]? = some rule) :
    (rule.name = HandleDefault.rule.name →
        entry.2.IsOfParameter call (runRules rules tree true).tree.root) ∧
      (rule.name ≠ HandleDefault.rule.name →
        entry.2.IsOfFunction call (runRules rules tree true).tree.root) := by
  have hTold := hReporting.told call hCall
  obtain ⟨before, hBefore⟩ := hTold.grown
  have hFirst := hEntry
  rw [Preset.notesAt, hTold.notes] at hFirst
  obtain ⟨check, subject, node, hCheck, hSubject, hNode, hIndex, hNote⟩ := Turn.mem_notes hEntry
  obtain rfl : call.site.node = node := Option.some.inj (hTold.site.symm.trans hNode)
  obtain ⟨_, _, old, -, -, hOld, -, hOldNote⟩ := Turn.mem_notes hFirst
  obtain ⟨severity, rfl⟩ := Preset.rule_of_checkAt? (by rwa [hIndex] at hRule) hCheck
  rw [Ne, BuiltIn.name_rule_eq_iff]
  -- The node is there from the start to the end, and keeps its payload.
  have hAfter : ∀ there, call.site.root.descendant? entry.2.place = some there →
      ∃ after, (runRules rules tree true).tree.root.descendant? entry.2.place = some after ∧
        after.payload = there.payload := by
    intro there hThere
    obtain ⟨first, hFirst⟩ := Option.isSome_iff_exists.mp
      (Check.anchorPath_of_mem_notes hOldNote hOld).1
    obtain ⟨same, hSame, hGrown⟩ := hBefore.descendant hFirst
    obtain ⟨after, hAfter, hLast⟩ := hReporting.grown.descendant hFirst
    obtain rfl : same = there := Option.some.inj (hSame.symm.trans hThere)
    exact ⟨after, hAfter, hLast.payload.trans hGrown.payload.symm⟩
  rcases Check.place_of_mem_notes hNote with
    ⟨-, hPlace, ⟨header, hHeader⟩, hOther⟩ |
    ⟨-, settings, header, rfl, rfl, parameter, hMissing, hPlace⟩
  · have hNot : ¬ BuiltIn.ofCheck check = .handleDefault := by
      cases check with
      | handleDefault settings => exact absurd rfl (hOther settings)
      | _ => nofun
    refine ⟨fun hSame => absurd hSame hNot, fun _ => ⟨hPlace, header, ?_⟩⟩
    have hPayload : call.site.node.payload = .function header :=
      Subject.payload_of_of? hSubject hHeader
    obtain ⟨after, hThere, hKept⟩ := hAfter call.site.node (by rw [hPlace]; exact hTold.site)
    refine ⟨after, hPayload, hThere, hKept.trans hPayload, ?_⟩
    rw [Node.anchorAt_eq hThere, Node.anchor, hKept, hPayload]
  · obtain ⟨hParameter, hLacks⟩ := List.mem_filter.mp hMissing
    rw [Bool.and_eq_true, Bool.not_eq_true'] at hLacks
    refine ⟨fun _ => ⟨parameter, hParameter, hLacks.2, hPlace, ?_⟩, fun hNot => absurd rfl hNot⟩
    obtain ⟨i, j, hPath, hBelow, hPayload⟩ := Node.mem_parameters hParameter
    obtain ⟨after, hThere, hKept⟩ := hAfter parameter.node (by
      rw [hPlace, Node.descendant?_append, hPath]
      exact (congrArg (Option.bind · _) hTold.site).trans hBelow)
    refine ⟨after, hThere, hKept.trans hPayload, ?_⟩
    rw [Node.anchorAt_eq hThere, Node.anchor, hKept, hPayload]

end Run

/-- A run of a preset that fixes a file all of whose parameters have text, as those of every sketch
have. The root of the file is well-formed, or has no children. The violations are exactly those for
what the rules said at their calls, each placed at the start of the parameter or at the name of the
function that it was said about, in the file as the run leaves it. -/
theorem Preset.violations_at_anchors :
    (∀ sketch : Sketch.File, ∃ built, sketch.build = .ok built ∧ built.root.ParametersHaveText) ∧
    ∀ {root : Node} {tree : SourceTree}, root.WellFormed ∨ root.children = [] →
      SourceTree.ofRoot root = .ok tree → tree.root.ParametersHaveText →
      ∀ (preset : Preset) (config : Config) {rules : List ActiveRule},
      (preset.linter config).start = .ok rules → ∀ path : String,
      (completed (settingsIn? config) tree.root).text.utf8ByteSize < distanceBound →
      ∃ fixed, (preset.linter config).lintAndFix ⟨path, tree⟩ = .ok fixed ∧
        (∀ call ∈ (runRules rules tree true).calls, call.response.remarks =
          (preset.notesAt config call).map fun entry => entry.2.remark call.site.root) ∧
        fixed.report.violations.Perm ((runRules rules tree true).calls.flatMap fun call =>
          (preset.notesAt config call).filterMap fun entry =>
            (preset.linter config).rules[entry.1]?.map (entry.2.violation config fixed.tree)) ∧
        ∀ call ∈ (runRules rules tree true).calls, ∀ entry ∈ preset.notesAt config call,
          ∀ rule, (preset.linter config).rules[entry.1]? = some rule →
            (rule.name = HandleDefault.rule.name → entry.2.IsOfParameter call fixed.tree.root) ∧
            (rule.name = HandleMissing.rule.name ∨ rule.name = ParameterOrder.rule.name →
              entry.2.IsOfFunction call fixed.tree.root) := by
  refine ⟨Sketch.File.exists_build, ?_⟩
  intro root tree hRoot hTree hText preset config rules hRules path hFits
  refine ⟨_, Linter.run_eq_ok hRules ⟨path, tree⟩ true, ?_⟩
  unfold SourceTree.ofRoot at hTree
  split at hTree
  · rename_i hFile
    cases hTree
    rcases hRoot with hWell | hNone
    · have hCanonical : SourceTree.Canonical ⟨root.layout 0⟩ :=
        ⟨hWell.layout 0, Node.layout_layout 0 0 root⟩
      obtain ⟨given, hReporting⟩ := Preset.reporting hRules hCanonical
        (by rw [Node.kind_layout]; exact hFile) hFits true (tracks_offsetAt hText)
      refine ⟨fun call hCall => ?_, Preset.violations_perm_notes hReporting hCanonical.wellFormed, ?_⟩
      · have hTold := hReporting.told call hCall
        rw [Preset.notesAt, hTold.notes, hTold.remarks]
      · intro call hCall entry hEntry rule hRule
        obtain ⟨hParameter, hFunction⟩ := Preset.isOf_of_mem_notes hReporting hCall hEntry hRule
        refine ⟨hParameter, fun hName => hFunction ?_⟩
        rcases hName with hName | hName <;> rw [hName] <;> decide
    · have hEmpty : (root.layout 0).children = [] := by
        rw [← List.length_eq_zero_iff, Node.length_children_layout, hNone, List.length_nil]
      have hDeaf : ∀ rule ∈ rules, rule.hooks.contains .file = false := by
        intro rule hRule
        obtain ⟨_, _, -, -, -, hHooks⟩ :=
          BuiltIn.checkAt?_of_startFrom (Preset.startFrom_entries hRules) rule hRule
        exact hHooks
      rw [runRules_of_childless hDeaf hEmpty]
      exact ⟨by simp, by simp [Linter.violations, Linter.locate], by simp⟩
  · cases hTree

namespace TwoHandles

/-- A UI function. -/
def function (name : String) (parameters : List Sketch.Parameter)
    (statements : List Sketch.Statement) : Sketch.Function :=
  .mk { name, annotations := [⟨"Composable", []⟩] } parameters statements

/-- A function with two handles, and one after it that shows a text and has none. -/
def sketch : Sketch.File where
  items := [.function (function "A" [⟨"a", "Modifier", none⟩, ⟨"b", "Modifier", none⟩] []),
    .function (function "B" [] [.call ⟨{ callee := "Text" }, none⟩])]

/-- The order of parameters is not looked at. -/
def config : Config where
  rules := NameMap.empty.insert ParameterOrder.rule.name { enabled := some false }

end TwoHandles

/-- The second handle moves with the default value of the first one, and the name of the function
after them moves with both. -/
theorem Preset.violations_at_anchors_handles :
    ∃ tree fixed, TwoHandles.sketch.build = .ok tree ∧
      (Preset.recommended.linter TwoHandles.config).lintAndFix ⟨"A", tree⟩ = .ok fixed ∧
      fixed.source = "@Composable\nfun A(a: Modifier = Modifier, b: Modifier = Modifier) " ++
        "\x7b\n\x7d\n@Composable\nfun B() \x7b\n    Text()\n\x7d\n" ∧
      (fixed.report.violations.map fun found => (found.rule, found.location.offset)).Perm
        [(HandleDefault.rule.name, 18), (HandleDefault.rule.name, 42),
          (HandleMissing.rule.name, 86)] := by
  obtain ⟨hSketches, hAll⟩ := Preset.violations_at_anchors
  obtain ⟨tree, hBuild, hText⟩ := hSketches TwoHandles.sketch
  have hTree := hBuild
  obtain ⟨hCanonical, -⟩ := SourceTree.canonical_of_ofEvents hBuild
  cases hBuild
  obtain ⟨fixed, hFixed, -, hPerm, -⟩ := hAll (.inl hCanonical.wellFormed) rfl hText .recommended
    TwoHandles.config rfl "A" (by decide +kernel)
  refine ⟨_, fixed, hTree, hFixed, ?_, ?_⟩
  · cases hFixed
    decide +kernel
  · refine (hPerm.map _).trans (.of_eq ?_)
    cases hFixed
    decide +kernel

end UiLint
