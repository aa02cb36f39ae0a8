import Mathlib.Data.List.Basic
import Mathlib.Data.List.Nodup
import UiLint.Proofs.Checks.LintReport
import UiLint.Proofs.Declaration.Conditions
import UiLint.Proofs.Options.Resolve
import UiLint.Sketch

/-! Which functions the missing-handle rule reports. The conditions are stated one by one, each about
the part of the file that it is about, and the report has one violation for each function that meets
them all. -/
namespace UiLint

theorem Path.order_self (path : Path) : path.order path = .eq := by
  induction path with
  | nil => rfl
  | cons index path ih => simp [order, ih]

namespace Node

/-- The first of the children of a kind. -/
def FirstOfKind (node : Node) (kind : Kind) (child : Node) : Prop :=
  ∃ before after, node.children = before ++ child :: after ∧ child.kind = kind ∧
    ∀ other ∈ before, other.kind ≠ kind

theorem firstOfKind_iff {node child : Node} {kind : Kind} :
    node.FirstOfKind kind child ↔ ∃ index, node.firstOfKind? kind = some (child, index) := by
  simp only [firstOfKind?_eq_some_iff]
  constructor
  · rintro ⟨before, after, hChildren, hKind, hBefore⟩
    refine ⟨before.length, by simp [hChildren], hKind, fun k other hk hOther => hBefore other ?_⟩
    rw [hChildren, List.getElem?_append_left hk] at hOther
    exact List.mem_of_getElem? hOther
  · rintro ⟨index, hChild, hKind, hBefore⟩
    obtain ⟨hIndex, rfl⟩ := List.getElem?_eq_some_iff.mp hChild
    refine ⟨node.children.take index, node.children.drop (index + 1), by simp, hKind, ?_⟩
    intro other hOther
    obtain ⟨k, hk⟩ := List.getElem?_of_mem hOther
    rw [List.getElem?_take] at hk
    split at hk
    · rename_i hBound
      exact hBefore k other hBound hk
    · cases hk

end Node

theorem FunctionHeader.returnsUnit_iff {header : FunctionHeader} :
    header.returnsUnit = true ↔
      ∀ typeName, header.returnType = some typeName → Text.simpleName typeName = "Unit" := by
  unfold returnsUnit
  cases header.returnType <;> simp

/-- The mark is one of previews under the markers: its simple name starts or ends with that of a
marker, which is not empty. -/
def AnnotationEntry.Previews (mark : AnnotationEntry) (markers : NameSet) : Prop :=
  ∃ marker ∈ markers, Text.simpleName marker ≠ "" ∧
    ((Text.simpleName marker).toList <+: mark.simpleName.toList ∨
      (Text.simpleName marker).toList <:+ mark.simpleName.toList)

theorem FunctionHeader.isPreview_iff {header : FunctionHeader} {markers : NameSet} :
    header.isPreview markers = true ↔ ∃ mark ∈ header.annotations, mark.Previews markers := by
  simp [isPreview, AnnotationEntry.isPreview, AnnotationEntry.Previews, NameSet.mem_iff]

namespace HandleMissing

/-- No parameter in the first parameter list is a styling handle. -/
theorem handle?_eq_none_iff {aliases : NameSet} {function : Node} (h : function.WellFormed) :
    handle? aliases function = none ↔
      ∀ list, function.FirstOfKind .parameterList list → ∀ parameter ∈ list.children,
        ∀ declared, parameter.kind = .parameter → parameter.payload = .parameter declared →
          declared.isStylingHandle aliases = false := by
  simp only [Node.firstOfKind_iff]
  rw [handle?, List.find?_eq_none, Node.parameters, Node.parameterList?]
  cases hList : function.firstOfKind? .parameterList with
  | none => simp
  | some entry =>
      obtain ⟨list, index⟩ := entry
      simp only [Option.some.injEq, Prod.mk.injEq, List.mem_map]
      constructor
      · rintro hNone list ⟨index, rfl, rfl⟩ parameter hParameter declared hKind hPayload
        obtain ⟨place, hPlace⟩ := List.getElem?_of_mem hParameter
        have hPart : (⟨[place], parameter, declared⟩ : Placed ParameterHeader) ∈
            list.partsWith Payload.parameterHeader? := by
          refine Node.mem_partsWith.mpr ⟨place, rfl, hPlace, by simp [hKind], ?_⟩
          simp [hPayload, Payload.parameterHeader?]
        simpa using hNone _ ⟨_, hPart, rfl⟩
      · rintro hNone _ ⟨part, hPart, rfl⟩
        obtain ⟨place, -, hChild, -, hHeader⟩ := Node.mem_partsWith.mp hPart
        have hMember := List.mem_of_getElem? hChild
        have hPayload : part.node.payload = .parameter part.header := by
          cases hFound : part.node.payload <;> simp_all [Payload.parameterHeader?]
        have hLists := (Node.firstOfKind?_eq_some_iff.mp hList).1
        have hFits := ((h.parts list (List.mem_of_getElem? hLists)).parts part.node hMember).fits
        have hKind : part.node.kind = .parameter := by
          rw [hPayload] at hFits
          exact eq_of_beq hFits
        simpa using hNone list ⟨index, rfl, rfl⟩ part.node hMember part.header hKind hPayload

end HandleMissing

/-- A function emits content if a call among the statements of its first body does. -/
theorem ContentEmitters.isEmitting_iff {emitters : ContentEmitters} {function : Node}
    (h : function.WellFormed) :
    emitters.isEmitting function = true ↔
      ∃ body, function.FirstOfKind .body body ∧ ∃ call ∈ body.children, call.kind = .call ∧
        ∃ called, call.payload = .call called ∧ emitters.emits called = true := by
  simp only [Node.firstOfKind_iff]
  rw [isEmitting, List.any_eq_true, Node.statementCalls, Node.statements]
  cases hBody : function.firstOfKind? .body with
  | none => simp
  | some entry =>
      obtain ⟨body, index⟩ := entry
      simp only [Option.some.injEq, Prod.mk.injEq, List.mem_filterMap, List.mem_map,
        Option.map_eq_some_iff]
      constructor
      · rintro ⟨call, ⟨_, ⟨⟨child, place⟩, hEntry, rfl⟩, called, hCalled, rfl⟩, hEmits⟩
        obtain ⟨hMember, -⟩ := List.mem_filter.mp hEntry
        have hChild : child ∈ body.children := List.fst_mem_of_mem_zipIdx hMember
        have hPayload : child.payload = .call called := by
          cases hFound : child.payload <;> simp_all [Payload.callHeader?]
        have hBodies := (Node.firstOfKind?_eq_some_iff.mp hBody).1
        have hFits := ((h.parts body (List.mem_of_getElem? hBodies)).parts child hChild).fits
        have hKind : child.kind = .call := by
          rw [hPayload] at hFits
          exact eq_of_beq hFits
        exact ⟨body, ⟨index, rfl, rfl⟩, child, hChild, hKind, called, hPayload, hEmits⟩
      · rintro ⟨_, ⟨_, rfl, rfl⟩, child, hChild, hKind, called, hPayload, hEmits⟩
        obtain ⟨place, hPlace⟩ := List.getElem?_of_mem hChild
        have hEntry : (child, place) ∈ body.nonTokens := by
          refine List.mem_filter.mpr ⟨List.mk_mem_zipIdx_iff_getElem?.mpr hPlace, ?_⟩
          simp [hKind]
        refine ⟨⟨[index, place], child, called⟩, ⟨_, ⟨_, hEntry, rfl⟩, called, ?_, rfl⟩, hEmits⟩
        simp [hPayload, Payload.callHeader?]

namespace HandleMissing

/-- The function at a path is one that lacks a styling handle: a UI function that may be looked at,
that returns nothing, whose signature is its own, that is no preview and visible enough, that takes no
handle, and that emits content. -/
structure Lacks (settings : Settings) (root : Node) (place : Path) (function : Node)
    (header : FunctionHeader) : Prop where
  found : root.descendant? place = some function
  kind : function.kind = .functionDeclaration
  payload : function.payload = .function header
  composable : ∃ mark ∈ header.annotations, mark.simpleName = "Composable"
  unsuppressed : ¬ root.Suppresses place rule.name
  returnsUnit : ∀ typeName, header.returnType = some typeName → Text.simpleName typeName = "Unit"
  original : "override" ∉ header.modifiers
  outside : ¬ root.IsInInterface place
  lasting : ¬ ∃ mark ∈ header.annotations, mark.Previews settings.markers
  visible : settings.scope.includes header.visibility = true
  handleless : ∀ list, function.FirstOfKind .parameterList list → ∀ parameter ∈ list.children,
    ∀ declared, parameter.kind = .parameter → parameter.payload = .parameter declared →
      declared.isStylingHandle settings.aliases = false
  emitting : ∃ body, function.FirstOfKind .body body ∧ ∃ call ∈ body.children, call.kind = .call ∧
    ∃ called, call.payload = .call called ∧ settings.emitters.emits called = true

/-- Whether the rule reports the function at a path with the given header. -/
def reports (settings : Settings) (root : Node) (place : Path) (function : Node)
    (header : FunctionHeader) : Bool :=
  header.isComposable && !(root.suppressedAt place).contains rule.name &&
    !isExempt settings header ⟨root, place, function⟩ &&
    (handle? settings.aliases function).isNone && settings.emitters.isEmitting function

theorem reports_iff {settings : Settings} {root : Node} (h : root.WellFormed) {place : Path}
    {function : Node} {header : FunctionHeader} (hFound : root.descendant? place = some function)
    (hPayload : function.payload = .function header) :
    reports settings root place function header = true ↔
      Lacks settings root place function header := by
  have hWell := h.descendant hFound
  have hKind : function.kind = .functionDeclaration := by
    have hFits := hWell.fits
    rw [hPayload] at hFits
    exact eq_of_beq hFits
  simp only [reports, isExempt, Bool.and_eq_true, Bool.not_eq_true', Bool.or_eq_false_iff,
    Bool.not_eq_false', Option.isNone_iff_eq_none]
  simp only [Bool.eq_false_iff, ne_eq, ContentEmitters.isEmitting_iff hWell,
    FunctionHeader.isComposable_iff, FunctionHeader.returnsUnit_iff, FunctionHeader.isOverride,
    FunctionHeader.hasKeyword_iff, FunctionHeader.isPreview_iff, Site.isInInterface_iff hFound,
    List.contains_iff_mem, Node.mem_suppressedAt]
  rw [handle?_eq_none_iff hWell]
  constructor
  · rintro ⟨⟨⟨⟨hMark, hFree⟩, ⟨⟨⟨hUnit, hOriginal⟩, hOutside⟩, hLasting⟩, hVisible⟩, hNone⟩, hEmits⟩
    exact ⟨hFound, hKind, hPayload, hMark, hFree, hUnit, hOriginal, hOutside, hLasting, hVisible,
      hNone, hEmits⟩
  · intro hLacks
    exact ⟨⟨⟨⟨hLacks.composable, hLacks.unsuppressed⟩, ⟨⟨⟨hLacks.returnsUnit, hLacks.original⟩,
      hLacks.outside⟩, hLacks.lasting⟩, hLacks.visible⟩, hLacks.handleless⟩, hLacks.emitting⟩

/-- The functions that the rule reports, in pre-order. -/
def lacking (settings : Settings) (root : Node) : List (Path × Node × FunctionHeader) :=
  root.declarations.filterMap fun entry => entry.2.payload.functionHeader?.bind fun header =>
    if reports settings root entry.1 entry.2 header then some (entry.1, entry.2, header) else none

theorem mem_lacking {settings : Settings} {root : Node} (h : root.WellFormed) {place : Path}
    {function : Node} {header : FunctionHeader} :
    (place, function, header) ∈ lacking settings root ↔
      Lacks settings root place function header := by
  rw [lacking, List.mem_filterMap]
  constructor
  · rintro ⟨⟨path, node⟩, hEntry, hSome⟩
    obtain ⟨found, hHeader, hReports⟩ := Option.bind_eq_some_iff.mp hSome
    rw [Option.ite_none_right_eq_some] at hReports
    obtain ⟨hReports, hSame⟩ := hReports
    obtain ⟨rfl, rfl, rfl⟩ : path = place ∧ node = function ∧ found = header := by simpa using hSame
    have hPayload : node.payload = .function found := by
      cases hFound : node.payload <;> simp_all [Payload.functionHeader?]
    exact (reports_iff h (Node.mem_preorder.mp (List.mem_filter.mp hEntry).1) hPayload).mp hReports
  · intro hLacks
    refine ⟨(place, function), List.mem_filter.mpr ⟨Node.mem_preorder.mpr hLacks.found, ?_⟩, ?_⟩
    · simp [Run.isDeclaration, hLacks.kind]
    · have hReports := (reports_iff h hLacks.found hLacks.payload).mpr hLacks
      simp [hLacks.payload, Payload.functionHeader?, hReports]

/-- No function is reported twice, as the paths stand in their order. -/
theorem nodup_lacking (settings : Settings) (root : Node) :
    ((lacking settings root).map (·.1)).Nodup := by
  have hOrder : root.declarations.Pairwise fun first second => first.1.order second.1 = .lt :=
    (Node.pairwise_preorderFrom [] root).filter _
  rw [List.Nodup, List.pairwise_map]
  refine hOrder.filterMap _ fun first second hLess one hOne two hTwo hSame => ?_
  obtain ⟨_, -, hOne⟩ := Option.bind_eq_some_iff.mp hOne
  obtain ⟨_, -, hTwo⟩ := Option.bind_eq_some_iff.mp hTwo
  rw [Option.ite_none_right_eq_some] at hOne hTwo
  cases hOne.2
  cases hTwo.2
  simp only at hSame
  rw [hSame, Path.order_self] at hLess
  cases hLess

/-- The rule is called for UI functions only, and only where it is not suppressed. -/
theorem rounds_eq (visitor : Visitor) {node : Node} (h : node.WellFormed)
    (suppressed : List String) (path : Path) :
    node.hooks.flatMap (roundAt (ActiveRule.listening [⟨0, rule.name, rule.hooks, visitor⟩]) suppressed
        path node.payload) =
      if node.payload.functionHeader?.any (·.isComposable) && !suppressed.contains rule.name then
        [⟨0, .composable, path, node.payload⟩]
      else [] := by
  let active : ActiveRule := ⟨0, rule.name, rule.hooks, visitor⟩
  have hFunction : ActiveRule.listening [active] .function suppressed = [] := rfl
  have hComposable : ActiveRule.listening [active] .composable suppressed =
      if suppressed.contains rule.name then [] else [0] := by
    have hListens : active.listens .composable suppressed = !suppressed.contains rule.name := rfl
    rw [ActiveRule.listening, List.filter_cons, hListens]
    cases suppressed.contains rule.name <;> rfl
  by_cases hType : node.kind = .typeDeclaration
  · have hFits := h.fits
    rw [hType] at hFits
    have hNone : node.payload.functionHeader? = none := by
      cases hPayload : node.payload <;> simp_all [Payload.fits, Payload.functionHeader?]
    rw [Node.hooks, if_pos hType, hNone]
    rfl
  · rw [Node.hooks, if_neg hType, List.flatMap_cons, roundAt, hFunction, List.map_nil, List.nil_append]
    by_cases hMark : node.payload.functionHeader?.any (·.isComposable) = true
    · rw [if_pos hMark, hMark, List.flatMap_singleton, roundAt, hComposable]
      cases suppressed.contains rule.name <;> rfl
    · rw [if_neg hMark, Bool.eq_false_iff.mpr hMark]
      rfl

theorem notes_eq (settings : Settings) {root node : Node} {path : Path}
    (hNode : root.descendant? path = some node) {header : FunctionHeader}
    (hPayload : node.payload = .function header) :
    Turn.notes (fun _ => some (.handleMissing settings)) root ⟨0, .composable, path, node.payload⟩ =
      if !isExempt settings header ⟨root, path, node⟩ && (handle? settings.aliases node).isNone &&
          settings.emitters.isEmitting node then
        [(0, ⟨path, message, false⟩)]
      else [] := by
  have hSubject : Subject.of? .composable node.payload = some (.composable header) := by
    rw [hPayload]
    rfl
  rw [Turn.notes_eq rfl hSubject hNode]
  simp only [Check.notes]
  cases isExempt settings header ⟨root, path, node⟩ <;> cases handle? settings.aliases node <;>
    cases settings.emitters.isEmitting node <;> rfl

/-- What the rule has to say about a file on its own, turn by turn. -/
theorem notes_schedule {settings : Settings} {root : Node} (h : root.WellFormed) (visitor : Visitor) :
    (schedule [⟨0, rule.name, rule.hooks, visitor⟩] root).flatMap
        (Turn.notes (fun _ => some (.handleMissing settings)) root) =
      (lacking settings root).map fun entry => (0, ⟨entry.1, message, false⟩) := by
  have hFile : roundAt (ActiveRule.listening [⟨0, rule.name, rule.hooks, visitor⟩])
      (root.suppressedAt []) [] root.payload .file = [] := rfl
  rw [schedule, hFile, List.nil_append, List.flatMap_assoc, lacking, List.map_filterMap,
    List.filterMap_eq_flatMap_toList]
  refine List.flatMap_congr fun entry hEntry => ?_
  have hNode := Node.mem_preorder.mp (List.mem_filter.mp hEntry).1
  rw [rounds_eq visitor (h.descendant hNode)]
  cases hPayload : entry.2.payload with
  | function header =>
      have hNotes := notes_eq settings hNode hPayload
      rw [hPayload] at hNotes
      show List.flatMap _ (if header.isComposable && _ then [_] else []) = _
      simp only [Payload.functionHeader?, Option.bind_some]
      rw [reports]
      by_cases hSeen : (header.isComposable && !(root.suppressedAt entry.1).contains rule.name) = true
      · rw [if_pos hSeen, hSeen, List.flatMap_singleton, hNotes, Bool.true_and]
        split <;> rfl
      · rw [if_neg hSeen, Bool.eq_false_iff.mpr hSeen]
        rfl
  | _ => rfl

/-- A function is reported at its name. -/
theorem Lacks.remark_eq {settings : Settings} {root : Node} {place : Path} {function : Node}
    {header : FunctionHeader} (h : Lacks settings root place function header) :
    Note.remark root ⟨place, message, false⟩ = ⟨function.nameOffset header.name, message, false⟩ := by
  rw [Note.remark, Node.anchorAt, h.found, Option.map_some, Option.getD_some, Node.anchor, h.payload]

/-- A linter with the rule alone calls it where it is turned on. -/
theorem start_eq (severity : Severity) {config : Config} {options : Options} {settings : Settings}
    (hOptions : Options.resolve rule.options config.settings = .ok options)
    (hSettings : Settings.ofOptions options = .ok settings) (workers : Option Nat) :
    Linter.start ⟨[rule severity], config, workers⟩ =
      .ok (if config.isRuleEnabled rule.name then
        [⟨0, rule.name, rule.hooks, .stateless (check settings)⟩] else []) := by
  have hVisitor : (rule severity).start options = .ok (.stateless (check settings)) := by
    show Except.map _ (Settings.ofOptions options) = _
    rw [hSettings]
    rfl
  have hSame : Options.resolve (rule severity).options config.settings = .ok options := hOptions
  have hRule : Linter.startRule config (rule severity) 0 =
      .ok ⟨0, rule.name, rule.hooks, .stateless (check settings)⟩ := by
    simp only [Linter.startRule, hSame, hVisitor]
    rfl
  rw [Linter.start, Linter.startFrom, hRule]
  show (if config.isRuleEnabled rule.name then _ else _) = _
  split <;> rfl

/-- Whatever the file and the options are, linting with the missing-handle rule alone reports the
functions that lack a handle, each once and at its name, and nothing else; where the rule is turned
off it reports nothing. The fix for such a function is not known. -/
theorem lint_reports_lacking {events : List Event} {tree : SourceTree}
    (hTree : SourceTree.ofEvents events = .ok tree) (severity : Severity) {config : Config}
    {options : Options} (hOptions : Options.resolve rule.options config.settings = .ok options)
    (workers : Option Nat) (path : String) :
    ∃ (settings : Settings) (report : FileReport) (entries : List (Path × Node × FunctionHeader)),
      Settings.ofOptions options = .ok settings ∧
      Linter.lint ⟨[rule severity], config, workers⟩ ⟨path, tree⟩ = .ok report ∧
      report.aborted = none ∧ (entries.map (·.1)).Nodup ∧
      (∀ place function header, (place, function, header) ∈ entries ↔
        config.isRuleEnabled rule.name = true ∧
          Lacks settings tree.root place function header) ∧
      report.violations.Perm (entries.map fun entry => (rule severity).violationOf config tree.text
        ⟨entry.2.1.nameOffset entry.2.2.name, message, false⟩) := by
  obtain ⟨hCanonical, hFile⟩ := SourceTree.canonical_of_ofEvents hTree
  obtain ⟨settings, hSettings⟩ := exists_settings hOptions
  have hStart := start_eq severity hOptions hSettings workers
  by_cases hEnabled : config.isRuleEnabled rule.name = true
  · rw [if_pos hEnabled] at hStart
    have hCheck : ∀ active ∈ [(⟨0, rule.name, rule.hooks, .stateless (check settings)⟩ : ActiveRule)],
        ∃ made, some (Check.handleMissing settings) = some made ∧
          active.visitor = .stateless made.respond :=
      List.forall_mem_singleton.mpr ⟨_, rfl, rfl⟩
    have hRemarks := remarks_lint (fun _ => some (.handleMissing settings)) hCheck
      hCanonical.wellFormed hFile
    rw [notes_schedule hCanonical.wellFormed, List.map_map] at hRemarks
    refine ⟨settings, _, lacking settings tree.root, hSettings, Linter.lint_eq_report hStart _,
      (turns_lint _ hCanonical.wellFormed hFile).1, nodup_lacking settings tree.root, ?_, ?_⟩
    · intro place function header
      rw [mem_lacking hCanonical.wellFormed, and_iff_right hEnabled]
    · refine (Linter.perm_report ..).trans (.of_eq ?_)
      rw [hRemarks, List.filterMap_map, ← List.filterMap_eq_map]
      refine List.filterMap_congr fun entry hEntry => ?_
      have hLacks := (mem_lacking hCanonical.wellFormed).mp hEntry
      simp only [Function.comp_apply, hLacks.remark_eq]
      rfl
  · rw [if_neg hEnabled] at hStart
    refine ⟨settings, _, [], hSettings, Linter.lint_eq_report hStart _,
      (turns_lint _ hCanonical.wellFormed hFile).1, .nil, ?_, ?_⟩
    · intro place function header
      simp [hEnabled]
    · have hNone : schedule [] tree.root = [] := by simp [schedule, roundAt, ActiveRule.listening]
      have hCalls : (runRules [] tree false).calls = [] := by
        rw [← List.map_eq_nil_iff, (turns_lint [] hCanonical.wellFormed hFile).2, hNone]
      rw [hCalls]
      simp [Linter.report, Call.remarksOfAll, Call.emissionsOfAll]

end HandleMissing

namespace Inner

/-- A UI function without parameters. -/
def function (name : String) (statements : List Sketch.Statement) : Sketch.Function :=
  .mk { name, annotations := [⟨"Composable", []⟩] } [] statements

/-- An interface with a function that shows a text, and in this function one that shows a box. -/
def sketch : Sketch.File where
  items := [.type {
    header := { name := "I", isInterface := true }
    functions := [function "A" [.call ⟨{ callee := "Text" }, none⟩,
      .function (function "B" [.call ⟨{ callee := "Box" }, none⟩])]] }]

end Inner

/-- Only the inner function is reported, as the outer one belongs to the interface. -/
theorem HandleMissing.lint_reports_lacking_inner :
    ∃ tree report, Inner.sketch.build = .ok tree ∧
      Linter.lint ⟨[HandleMissing.rule .error], {}, none⟩ ⟨"I", tree⟩ = .ok report ∧
      report.violations = [⟨"CM002", "compose:modifier-missing-check", .error, ⟨6, 13, 91⟩,
        HandleMissing.message, false, false⟩] := by
  obtain ⟨tree, hTree⟩ : ∃ tree, Inner.sketch.build = .ok tree := ⟨_, rfl⟩
  obtain ⟨hCanonical, -⟩ := SourceTree.canonical_of_ofEvents hTree
  have hOptions : Options.resolve HandleMissing.rule.options ({} : Config).settings = .ok _ := rfl
  obtain ⟨settings, report, entries, hSettings, hReport, -, hNodup, hEntries, hPerm⟩ :=
    HandleMissing.lint_reports_lacking hTree .error hOptions none "I"
  have hAll : entries.Perm (HandleMissing.lacking settings tree.root) := by
    rw [List.perm_ext_iff_of_nodup hNodup.of_map (HandleMissing.nodup_lacking ..).of_map]
    rintro ⟨place, function, header⟩
    rw [hEntries, HandleMissing.mem_lacking hCanonical.wellFormed]
    exact and_iff_right rfl
  refine ⟨tree, report, hTree, hReport, List.perm_singleton.mp (hPerm.trans ?_)⟩
  refine (hAll.map _).trans (.of_eq ?_)
  cases hSettings
  cases hTree
  decide +kernel

end UiLint
