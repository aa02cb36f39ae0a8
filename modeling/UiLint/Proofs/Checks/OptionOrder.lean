import Mathlib.Data.List.Flatten
import UiLint.Proofs.Checks.LintReport
import UiLint.Proofs.Checks.PresetRun
import UiLint.Proofs.Linter.Attribution
import UiLint.Sketch

/-! How the reports of two built-in rules grow with their options. A wider scope, more emitters, fewer
names of handles and fewer marks of previews make the missing-handle rule say more at each function,
and a wider scope the default-value rule. A report that does not fix then has all the violations of
the narrower one, in the same order, whatever other rules there are. -/
namespace UiLint

instance : HasSubset NameSet := ⟨fun fewer more => ∀ name ∈ fewer, name ∈ more⟩

instance (fewer more : NameSet) : Decidable (fewer ⊆ more) :=
  inferInstanceAs (Decidable (∀ name ∈ fewer.names, name ∈ more.names))

theorem NameSet.any_of_subset {fewer more : NameSet} (h : fewer ⊆ more) {p : String → Bool}
    (hAny : fewer.names.any p = true) : more.names.any p = true := by
  obtain ⟨name, hName, hHolds⟩ := List.any_eq_true.mp hAny
  exact List.any_eq_true.mpr ⟨name, h name hName, hHolds⟩

namespace VisibilityScope

/-- How far a scope reaches: to public functions, then to internal ones, and at last to all. -/
def reach : VisibilityScope → Nat
  | publicOnly => 0
  | publicAndInternal => 1
  | all => 2

instance : LE VisibilityScope := ⟨fun narrow wide => narrow.reach ≤ wide.reach⟩

instance (narrow wide : VisibilityScope) : Decidable (narrow ≤ wide) :=
  inferInstanceAs (Decidable (narrow.reach ≤ wide.reach))

/-- A scope that reaches further inspects all that the other one does, and only such a scope does. -/
theorem le_iff {narrow wide : VisibilityScope} :
    narrow ≤ wide ↔ ∀ visibility, narrow.includes visibility = true →
      wide.includes visibility = true := by
  constructor
  · intro hLe visibility
    revert hLe
    cases narrow <;> cases wide <;> cases visibility <;> decide
  · intro hAll
    have hModule := hAll .inModule
    have hOwner := hAll .inOwner
    clear hAll
    revert hModule hOwner
    cases narrow <;> cases wide <;> decide

theorem includes_eq_false_of_le {narrow wide : VisibilityScope} (h : narrow ≤ wide)
    {visibility : Visibility} (hOut : wide.includes visibility = false) :
    narrow.includes visibility = false := by
  rw [Bool.eq_false_iff] at hOut ⊢
  exact fun hIn => hOut (le_iff.mp h visibility hIn)

end VisibilityScope

/-- More emitters make more calls emit: a name among them wins over what is known of a callee. -/
theorem ContentEmitters.emits_of_subset {fewer more : ContentEmitters} (h : fewer.extra ⊆ more.extra)
    {call : CallHeader} (hEmits : fewer.emits call = true) : more.emits call = true := by
  unfold emits at hEmits ⊢
  dsimp only at hEmits ⊢
  split at hEmits
  · rename_i hKnown
    rw [if_pos]
    rw [Bool.or_eq_true] at hKnown ⊢
    exact hKnown.imp_right (NameSet.any_of_subset h)
  · -- No name decides among the fewer ones, so either one of the others does or the rest of the call.
    split
    · rfl
    · exact hEmits

theorem ContentEmitters.isEmitting_of_subset {fewer more : ContentEmitters}
    (h : fewer.extra ⊆ more.extra) {function : Node} (hEmits : fewer.isEmitting function = true) :
    more.isEmitting function = true := by
  obtain ⟨call, hCall, hThis⟩ := List.any_eq_true.mp hEmits
  exact List.any_eq_true.mpr ⟨call, hCall, emits_of_subset h hThis⟩

theorem FunctionHeader.isPreview_of_subset {fewer more : NameSet} (h : fewer ⊆ more)
    {header : FunctionHeader} (hPreview : header.isPreview fewer = true) :
    header.isPreview more = true := by
  obtain ⟨mark, hMark, hThis⟩ := List.any_eq_true.mp hPreview
  exact List.any_eq_true.mpr ⟨mark, hMark, NameSet.any_of_subset h hThis⟩

theorem ParameterHeader.isStylingHandle_of_subset {fewer more : NameSet} (h : fewer ⊆ more)
    {header : ParameterHeader} (hHandle : header.isStylingHandle fewer = true) :
    header.isStylingHandle more = true := by
  rw [isStylingHandle, Bool.or_eq_true] at hHandle ⊢
  exact hHandle.imp_right (NameSet.any_of_subset h)

theorem HandleMissing.handle?_of_subset {fewer more : NameSet} (h : fewer ⊆ more) {function : Node}
    (hSome : (handle? fewer function).isSome = true) : (handle? more function).isSome = true := by
  rw [handle?, List.find?_isSome] at hSome ⊢
  obtain ⟨parameter, hParameter, hHandle⟩ := hSome
  exact ⟨parameter, hParameter, ParameterHeader.isStylingHandle_of_subset h hHandle⟩

/-- The check of a built-in rule is made of what the rule reads. -/
theorem BuiltIn.checkIn?_eq_some {builtIn : BuiltIn} {α : Type}
    {read : Options → Except ConfigError α} {make : α → Check}
    (hMake : ∀ options, builtIn.check options = (read options).map make) {config : Config}
    {settings : α}
    (hRead : Options.resolve builtIn.rule.options config.settings >>= read = .ok settings) :
    builtIn.checkIn? config = some (make settings) := by
  unfold checkIn?
  cases hOptions : Options.resolve builtIn.rule.options config.settings with
  | error error =>
      rw [hOptions] at hRead
      cases hRead
  | ok options =>
      rw [hOptions] at hRead
      have hSettings : read options = .ok settings := hRead
      show (builtIn.check options).toOption = _
      rw [hMake, hSettings]
      rfl

namespace HandleMissing

/-- What the rule reads under the settings of a project, unless its options do not resolve. -/
def Settings.resolve (settings : UiLint.Settings) : Except ConfigError Settings :=
  Options.resolve rule.options settings >>= ofOptions

/-- The rule reports more under the second settings: they have a wider scope and more emitters, and
fewer names of handles and fewer marks of previews. -/
structure Settings.Below (narrow wide : Settings) : Prop where
  scope : narrow.scope ≤ wide.scope
  emitters : narrow.emitters.extra ⊆ wide.emitters.extra
  aliases : wide.aliases ⊆ narrow.aliases
  markers : wide.markers ⊆ narrow.markers

variable {narrow wide : Settings} (h : narrow.Below wide)

include h

theorem isExempt_of_below {header : FunctionHeader} {site : Site}
    (hExempt : isExempt wide header site = true) : isExempt narrow header site = true := by
  simp only [isExempt, Bool.or_eq_true, Bool.not_eq_true'] at hExempt ⊢
  exact hExempt.imp (Or.imp_right (FunctionHeader.isPreview_of_subset h.markers))
    (VisibilityScope.includes_eq_false_of_le h.scope)

theorem notes_of_below (subject : Subject) (site : Site) :
    ((Check.handleMissing narrow).notes subject site).Sublist
      ((Check.handleMissing wide).notes subject site) := by
  cases subject with
  | composable header =>
      simp only [Check.notes]
      split
      · exact List.nil_sublist _
      · rename_i hSkip
        split
        · rename_i hEmits
          rw [if_neg, if_pos (ContentEmitters.isEmitting_of_subset h.emitters hEmits)]
          rw [Bool.or_eq_true] at hSkip ⊢
          exact fun hWide => hSkip (hWide.imp (isExempt_of_below h) (handle?_of_subset h.aliases))
        · exact List.nil_sublist _
  | _ => exact List.Sublist.refl _

end HandleMissing

namespace HandleDefault

/-- What the rule reads under the settings of a project, unless its options do not resolve. -/
def Settings.resolve (settings : UiLint.Settings) : Except ConfigError Settings :=
  Options.resolve rule.options settings >>= ofOptions

theorem isExempt_of_le {narrow wide : Settings} (hScope : narrow.scope ≤ wide.scope)
    {header : FunctionHeader} {site : Site} (hExempt : isExempt wide header site = true) :
    isExempt narrow header site = true := by
  simp only [isExempt, Bool.or_eq_true, Bool.not_eq_true'] at hExempt ⊢
  exact hExempt.imp_right (VisibilityScope.includes_eq_false_of_le hScope)

theorem notes_of_le {narrow wide : Settings} (hScope : narrow.scope ≤ wide.scope)
    (hAliases : narrow.aliases = wide.aliases) (subject : Subject) (site : Site) :
    ((Check.handleDefault narrow).notes subject site).Sublist
      ((Check.handleDefault wide).notes subject site) := by
  cases subject with
  | composable header =>
      simp only [Check.notes]
      split
      · exact List.nil_sublist _
      · rename_i hInspected
        rw [if_neg fun hExempt => hInspected (isExempt_of_le hScope hExempt), missing, missing,
          hAliases]
  | _ => exact List.Sublist.refl _

end HandleDefault

namespace Linter

theorem keptFrom_eq_filter {keep : Nat → Bool} {rules : List Rule} {wanted : Rule → Bool}
    (hKeep : ∀ place rule, rules[place]? = some rule → keep place = wanted rule) :
    keptFrom keep 0 rules = rules.filter wanted := by
  have hSame : rules.zipIdx.filter (fun entry => keep entry.2) =
      rules.zipIdx.filter (wanted ∘ (·.1)) :=
    List.filter_congr fun entry hEntry =>
      hKeep entry.2 entry.1 (List.mk_mem_zipIdx_iff_getElem?.mp hEntry)
  rw [keptFrom, hSame, ← List.filter_map, List.zipIdx_map_fst]

/-- The linter with the rules of a name only. -/
def named (linter : Linter) (name : String) : Linter :=
  { linter with rules := linter.rules.filter (·.name == name) }

/-- What a run that does not fix reports under a name is what the rules of that name have to say. -/
theorem lint_named {linter : Linter} {rules : List ActiveRule} (hRules : linter.start = .ok rules)
    (name : String) (file : SourceFile) :
    ∃ all active, linter.lint file = .ok all ∧ (linter.named name).start = .ok active ∧
      all.violations.filter (·.rule == name) = (linter.named name).report file.tree.text
        (Call.remarksOfAll (runRules active file.tree false).calls) := by
  let keep : Nat → Bool := fun place => linter.rules[place]?.any (·.name == name)
  have hThin : linter.thin keep = linter.named name := by
    have hKept : keptFrom keep 0 linter.rules = linter.rules.filter (·.name == name) :=
      keptFrom_eq_filter fun place rule hRule => by simp [keep, hRule]
    rw [thin, named, hKept]
  have hActive : (linter.named name).start = .ok (ActiveRule.thin keep rules) := by
    rw [← hThin]
    exact startFrom_keptFrom hRules
  have hNamed := run_thin keep hRules file
    fun call hCall _ => editsNothing_of_lint rules file.tree call hCall
  have hReport := lint_eq_report hActive file
  rw [hThin] at hNamed
  rw [lint, hNamed] at hReport
  refine ⟨_, _, by rw [lint, run_eq_ok hRules]; rfl, hActive, ?_⟩
  refine Eq.trans ?_ (congrArg FileReport.violations (Except.ok.inj hReport))
  show List.filter _ (linter.violations _ _) = List.map _ (List.filter _ _)
  rw [violations_eq_map, ← byRule_eq hRules, List.filter_map]
  refine congrArg (List.map _) (List.filter_congr fun entry hEntry => ?_)
  obtain ⟨rule, hRule, hName⟩ := exists_rule_of_mem_byRule hEntry
  simp [keep, hRule, hName]

/-- Which rules are started and where they listen does not depend on the settings. -/
theorem listening_startFrom {config : Config} {first second : Settings} {index : Nat}
    {rules : List Rule} {active others : List ActiveRule}
    (hActive : startFrom { config with settings := first } index rules = .ok active)
    (hOthers : startFrom { config with settings := second } index rules = .ok others) :
    ActiveRule.listening active = ActiveRule.listening others := by
  induction rules generalizing index active others with
  | nil =>
      cases hActive
      cases hOthers
      rfl
  | cons rule rules ih =>
      rcases startFrom_cons hActive with ⟨hOff, hRest⟩ | ⟨one, rest, hOn, hOne, hRest, rfl⟩ <;>
        rcases startFrom_cons hOthers with ⟨hOff', hRest'⟩ | ⟨two, rest', hOn', hTwo, hRest', rfl⟩
      · exact ih hRest hRest'
      · exact absurd (hOff.symm.trans hOn') (by decide)
      · exact absurd (hOff'.symm.trans hOn) (by decide)
      · obtain ⟨_, _, -, -, rfl⟩ := startRule_eq_ok hOne
        obtain ⟨_, _, -, -, rfl⟩ := startRule_eq_ok hTwo
        funext hook suppressed
        rw [ActiveRule.listening_cons, ActiveRule.listening_cons, ih hRest hRest']
        rfl

end Linter

/-- The notes of a turn, where one check has less to say than the other at any site. -/
theorem Turn.notes_sublist {check other : Check}
    (h : ∀ subject site, (check.notes subject site).Sublist (other.notes subject site)) (root : Node)
    (turn : Turn) :
    (turn.notes (fun _ => some check) root).Sublist (turn.notes (fun _ => some other) root) := by
  unfold Turn.notes
  cases Subject.of? turn.hook turn.declared with
  | none => exact List.Sublist.refl _
  | some subject =>
      cases Site.at? root turn.path with
      | none => exact List.Sublist.refl _
      | some site => exact (h subject site).map _

namespace Linter

variable (builtIn : BuiltIn) {rules : List Rule}
  (hOnly : ∀ rule ∈ rules, rule.name = builtIn.rule.name → ∃ severity, rule = builtIn.rule severity)

include hOnly

/-- What the rules of the name of a built-in rule emit is what its check has to say. -/
theorem remarks_named {config : Config} {check : Check} (hCheck : builtIn.checkIn? config = some check)
    {workers : Option Nat} {active : List ActiveRule}
    (hActive : (named ⟨rules, config, workers⟩ builtIn.rule.name).start = .ok active)
    {tree : SourceTree} (hWell : tree.root.WellFormed) (hFile : tree.root.kind = .file) :
    Call.remarksOfAll (runRules active tree false).calls =
      ((schedule active tree.root).flatMap (Turn.notes (fun _ => some check) tree.root)).map
        fun entry => (entry.1, entry.2.remark tree.root) := by
  refine remarks_lint (fun _ => some check) (fun rule hRule => ⟨check, rfl, ?_⟩) hWell hFile
  obtain ⟨place, found, -, hFound, -, hStart⟩ := exists_rule_of_startFrom hActive rule hRule
  obtain ⟨hMember, hName⟩ := List.mem_filter.mp (List.mem_of_getElem? hFound)
  obtain ⟨severity, rfl⟩ := hOnly found hMember (eq_of_beq hName)
  obtain ⟨-, -, made, hMade, hVisitor⟩ := BuiltIn.visitor_of_startRule hStart
  obtain rfl : made = check := Option.some.inj (hMade.symm.trans hCheck)
  exact hVisitor

/-- Where the check of a built-in rule has less to say at any site under the first settings, its
violations under the first settings are among those under the second ones, in the same order. -/
theorem violations_sublist {config : Config} {first second : Settings} {check other : Check}
    (hCheck : builtIn.checkIn? { config with settings := first } = some check)
    (hOther : builtIn.checkIn? { config with settings := second } = some other)
    (hNotes : ∀ subject site, (check.notes subject site).Sublist (other.notes subject site))
    {workers : Option Nat} {active others : List ActiveRule}
    (hActive : start ⟨rules, { config with settings := first }, workers⟩ = .ok active)
    (hOthers : start ⟨rules, { config with settings := second }, workers⟩ = .ok others)
    {tree : SourceTree} (hWell : tree.root.WellFormed) (hFile : tree.root.kind = .file)
    {path : String} {fewer more : FileReport}
    (hFewer : lint ⟨rules, { config with settings := first }, workers⟩ ⟨path, tree⟩ = .ok fewer)
    (hMore : lint ⟨rules, { config with settings := second }, workers⟩ ⟨path, tree⟩ = .ok more) :
    (fewer.violations.filter (·.rule == builtIn.rule.name)).Sublist
      (more.violations.filter (·.rule == builtIn.rule.name)) := by
  obtain ⟨all, named, hAll, hNamed, hReport⟩ := lint_named hActive builtIn.rule.name ⟨path, tree⟩
  obtain ⟨all', named', hAll', hNamed', hReport'⟩ := lint_named hOthers builtIn.rule.name ⟨path, tree⟩
  obtain rfl : all = fewer := Except.ok.inj (hAll.symm.trans hFewer)
  obtain rfl : all' = more := Except.ok.inj (hAll'.symm.trans hMore)
  have hTurns : schedule named tree.root = schedule named' tree.root := by
    rw [schedule, schedule, listening_startFrom hNamed hNamed']
  rw [hReport, hReport', remarks_named builtIn hOnly hCheck hNamed hWell hFile,
    remarks_named builtIn hOnly hOther hNamed' hWell hFile, hTurns]
  refine report_sublist (List.Sublist.map _ ?_) ..
  exact List.Sublist.flatMap_right _ fun turn _ => Turn.notes_sublist hNotes tree.root turn

end Linter

/-- The list of violations of a rule grows with its options. In a linter where the missing-handle
rule is the only one of its name, whatever other rules it has, the violations of this rule in a run
that does not fix are among those under settings which inspect more, in the same order. So are those
of the default-value rule under a wider scope. -/
theorem Linter.lint_grows_with_options {events : List Event} {tree : SourceTree}
    (hTree : SourceTree.ofEvents events = .ok tree) {rules : List Rule} {config : Config}
    {first second : Settings} {workers : Option Nat} {active others : List ActiveRule}
    (hActive : start ⟨rules, { config with settings := first }, workers⟩ = .ok active)
    (hOthers : start ⟨rules, { config with settings := second }, workers⟩ = .ok others)
    (path : String) :
    ∃ fewer more, lint ⟨rules, { config with settings := first }, workers⟩ ⟨path, tree⟩ = .ok fewer ∧
      lint ⟨rules, { config with settings := second }, workers⟩ ⟨path, tree⟩ = .ok more ∧
      ((∀ rule ∈ rules, rule.name = HandleMissing.rule.name →
          ∃ severity, rule = HandleMissing.rule severity) →
        ∀ narrow wide : HandleMissing.Settings,
          HandleMissing.Settings.resolve first = .ok narrow →
          HandleMissing.Settings.resolve second = .ok wide →
          narrow.Below wide →
          (fewer.violations.filter (·.rule == HandleMissing.rule.name)).Sublist
            (more.violations.filter (·.rule == HandleMissing.rule.name))) ∧
      ((∀ rule ∈ rules, rule.name = HandleDefault.rule.name →
          ∃ severity, rule = HandleDefault.rule severity) →
        ∀ narrow wide : HandleDefault.Settings,
          HandleDefault.Settings.resolve first = .ok narrow →
          HandleDefault.Settings.resolve second = .ok wide →
          narrow.scope ≤ wide.scope → narrow.aliases = wide.aliases →
          (fewer.violations.filter (·.rule == HandleDefault.rule.name)).Sublist
            (more.violations.filter (·.rule == HandleDefault.rule.name))) := by
  obtain ⟨hCanonical, hFile⟩ := SourceTree.canonical_of_ofEvents hTree
  have hFewer := lint_eq_report hActive ⟨path, tree⟩
  have hMore := lint_eq_report hOthers ⟨path, tree⟩
  refine ⟨_, _, hFewer, hMore, fun hOnly narrow wide hNarrow hWide hBelow => ?_,
    fun hOnly narrow wide hNarrow hWide hScope hAliases => ?_⟩
  · exact violations_sublist .handleMissing hOnly (BuiltIn.checkIn?_eq_some (fun _ => rfl) hNarrow)
      (BuiltIn.checkIn?_eq_some (fun _ => rfl) hWide) (HandleMissing.notes_of_below hBelow) hActive
      hOthers hCanonical.wellFormed hFile hFewer hMore
  · exact violations_sublist .handleDefault hOnly (BuiltIn.checkIn?_eq_some (fun _ => rfl) hNarrow)
      (BuiltIn.checkIn?_eq_some (fun _ => rfl) hWide) (HandleDefault.notes_of_le hScope hAliases)
      hActive hOthers hCanonical.wellFormed hFile hFewer hMore

namespace Gauges

/-- A UI function with the given keywords and marks. -/
def function (name : String) (modifiers marks : List String) (parameters : List Sketch.Parameter)
    (callee : String) : Sketch.Item :=
  .function (.mk { name, modifiers, annotations := ("Composable" :: marks).map (⟨·, []⟩) } parameters
    [.call ⟨{ callee }, none⟩])

/-- A function that shows a text, a demo that shows a gauge, and a function with a handle. -/
def sketch : Sketch.File where
  items := [function "A" [] [] [] "Text", function "B" ["private"] ["Demo"] [] "Gauge",
    function "C" ["internal"] [] [⟨"c", "Modifier", none⟩] "Text"]

/-- Public functions that are no previews or demos. -/
def narrow : Settings :=
  NameMap.empty.insert previewMarkersSpec.name (.list ["Preview", "Demo"])

/-- All functions that are no previews. Gauges are content. -/
def wide : Settings :=
  (NameMap.empty.insert visibilitySpec.name (.text "all")).insert contentEmittersSpec.name
    (.list ["app.Gauge"])

end Gauges

/-- Two more functions are reported where all are looked at, demos too, and gauges are content. -/
theorem Linter.lint_grows_with_options_gauges :
    ∃ tree fewer more, Gauges.sketch.build = .ok tree ∧
      Linter.lint ⟨Preset.recommended.rules, { settings := Gauges.narrow }, none⟩ ⟨"A", tree⟩ =
        .ok fewer ∧
      Linter.lint ⟨Preset.recommended.rules, { settings := Gauges.wide }, none⟩ ⟨"A", tree⟩ =
        .ok more ∧
      (fewer.violations.filter (·.rule == HandleMissing.rule.name)).Sublist
        (more.violations.filter (·.rule == HandleMissing.rule.name)) ∧
      (fewer.violations.filter (·.rule == HandleDefault.rule.name)).Sublist
        (more.violations.filter (·.rule == HandleDefault.rule.name)) ∧
      (fewer.violations.map fun found => (found.code, found.location.offset)).Perm
        [("CM002", 16)] ∧
      (more.violations.map fun found => (found.code, found.location.offset)).Perm
        [("CM002", 16), ("CM002", 65), ("CM001", 112)] := by
  obtain ⟨tree, hTree⟩ : ∃ tree, Gauges.sketch.build = .ok tree := ⟨_, rfl⟩
  have hNarrow : Linter.start ⟨Preset.recommended.rules,
    { ({} : Config) with settings := Gauges.narrow }, none⟩ = .ok _ := rfl
  have hWide : Linter.start ⟨Preset.recommended.rules,
    { ({} : Config) with settings := Gauges.wide }, none⟩ = .ok _ := rfl
  obtain ⟨fewer, more, hFewer, hMore, hMissing, hDefault⟩ :=
    Linter.lint_grows_with_options hTree hNarrow hWide "A"
  have hOnly : ∀ builtIn : BuiltIn, ∀ rule ∈ Preset.recommended.rules,
      rule.name = builtIn.rule.name → ∃ severity, rule = builtIn.rule severity := by
    intro builtIn rule hRule hName
    obtain ⟨other, -, rfl⟩ := List.mem_map.mp hRule
    cases builtIn <;> cases other <;> first | exact ⟨_, rfl⟩ | exact absurd hName (by decide)
  refine ⟨tree, fewer, more, hTree, hFewer, hMore, hMissing (hOnly .handleMissing) _ _ rfl rfl ?_,
    hDefault (hOnly .handleDefault) _ _ rfl rfl (by decide) rfl, ?_, ?_⟩
  · exact ⟨by decide, by decide, by decide, by decide⟩
  · cases hTree
    cases hFewer
    exact ((Linter.violations_perm ..).map _).trans (.of_eq (by decide +kernel))
  · cases hTree
    cases hMore
    exact ((Linter.violations_perm ..).map _).trans (.of_eq (by decide +kernel))

end UiLint
