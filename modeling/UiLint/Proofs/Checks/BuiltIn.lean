import UiLint.Checks.Preset
import UiLint.Proofs.Checks.FixRun
import UiLint.Proofs.Tree.Insertion

/-! Linters made of built-in rules. A run that fixes gives every handle its default value that
lacks one, in one pass; a second pass finds nothing left to fix. -/
namespace UiLint

open HandleDefault

/-- The settings that the default-value rule has in a project, unless it is turned off or its
options do not resolve. -/
def HandleDefault.settingsIn? (config : Config) : Option HandleDefault.Settings :=
  if config.isRuleEnabled HandleDefault.rule.name then
    (Options.resolve HandleDefault.rule.options config.settings >>= Settings.ofOptions).toOption
  else none

/-- The settings of the default-value rule where the listed rules are registered. -/
def BuiltIn.settingsIn? (entries : List (BuiltIn × Severity)) (config : Config) :
    Option HandleDefault.Settings :=
  if entries.any (·.1 = .handleDefault) then HandleDefault.settingsIn? config else none

theorem HandleMissing.check_quiet (settings : HandleMissing.Settings) (visit : Visit) :
    (HandleMissing.check settings visit).edits = [] ∧
      ∀ remark ∈ (HandleMissing.check settings visit).remarks, remark.fixable = false := by
  unfold HandleMissing.check
  split
  · simp only
    split
    · simp
    · split <;> simp
  · simp

theorem ParameterOrder.check_quiet (aliases : NameSet) (visit : Visit) :
    (ParameterOrder.check aliases visit).edits = [] ∧
      ∀ remark ∈ (ParameterOrder.check aliases visit).remarks, remark.fixable = false := by
  unfold ParameterOrder.check
  split
  · simp only
    split <;> simp
  · simp

/-- A built-in rule that has been started is quiet, or is the one that gives default values. -/
theorem BuiltIn.isQuiet_or_gives {builtIn : BuiltIn} {severity : Severity} {config : Config}
    {index : Nat} {active : ActiveRule}
    (hEnabled : config.isRuleEnabled (builtIn.rule severity).name = true)
    (hActive : Linter.startRule config (builtIn.rule severity) index = .ok active) :
    (active.IsQuiet ∧ builtIn ≠ .handleDefault) ∨
      (builtIn = .handleDefault ∧ ∃ settings, HandleDefault.settingsIn? config = some settings ∧
        active.Gives settings) := by
  obtain ⟨options, visitor, hOptions, hVisitor, rfl⟩ := Linter.startRule_eq_ok hActive
  cases builtIn with
  | handleDefault =>
      refine .inr ⟨rfl, ?_⟩
      simp only [BuiltIn.rule, HandleDefault.rule] at hOptions hVisitor hEnabled
      cases hSettings : HandleDefault.Settings.ofOptions options with
      | error error =>
          rw [hSettings] at hVisitor
          cases hVisitor
      | ok settings =>
          rw [hSettings] at hVisitor
          cases hVisitor
          refine ⟨settings, ?_, rfl, rfl, rfl⟩
          simp only [HandleDefault.settingsIn?, HandleDefault.rule, if_pos hEnabled, hOptions]
          exact congrArg Except.toOption hSettings
  | handleMissing =>
      refine .inl ⟨?_, by simp⟩
      simp only [BuiltIn.rule, HandleMissing.rule] at hVisitor
      cases hSettings : HandleMissing.Settings.ofOptions options with
      | error error =>
          rw [hSettings] at hVisitor
          cases hVisitor
      | ok settings =>
          rw [hSettings] at hVisitor
          cases hVisitor
          exact ⟨_, rfl, HandleMissing.check_quiet settings⟩
  | parameterOrder =>
      refine .inl ⟨?_, by simp⟩
      simp only [BuiltIn.rule, ParameterOrder.rule] at hVisitor
      cases hAliases : aliasesOf options with
      | error error =>
          rw [hAliases] at hVisitor
          cases hVisitor
      | ok aliases =>
          rw [hAliases] at hVisitor
          cases hVisitor
          exact ⟨_, rfl, ParameterOrder.check_quiet aliases⟩

section Entries

variable {builtIn : BuiltIn} {severity : Severity} {entries : List (BuiltIn × Severity)}
  {config : Config}

theorem BuiltIn.settingsIn?_cons_of_some {settings : HandleDefault.Settings}
    (hSettings : BuiltIn.settingsIn? entries config = some settings) :
    BuiltIn.settingsIn? ((builtIn, severity) :: entries) config = some settings := by
  unfold BuiltIn.settingsIn? at hSettings ⊢
  split at hSettings
  · rename_i hAny
    rwa [if_pos (by simp [List.any_cons, hAny])]
  · cases hSettings

theorem BuiltIn.settingsIn?_cons_of_ne (hOther : builtIn ≠ .handleDefault) :
    BuiltIn.settingsIn? ((builtIn, severity) :: entries) config =
      BuiltIn.settingsIn? entries config := by
  simp only [BuiltIn.settingsIn?, List.any_cons, decide_eq_false hOther, Bool.false_or]

theorem BuiltIn.settingsIn?_cons_handleDefault :
    BuiltIn.settingsIn? ((.handleDefault, severity) :: entries) config =
      HandleDefault.settingsIn? config :=
  if_pos (by simp)

end Entries

/-- Built-in rules that have been started are tame. -/
theorem BuiltIn.tame_of_startFrom {entries : List (BuiltIn × Severity)} {config : Config}
    {index : Nat} {rules : List ActiveRule}
    (hRules : Linter.startFrom config index (entries.map fun entry => entry.1.rule entry.2) =
      .ok rules) :
    Tame (BuiltIn.settingsIn? entries config) rules := by
  induction entries generalizing index rules with
  | nil =>
      cases hRules
      exact ⟨by simp, by simp [BuiltIn.settingsIn?]⟩
  | cons entry entries ih =>
      obtain ⟨builtIn, severity⟩ := entry
      rcases Linter.startFrom_cons hRules with
        ⟨hDisabled, hRest⟩ | ⟨active, others, hEnabled, hActive, hOthers, rfl⟩
      · obtain ⟨hEach, hSome⟩ := ih hRest
        refine ⟨fun rule hRule => ?_, fun settings hSettings => hSome settings ?_⟩
        · exact (hEach rule hRule).imp_right fun ⟨settings, hSettings, hGives⟩ =>
            ⟨settings, BuiltIn.settingsIn?_cons_of_some hSettings, hGives⟩
        · by_cases hSame : builtIn = .handleDefault
          · subst hSame
            have hNone : HandleDefault.settingsIn? config = none :=
              if_neg (ne_true_of_eq_false hDisabled)
            rw [BuiltIn.settingsIn?_cons_handleDefault, hNone] at hSettings
            cases hSettings
          · rwa [BuiltIn.settingsIn?_cons_of_ne hSame] at hSettings
      · obtain ⟨hEach, hSome⟩ := ih hOthers
        have hFirst := BuiltIn.isQuiet_or_gives hEnabled hActive
        refine ⟨List.forall_mem_cons.mpr ⟨?_, fun rule hRule => ?_⟩, fun settings hSettings => ?_⟩
        · rcases hFirst with ⟨hQuiet, -⟩ | ⟨rfl, settings, hSettings, hGives⟩
          · exact .inl hQuiet
          · exact .inr ⟨settings, BuiltIn.settingsIn?_cons_handleDefault.trans hSettings, hGives⟩
        · exact (hEach rule hRule).imp_right fun ⟨settings, hSettings, hGives⟩ =>
            ⟨settings, BuiltIn.settingsIn?_cons_of_some hSettings, hGives⟩
        · rcases hFirst with ⟨-, hOther⟩ | ⟨rfl, found, hFound, hGives⟩
          · rw [BuiltIn.settingsIn?_cons_of_ne hOther] at hSettings
            obtain ⟨rule, hRule, hGives⟩ := hSome settings hSettings
            exact ⟨rule, List.mem_cons_of_mem _ hRule, hGives⟩
          · rw [BuiltIn.settingsIn?_cons_handleDefault, hFound, Option.some.injEq] at hSettings
            exact ⟨active, by simp, hSettings ▸ hGives⟩

/-- A completed file is well-formed. -/
theorem HandleDefault.wellFormed_completed (settings? : Option HandleDefault.Settings) {root : Node}
    (h : root.WellFormed) : (completed settings? root).WellFormed := by
  apply h.appendAt wellFormed_emptyHandle
  intro place below hPlace hBelow
  rw [kind_of_gains h (of_decide_eq_true hPlace) hBelow]
  decide

/-- Every node of a file is in the completed file too, in the same place, and has one child more
if it gained one. -/
theorem HandleDefault.descendant?_completed {settings? : Option HandleDefault.Settings}
    {root node : Node} (h : root.WellFormed) {place : Path}
    (hNode : root.descendant? place = some node) :
    ∃ after, ((completed settings? root).layout 0).descendant? place = some after ∧
      after.kind = node.kind ∧ after.payload = node.payload ∧
      after.children.length = node.children.length +
        if Gains settings? root place then 1 else 0 := by
  have hOld := Node.descendant?_appendAt emptyHandle
    (fun place => decide (Gains settings? root place)) hNode
  have hThere := Node.descendant?_layout (wellFormed_completed settings? h) 0 place
  rw [completed, hOld, Option.map_some] at hThere
  refine ⟨_, hThere, ?_, ?_, ?_⟩
  · rw [Node.kind_layout, Node.kind_appendAt]
  · rw [Node.payload_layout, Node.payload_appendAt]
  · rw [Node.length_children_layout, Node.children_appendAt, List.length_append,
      Node.length_appendAtAll, List.append_nil]
    split <;> simp_all

/-- The text of a completed file is that of the file with default values put in. -/
theorem HandleDefault.text_completed (settings? : Option HandleDefault.Settings) {root : Node}
    (h : root.WellFormed) (hLaid : root.layout 0 = root) :
    (completed settings? root).text.toList = Text.interject " = Modifier".toList
      (Node.endsAt root.preorder fun place => decide (Gains settings? root place)) 0
      root.text.toList := by
  apply Node.text_appendAt emptyHandle h hLaid [] fun place => decide (Gains settings? root place)
  intro place below hPlace hBelow
  rw [kind_of_gains h (of_decide_eq_true hPlace) hBelow]
  decide

/-- A run of built-in rules over a file that a builder made ends in the completed file. -/
theorem BuiltIn.root_runRules {entries : List (BuiltIn × Severity)} {config : Config}
    {rules : List ActiveRule} {tree : SourceTree}
    (hRules : Linter.startFrom config 0 (entries.map fun entry => entry.1.rule entry.2) = .ok rules)
    (hTree : tree.Canonical) (hFile : tree.root.kind = .file)
    (hSize : (completed (BuiltIn.settingsIn? entries config) tree.root).size < distanceBound) :
    (UiLint.runRules rules tree true).tree.root =
      (completed (BuiltIn.settingsIn? entries config) tree.root).layout 0 := by
  have hGiving := Giving.runRules (BuiltIn.tame_of_startFrom hRules) hTree hFile hSize
  obtain ⟨hRoot, hStart⟩ := hGiving.sound.canonical.root
  have hSame := hGiving.grown.eq_layout hRoot (wellFormed_completed _ hTree.wellFormed)
  rwa [hStart] at hSame

/-- The rules of a preset with their severities. -/
def Preset.entries : Preset → List (BuiltIn × Severity)
  | recommended => BuiltIn.all.map (·, .warning)
  | strict => BuiltIn.all.map (·, .error)
  | minimal => [(.handleDefault, .warning)]

theorem Preset.rules_eq (preset : Preset) :
    preset.rules = preset.entries.map fun entry => entry.1.rule entry.2 := by
  cases preset <;> rfl

theorem Preset.settingsIn?_entries (preset : Preset) (config : Config) :
    BuiltIn.settingsIn? preset.entries config = HandleDefault.settingsIn? config := by
  cases preset <;> rfl

/-- A run of a preset that fixes ends in the file with a default value appended to exactly those
parameters that gain one, laid out. Every old node keeps its kind, its payload and its place, and
the new text is the old one with the default value put in at the end of each such parameter. -/
theorem Preset.lintAndFix_eq_completed {events : List Event} {tree : SourceTree}
    (hTree : SourceTree.ofEvents events = .ok tree) (preset : Preset) (config : Config)
    {rules : List ActiveRule} (hRules : (preset.linter config).start = .ok rules) (path : String)
    (hFits : (completed (settingsIn? config) tree.root).text.utf8ByteSize < distanceBound) :
    ∃ fixed, (preset.linter config).lintAndFix ⟨path, tree⟩ = .ok fixed ∧
      fixed.tree.root = (completed (settingsIn? config) tree.root).layout 0 ∧
      (∀ place node, tree.root.descendant? place = some node →
        ∃ after, fixed.tree.root.descendant? place = some after ∧ after.kind = node.kind ∧
          after.payload = node.payload ∧
          after.children.length = node.children.length +
            if Gains (settingsIn? config) tree.root place then 1 else 0) ∧
      fixed.source.toList = Text.interject " = Modifier".toList
        (Node.endsAt tree.root.preorder fun place =>
          decide (Gains (settingsIn? config) tree.root place)) 0 tree.text.toList := by
  obtain ⟨hCanonical, hFile⟩ := SourceTree.canonical_of_ofEvents hTree
  have hStart : Linter.startFrom config 0
      (preset.entries.map fun entry => entry.1.rule entry.2) = .ok rules := by
    rw [← preset.rules_eq]
    exact hRules
  have hEnd := BuiltIn.root_runRules hStart hCanonical hFile (by
    rw [preset.settingsIn?_entries]
    exact hFits)
  rw [preset.settingsIn?_entries] at hEnd
  refine ⟨_, Linter.run_eq_ok hRules ⟨path, tree⟩ true, hEnd, ?_, ?_⟩
  · intro place node hNode
    simp only [hEnd]
    exact descendant?_completed hCanonical.wellFormed hNode
  · have hText := text_completed (settingsIn? config) hCanonical.wellFormed hCanonical.laid
    rw [← Node.text_layout 0, ← hEnd] at hText
    exact hText

namespace Nested

/-- The events of a UI function with a handle, after its keyword; `inside` comes in its body. -/
def function (name : String) (marks : List AnnotationEntry) (inside : List Event) : List Event :=
  [.start .functionDeclaration (.function { name, annotations := ⟨"Composable", []⟩ :: marks }),
    .token ("fun " ++ name), .start .parameterList .plain, .token "(",
    .start .parameter (.parameter ⟨"m", "Modifier"⟩), .token "m: Modifier", .finish, .token ")",
    .finish, .start .body .plain, .token " = run("] ++ inside ++ [.token ")", .finish, .finish]

/-- A function around another one and around a third one for which the rule is suppressed. -/
def events : List Event :=
  [.start .file (.file {})] ++ function "A" [] (function "B" [] [] ++
    function "C" [⟨"Suppress", ["compose:modifier-without-default-check"]⟩] []) ++ [.finish]

end Nested

/-- Two of three nested functions have a handle that gains a default value. -/
theorem Preset.lintAndFix_eq_completed_nested :
    ∃ tree fixed, SourceTree.ofEvents Nested.events = .ok tree ∧
      (Preset.recommended.linter {}).lintAndFix ⟨"A", tree⟩ = .ok fixed ∧
      fixed.tree.root = (completed (settingsIn? {}) tree.root).layout 0 ∧
      fixed.source = "fun A(m: Modifier = Modifier) = run(" ++
        "fun B(m: Modifier = Modifier) = run()fun C(m: Modifier) = run())" := by
  have hTree : SourceTree.ofEvents Nested.events = .ok _ := rfl
  obtain ⟨fixed, hFixed, hRoot, -, -⟩ := Preset.lintAndFix_eq_completed hTree .recommended {} rfl "A"
    (by decide +kernel)
  refine ⟨_, fixed, hTree, hFixed, hRoot, ?_⟩
  cases hFixed
  decide +kernel

/-- Nothing is asked for in a completed file. -/
theorem HandleDefault.not_gains_of_grown {settings? : Option HandleDefault.Settings}
    {root grown : Node} (h : Node.GrownTo emptyHandle root
      (fun place => decide (Gains settings? root place)) grown) (place : Path) :
    ¬ Gains settings? grown place := by
  rintro ⟨settings, hSettings, path, hAsks⟩
  obtain ⟨hOld, hNot⟩ := (asks_grown_iff h).mp hAsks
  exact of_decide_eq_false hNot ⟨settings, hSettings, path, hOld⟩

theorem HandleDefault.completed_of_not_gains {settings? : Option HandleDefault.Settings} {root : Node}
    (hNone : ∀ place, ¬ Gains settings? root place) : completed settings? root = root := by
  have hChoice : (fun place => decide (Gains settings? root place)) = fun _ => false :=
    funext fun place => decide_eq_false (hNone place)
  rw [completed, hChoice, Node.appendAt_of_none]

/-- One run of built-in rules that fixes leaves nothing that could be fixed; another run of the
same linter reports nothing that could be and ends in the same tree and text. -/
theorem BuiltIn.lintAndFix_fixed_point {events : List Event} {tree : SourceTree}
    (hTree : SourceTree.ofEvents events = .ok tree) (entries : List (BuiltIn × Severity))
    (config : Config) (workers : Option Nat) {rules : List ActiveRule}
    (hRules : (Linter.build (entries.map fun entry => entry.1.rule entry.2) config workers).start =
      .ok rules) (path : String)
    (hFits : (completed (BuiltIn.settingsIn? entries config) tree.root).text.utf8ByteSize <
      distanceBound) :
    ∃ fixed again,
      (Linter.build (entries.map fun entry => entry.1.rule entry.2) config workers).lintAndFix
        ⟨path, tree⟩ = .ok fixed ∧
      fixed.report.hasUnfixed = false ∧
      (Linter.build (entries.map fun entry => entry.1.rule entry.2) config workers).lintAndFix
        ⟨path, fixed.tree⟩ = .ok again ∧
      (∀ found ∈ again.report.violations, found.fixable = false) ∧
      again.tree = fixed.tree ∧ again.source = fixed.source := by
  obtain ⟨hCanonical, hFile⟩ := SourceTree.canonical_of_ofEvents hTree
  have hStart : Linter.startFrom config 0 (entries.map fun entry => entry.1.rule entry.2) =
      .ok rules := hRules
  have hTame := BuiltIn.tame_of_startFrom hStart
  have hFirst := Giving.runRules hTame hCanonical hFile hFits
  have hNothing := not_gains_of_grown hFirst.grown
  have hSame := completed_of_not_gains hNothing
  have hStillFile := hFirst.grown.kind.trans hFile
  have hStillFits : (completed (BuiltIn.settingsIn? entries config)
      (runRules rules tree true).tree.root).size < distanceBound := by
    rw [hSame]
    exact hFirst.sound.fits
  have hSecond := Giving.runRules hTame hFirst.sound.canonical hStillFile hStillFits
  have hRoot := BuiltIn.root_runRules hStart hFirst.sound.canonical hStillFile hStillFits
  rw [hSame, hFirst.sound.canonical.laid] at hRoot
  have hAgain : (runRules rules (runRules rules tree true).tree true).tree =
      (runRules rules tree true).tree := congrArg SourceTree.mk hRoot
  refine ⟨_, _, Linter.run_eq_ok hRules ⟨path, tree⟩ true, ?_, Linter.run_eq_ok hRules ⟨path, _⟩ true,
    ?_, hAgain, congrArg SourceTree.text hAgain⟩
  · rw [FileReport.hasUnfixed, List.any_eq_false]
    intro found hFound
    obtain ⟨finding, hFinding, rule, -, rfl⟩ := Linter.mem_violations.mp hFound
    simp only [Linter.violation, Violation.withFix]
    cases hCase : finding.fixable with
    | false => simp
    | true => simp [hFirst.fixed finding hFinding hCase]
  · intro found hFound
    obtain ⟨finding, hFinding, rule, -, rfl⟩ := Linter.mem_violations.mp hFound
    show finding.fixable = false
    cases hCase : finding.fixable with
    | false => rfl
    | true =>
        obtain ⟨place, hPlace⟩ := hSecond.told finding hFinding hCase
        exact absurd (of_decide_eq_true hPlace) (hNothing place)

/-- The rule that fixes, registered twice and between others. -/
theorem BuiltIn.lintAndFix_fixed_point_nested :
    ∃ tree fixed again, SourceTree.ofEvents Nested.events = .ok tree ∧
      (Linter.build [BuiltIn.parameterOrder.rule, BuiltIn.handleDefault.rule .error,
        BuiltIn.handleMissing.rule, BuiltIn.handleDefault.rule] {} (some 1)).lintAndFix
          ⟨"A", tree⟩ = .ok fixed ∧
      fixed.report.hasUnfixed = false ∧ fixed.source ≠ tree.text ∧
      (Linter.build [BuiltIn.parameterOrder.rule, BuiltIn.handleDefault.rule .error,
        BuiltIn.handleMissing.rule, BuiltIn.handleDefault.rule] {} (some 1)).lintAndFix
          ⟨"A", fixed.tree⟩ = .ok again ∧
      again.source = fixed.source := by
  have hTree : SourceTree.ofEvents Nested.events = .ok _ := rfl
  obtain ⟨fixed, again, hFixed, hNone, hAgain, -, -, hSource⟩ := BuiltIn.lintAndFix_fixed_point hTree
    [(.parameterOrder, .warning), (.handleDefault, .error), (.handleMissing, .warning),
      (.handleDefault, .warning)] {} (some 1) rfl "A" (by decide +kernel)
  refine ⟨_, fixed, again, hTree, hFixed, hNone, ?_, hAgain, hSource⟩
  cases hFixed
  decide +kernel

end UiLint
