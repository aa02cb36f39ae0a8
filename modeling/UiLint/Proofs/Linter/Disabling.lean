import UiLint.Proofs.Engine.FileMarks
import UiLint.Proofs.Linter.Refusal
import UiLint.Proofs.Sketch.Build

/-! Two ways to keep a rule away from a file. A mark on the file suppresses the rule wherever the walk
comes; the configuration can turn it off before the walk. For built-in rules the two come to the
same. -/
namespace UiLint

namespace Config

/-- The configuration with a rule turned off. Whatever else it says about the rule stays. -/
def disable (config : Config) (rule : String) : Config :=
  let said := (config.rules.get? rule).getD {}
  { config with rules := config.rules.insert rule { said with enabled := some false } }

variable (config : Config) (rule name : String)

theorem isRuleEnabled_disable :
    (config.disable rule).isRuleEnabled name = (name != rule && config.isRuleEnabled name) := by
  by_cases hName : name = rule
  · simp [isRuleEnabled, disable, hName]
  · simp [isRuleEnabled, disable, hName]

theorem ruleSeverity?_disable :
    (config.disable rule).ruleSeverity? name = config.ruleSeverity? name := by
  by_cases hName : name = rule
  · cases hEntry : config.rules.get? rule <;> simp [ruleSeverity?, disable, hName, hEntry]
  · simp [ruleSeverity?, disable, hName]

end Config

namespace Linter

/-- Without a rule that is turned off, the others start as they do with it, each at its place. -/
theorem startFrom_disable {config : Config} {index : Nat} {rules : List Rule}
    {active : List ActiveRule} (hActive : startFrom config index rules = .ok active)
    (rule : String) :
    startFrom (config.disable rule) index rules = .ok (active.filter (·.name != rule)) := by
  induction rules generalizing index active with
  | nil =>
      cases hActive
      rfl
  | cons first rules ih =>
      rw [startFrom, Config.isRuleEnabled_disable]
      rcases startFrom_cons hActive with
        ⟨hDisabled, hRest⟩ | ⟨started, others, hEnabled, hStarted, hOthers, rfl⟩
      · rw [hDisabled, Bool.and_false, if_neg Bool.false_ne_true]
        exact ih hRest
      · obtain ⟨options, visitor, -, -, hSame⟩ := startRule_eq_ok hStarted
        have hName : started.name = first.name := by rw [hSame]
        rw [hEnabled, Bool.and_true, List.filter_cons, hName, ih hOthers,
          show startRule (config.disable rule) first index = startRule config first index from rfl,
          hStarted]
        split <;> rfl

/-- Findings amount to the same violations, as no severity changes. -/
theorem violations_disable (rules : List Rule) (config : Config) (workers : Option Nat)
    (rule text : String) (findings : List Finding) :
    violations ⟨rules, config.disable rule, workers⟩ text findings =
      violations ⟨rules, config, workers⟩ text findings := by
  simp only [violations, violation, Config.ruleSeverity?_disable]

end Linter

/-- A file header is not an interface. -/
theorem Site.isInInterface_withHeader {root : Node} {header : FileHeader}
    (hRoot : root.payload = .file header) (other : FileHeader) (path : Path) (node : Node) :
    isInInterface ⟨root.withHeader other, path, node⟩ = isInInterface ⟨root, path, node⟩ := by
  refine congrArg (·.getD false) (HandleDefault.findSome?_of_map_eq (fun _ _ hSame => hSame) ?_)
  simp only [ancestors, List.map_filterMap]
  apply List.filterMap_congr
  intro above _
  cases above with
  | nil => simp [Site.at?, Node.descendant?, Node.withHeader, hRoot]
  | cons index above =>
      rw [Site.at?, Site.at?, Node.descendant?_withHeader _ _ (List.cons_ne_nil _ _)]
      cases root.descendant? (index :: above) <;> rfl

theorem Check.overlooksFile (check : Check) :
    (Visitor.stateless check.respond).OverlooksFile := by
  intro state subject root header other path node fixing hRoot
  have hPlace := Site.isInInterface_withHeader hRoot other path node
  refine Prod.ext rfl ?_
  show check.respond _ = check.respond _
  cases check with
  | handleDefault settings =>
      simp only [respond, HandleDefault.check, HandleDefault.isExempt, hPlace]
  | handleMissing settings =>
      simp only [respond, HandleMissing.check, HandleMissing.isExempt, hPlace]
  | parameterOrder aliases => rfl

/-- A file that has been built has a header. -/
theorem SourceTree.exists_header_of_ofEvents {events : List Event} {tree : SourceTree}
    (hTree : SourceTree.ofEvents events = .ok tree) : ∃ header, tree.root.payload = .file header := by
  obtain ⟨hCanonical, hKind⟩ := canonical_of_ofEvents hTree
  have hFits := hCanonical.wellFormed.fits
  rw [hKind] at hFits
  cases hPayload : tree.root.payload with
  | file header => exact ⟨header, rfl⟩
  | _ =>
      rw [hPayload] at hFits
      cases hFits

/-- A mark that suppresses a rule adds the rule to what the marks suppress. -/
theorem suppressesToo_suppress (rule : String) (before after : List AnnotationEntry) :
    SuppressesToo rule (suppressedBy (before ++ Sketch.suppress rule :: after))
      (suppressedBy (before ++ after)) := by
  have hMark : (Sketch.suppress rule).simpleName = "Suppress" :=
    show Text.simpleName "Suppress" = "Suppress" by decide
  have hWith : suppressedBy (before ++ Sketch.suppress rule :: after) =
      suppressedBy before ++ rule :: suppressedBy after := by
    simp [suppressedBy, hMark]
    rfl
  have hWithout : suppressedBy (before ++ after) = suppressedBy before ++ suppressedBy after := by
    simp [suppressedBy]
  intro name
  rw [hWith, hWithout, List.mem_append, List.mem_append, List.mem_cons, or_left_comm]

/-- Rules that overlook the file's header: whether one is suppressed by the marks on the file or
turned off, the run ends with the same report and, but for the marks, with the same tree. -/
theorem Linter.run_suppressed {rules : List Rule} {config : Config} {workers : Option Nat}
    {active : List ActiveRule} (hActive : start ⟨rules, config, workers⟩ = .ok active)
    (hOverlook : ∀ started ∈ active, started.visitor.OverlooksFile)
    (hFile : ∀ started ∈ active, started.hooks.contains .file = false)
    {tree : SourceTree} {header marked : FileHeader} (hHeader : tree.root.payload = .file header)
    {rule : String} (hSuppressed : SuppressesToo rule (suppressedBy marked.annotations)
      (suppressedBy header.annotations)) (path : String) (fixing : Bool) :
    ∃ suppressed disabled,
      run ⟨rules, config, workers⟩ ⟨path, tree.withHeader marked⟩ fixing = .ok suppressed ∧
      run ⟨rules, config.disable rule, workers⟩ ⟨path, tree⟩ fixing = .ok disabled ∧
      suppressed.report = disabled.report ∧ suppressed.source = disabled.source ∧
      suppressed.tree = disabled.tree.withHeader marked ∧
      disabled.tree.fileHeader? = some header := by
  have hDisabled : start ⟨rules, config.disable rule, workers⟩ =
      .ok (active.filter (·.name != rule)) := startFrom_disable hActive rule
  have hEnd := runRules_inStep hHeader hOverlook hFile hSuppressed fixing
  have hText : (runRules active (tree.withHeader marked) fixing).tree.text =
      (runRules (active.filter (·.name != rule)) tree fixing).tree.text := by
    rw [hEnd.tree]
    exact Node.text_withHeader hEnd.file marked
  refine ⟨_, _, run_eq_ok hActive _ fixing, run_eq_ok hDisabled _ fixing, ?_, hText, hEnd.tree, ?_⟩
  · simp only [hText, hEnd.findings, hEnd.aborted, violations_disable]
  · rw [SourceTree.fileHeader?, hEnd.file]
    rfl

namespace BuiltIn

variable {entries : List (BuiltIn × Severity)} {config : Config} {workers : Option Nat}

/-- A linter of built-in rules starts if the options of those that are enabled resolve. -/
theorem exists_start (hOptions : ∀ rule ∈ (linter entries config workers).rules,
      config.isRuleEnabled rule.name = true →
        ∃ options, Options.resolve rule.options config.settings = .ok options) :
    ∃ rules, (linter entries config workers).start = .ok rules := by
  cases hStart : (linter entries config workers).start with
  | ok rules => exact ⟨rules, rfl⟩
  | error error =>
      obtain ⟨rule, -, -, hRule, -⟩ := (startFrom_eq_error_iff 0).mp hStart
      have hMisfits := List.find?_some hRule
      rw [Rule.misfits, Bool.and_eq_true, ← Options.exists_resolve_error_iff] at hMisfits
      obtain ⟨hEnabled, source, hSource⟩ := hMisfits
      obtain ⟨options, hResolved⟩ := hOptions rule (List.mem_of_find?_eq_some hRule) hEnabled
      cases hResolved.symm.trans hSource

/-- Suppressing a rule for a whole file is the same as turning it off. Wherever a mark that suppresses
the rule is put among the marks on the file, the run with it and the run without the rule both end,
with the same report, the same source and, but for that mark, the same tree. -/
theorem run_suppressed_eq_run_disabled {events : List Event} {tree : SourceTree}
    (hTree : SourceTree.ofEvents events = .ok tree)
    (hOptions : ∀ rule ∈ (linter entries config workers).rules,
      config.isRuleEnabled rule.name = true →
        ∃ options, Options.resolve rule.options config.settings = .ok options)
    (rule path : String) (fixing : Bool) :
    ∃ header, tree.fileHeader? = some header ∧ ∀ before after, header.annotations = before ++ after →
      ∃ suppressed disabled,
        (linter entries config workers).run
          ⟨path, tree.withHeader ⟨before ++ Sketch.suppress rule :: after⟩⟩ fixing = .ok suppressed ∧
        (linter entries (config.disable rule) workers).run ⟨path, tree⟩ fixing = .ok disabled ∧
        suppressed.report = disabled.report ∧ suppressed.source = disabled.source ∧
        suppressed.tree = disabled.tree.withHeader ⟨before ++ Sketch.suppress rule :: after⟩ ∧
        disabled.tree.fileHeader? = some header := by
  obtain ⟨header, hHeader⟩ := SourceTree.exists_header_of_ofEvents hTree
  obtain ⟨active, hActive⟩ := exists_start hOptions
  refine ⟨header, by rw [SourceTree.fileHeader?, hHeader]; rfl, fun before after hMarks => ?_⟩
  have hSuppressed := suppressesToo_suppress rule before after
  rw [← hMarks] at hSuppressed
  refine Linter.run_suppressed hActive ?_ ?_ hHeader hSuppressed path fixing
  · intro started hStarted
    obtain ⟨_, check, -, -, hVisitor, -⟩ := checkAt?_of_startFrom hActive started hStarted
    rw [hVisitor]
    exact check.overlooksFile
  · intro started hStarted
    obtain ⟨_, _, -, -, -, hFile⟩ := checkAt?_of_startFrom hActive started hStarted
    exact hFile

end BuiltIn

namespace MarkedFile

/-- A UI function with a handle that has no default value, and one that shows a text and takes no
handle. -/
def sketch : Sketch.File where
  items := [
    .function (.mk { name := "A", annotations := [⟨"Composable", []⟩] } [⟨"a", "Modifier", none⟩] []),
    .function (.mk { name := "B", annotations := [⟨"Composable", []⟩] } []
      [.call ⟨{ callee := "Text" }, none⟩])]

/-- The rule about missing handles is there twice. -/
def entries : List (BuiltIn × Severity) :=
  [(.handleMissing, .error), (.handleDefault, .warning), (.handleMissing, .info)]

end MarkedFile

/-- The missing handle is not reported, whether the rule is suppressed or turned off, and the other
rule has the last word on the source. -/
theorem BuiltIn.run_suppressed_eq_run_disabled_twice :
    ∃ tree suppressed disabled, MarkedFile.sketch.build = .ok tree ∧
      (linter MarkedFile.entries {} none).run
        ⟨"A", tree.withHeader ⟨[Sketch.suppress HandleMissing.rule.name]⟩⟩ true = .ok suppressed ∧
      (linter MarkedFile.entries (Config.disable {} HandleMissing.rule.name) none).run ⟨"A", tree⟩
        true = .ok disabled ∧
      suppressed.report = disabled.report ∧
      suppressed.tree = disabled.tree.withHeader ⟨[Sketch.suppress HandleMissing.rule.name]⟩ ∧
      suppressed.report.violations.map (·.rule) = [HandleDefault.rule.name] ∧
      suppressed.source = "@Composable\nfun A(a: Modifier = Modifier) \x7b\n\x7d\n" ++
        "@Composable\nfun B() \x7b\n    Text()\n\x7d\n" := by
  have hOptions : ∀ rule ∈ (linter MarkedFile.entries {} none).rules,
      ({} : Config).isRuleEnabled rule.name = true →
        ∃ options, Options.resolve rule.options ({} : Config).settings = .ok options := by
    intro rule hRule _
    simp only [linter, Linter.build, MarkedFile.entries, List.map_cons, List.map_nil, List.mem_cons,
      List.not_mem_nil, or_false] at hRule
    rcases hRule with rfl | rfl | rfl <;> exact ⟨_, rfl⟩
  obtain ⟨tree, hTree, -⟩ := MarkedFile.sketch.exists_build
  obtain ⟨header, hHeader, hAll⟩ := run_suppressed_eq_run_disabled hTree hOptions
    HandleMissing.rule.name "A" true
  cases hTree
  cases hHeader
  obtain ⟨suppressed, disabled, hFirst, hSecond, hReport, -, hEnd, -⟩ := hAll [] [] rfl
  refine ⟨_, suppressed, disabled, rfl, hFirst, hSecond, hReport, hEnd, ?_, ?_⟩
  · cases hFirst
    decide +kernel
  · cases hFirst
    decide +kernel

end UiLint
