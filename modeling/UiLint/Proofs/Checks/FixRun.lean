import UiLint.Proofs.Checks.HandleDefault
import UiLint.Proofs.Engine.Findings
import UiLint.Proofs.Tree.Depth

/-! Runs that fix with the built-in rules. Such a run is an interleaving of walking, looking and
editing; what comes out is the file in which every parameter that was asked for has been given
its default value, and nothing else has changed. -/
namespace UiLint

open HandleDefault

namespace ActiveRule

/-- The rule asks for no edits and says nothing that could be fixed. -/
def IsQuiet (rule : ActiveRule) : Prop :=
  ∃ visit, rule.visitor = .stateless visit ∧ ∀ visited,
    (visit visited).edits = [] ∧ ∀ remark ∈ (visit visited).remarks, remark.fixable = false

/-- The rule is the one that gives default values, with these settings. -/
structure Gives (rule : ActiveRule) (settings : HandleDefault.Settings) : Prop where
  name : rule.name = HandleDefault.rule.name
  hooks : rule.hooks = Hooks.none.add .composable
  visitor : rule.visitor = .stateless (check settings)

end ActiveRule

/-- Rules of which all are quiet but those that give default values. There are such if and only
if there are settings for them. -/
structure Tame (settings? : Option HandleDefault.Settings) (rules : List ActiveRule) : Prop where
  each : ∀ rule ∈ rules, rule.IsQuiet ∨ ∃ settings, settings? = some settings ∧ rule.Gives settings
  some : ∀ settings, settings? = some settings → ∃ rule ∈ rules, rule.Gives settings

/-- How far a run over a file has come in giving default values: those at the given places have
been given, all of them were asked for, and what could be fixed has been. -/
structure Giving (settings? : Option HandleDefault.Settings) (root : Node) (given : Path → Bool)
    (progress : Progress) : Prop where
  sound : progress.Sound
  fits : ∀ call ∈ progress.calls, call.Fits
  grown : Node.GrownTo emptyHandle root given progress.tree.root
  asked : ∀ place, given place = true → Gains settings? root place
  fixed : ∀ finding ∈ progress.findings, finding.fixable = true → finding.autoFixed = true
  told : ∀ finding ∈ progress.findings, finding.fixable = true → ∃ place, given place = true

/-- The file in which every parameter that gains a default value has been given it. -/
def HandleDefault.completed (settings? : Option HandleDefault.Settings) (root : Node) : Node :=
  root.appendAt emptyHandle fun place => decide (Gains settings? root place)

section Call

variable {settings? : Option HandleDefault.Settings} {root : Node} {given : Path → Bool}
  {progress : Progress} {call : Call}

theorem Giving.fits_take (h : Giving settings? root given progress) (hFits : call.Fits) :
    ∀ other ∈ (progress.take call).calls, other.Fits := by
  rw [Progress.calls_take, List.forall_mem_append, List.forall_mem_singleton]
  exact ⟨h.fits, hFits⟩

/-- A call without edits and without remarks that could be fixed changes nothing that matters. -/
theorem Giving.take_quiet (h : Giving settings? root given progress) (hAt : call.IsAt progress)
    (hEdits : call.response.edits = [])
    (hRemarks : ∀ remark ∈ call.response.remarks, remark.fixable = false) :
    Giving settings? root given (progress.take call) := by
  have hNoEdits : call.edits = [] := by
    rw [Call.edits, hEdits, ite_self]
  have hNone : call.draft? = none := by
    unfold Call.draft?
    split
    · rfl
    · simp [hNoEdits]
  have hFits : call.Fits := Call.fits_of_no_edits hNoEdits
  have hTree : (progress.take call).tree = progress.tree := by
    rcases h.sound.take_of_no_draft hAt hFits hNone with hTake | ⟨detail, hTake⟩ <;> rw [hTake] <;> rfl
  obtain ⟨failures, hFailures, hFindings⟩ :=
    h.sound.findings_take_of_no_draft hAt hFits hNone
  have hOld : ∀ finding ∈ (progress.take call).findings, finding.fixable = true →
      finding ∈ progress.findings := by
    intro finding hMem hFixable
    rw [hFindings, List.mem_append, List.mem_append] at hMem
    rcases hMem with (hMem | hMem) | hMem
    · exact hMem
    · obtain ⟨remark, hRemark, hSame⟩ := Finding.fixable_of_mem_ofRemarks hMem
      rw [hSame, hRemarks remark hRemark] at hFixable
      cases hFixable
    · rw [hFailures finding hMem] at hFixable
      cases hFixable
  exact ⟨h.sound.take hAt hFits, h.fits_take hFits, by rw [hTree]; exact h.grown, h.asked,
    fun finding hMem hFixable => h.fixed finding (hOld finding hMem hFixable) hFixable,
    fun finding hMem hFixable => h.told finding (hOld finding hMem hFixable) hFixable⟩

/-- The size of a file in which only such parameters have been given a default value as gain
one is bounded by that of the completed file. -/
theorem size_le_completed {chosen : Path → Bool} {grown : Node}
    (h : Node.GrownTo emptyHandle root chosen grown)
    (hChosen : ∀ place, chosen place = true → Gains settings? root place) :
    grown.size ≤ (completed settings? root).size := by
  rw [h.size, completed]
  exact Node.size_appendAt_le emptyHandle root fun place hPlace =>
    decide_eq_true (hChosen place hPlace)

/-- A call fits if its drafts grow at most where something is asked for. -/
theorem Giving.fits_of_drafts {function : Node}
    (hSize : (completed settings? root).size < distanceBound)
    (h : Giving settings? root given progress) (hAt : call.IsAt progress)
    (hFunction : root.descendant? call.site.path = some function)
    (hDrafts : ∀ draft ∈ Edit.drafts call.site.node call.edits, ∃ chosen,
      (∀ rest, chosen rest = true → Gains settings? root (call.site.path ++ rest)) ∧
        Node.GrownTo emptyHandle function chosen draft) : call.Fits := by
  intro stage hStage
  unfold Call.stages at hStage
  split at hStage
  · cases hStage
  · obtain ⟨draft, hMem, rfl⟩ := List.mem_map.mp hStage
    obtain ⟨chosen, hChosen, hDraftGrown⟩ := hDrafts draft hMem
    rw [hAt.site.1]
    refine Nat.lt_of_le_of_lt (size_le_completed (h.grown.replaceAt hFunction hDraftGrown) ?_) hSize
    intro place hPlace
    rcases Path.choose_eq_true_iff.mp hPlace with ⟨rest, rfl, hRest⟩ | ⟨-, hPlace⟩
    · exact hChosen rest hRest
    · exact h.asked place hPlace

/-- A call in which default values are given to some handles that were asked for. -/
theorem Giving.take_giveDefault {settings : HandleDefault.Settings} {function : Node}
    {header : FunctionHeader} (targets : List Path) (hRoot : root.WellFormed)
    (hSettings : settings? = some settings)
    (hSize : (completed settings? root).size < distanceBound)
    (h : Giving settings? root given progress) (hAt : call.IsAt progress)
    (hInspects : Inspects settings root call.site.path function header)
    (hTargets : ∀ target ∈ targets, ∃ i j list parameter,
      Undefaulted settings.aliases function i j list parameter ∧ target = [i, j])
    (hSome : targets ≠ []) (hEnding : call.response.ending.failure? = none)
    (hEdits : call.edits = targets.map giveDefault) :
    Giving settings? root
      (fun place => (place.relativeTo? call.site.path).any (decide <| · ∈ targets) || given place)
      (progress.take call) := by
  obtain ⟨found, hFound, hGrown⟩ := h.grown.descendant hInspects.found
  obtain rfl : found = call.site.node := Option.some.inj (hFound.symm.trans hAt.site.2)
  have hGains : ∀ target ∈ targets, Gains settings? root (call.site.path ++ target) := by
    intro target hTarget
    obtain ⟨i, j, list, parameter, hLacks, rfl⟩ := hTargets target hTarget
    exact ⟨settings, hSettings, call.site.path, function, header, i, j, list, parameter, hInspects,
      hLacks, rfl⟩
  have hParameters : ∀ target ∈ targets, ∃ parameter, function.descendant? target = some parameter ∧
      parameter.kind = .parameter ∧ ∀ part ∈ parameter.children, part.kind ≠ .defaultValue := by
    intro target hTarget
    obtain ⟨i, j, list, parameter, hLacks, rfl⟩ := hTargets target hTarget
    exact ⟨parameter, hLacks.descendant?, hLacks.kind_eq (hRoot.descendant hInspects.found),
      hLacks.undefaulted⟩
  obtain ⟨⟨next, hNext, hNextGrown⟩, hDrafts⟩ := redraftAll?_giveDefault hGrown hParameters
  have hDraft : call.draft? = some next := by
    simp only [Call.draft?, hEnding]
    rw [hEdits, if_neg (by simpa using hSome), hNext]
  have hFits : call.Fits := by
    refine h.fits_of_drafts hSize hAt hInspects.found fun draft hDraft => ?_
    rw [hEdits] at hDraft
    obtain ⟨chosen, hChosen, hDraftGrown⟩ := hDrafts draft hDraft
    refine ⟨chosen, fun rest hRest => ?_, hDraftGrown⟩
    rcases hChosen rest hRest with hTarget | hGiven
    · exact hGains rest hTarget
    · exact h.asked _ hGiven
  refine ⟨h.sound.take hAt hFits, h.fits_take hFits, ?_, ?_, ?_, ?_⟩
  · rw [h.sound.take_of_draft hAt hFits hDraft, ← Path.choose_or]
    exact (h.grown.replaceAt hInspects.found hNextGrown).layout 0
  · intro place hPlace
    rw [Bool.or_eq_true, Option.any_eq_true] at hPlace
    rcases hPlace with ⟨rest, hRest, hTarget⟩ | hPlace
    · rw [Path.relativeTo?_eq_some_iff.mp hRest]
      exact hGains rest (of_decide_eq_true hTarget)
    · exact h.asked place hPlace
  · intro finding hMem hFixable
    rw [h.sound.findings_take_of_draft hAt hFits hDraft, List.mem_append] at hMem
    rcases hMem with hMem | hMem
    · obtain ⟨old, hOld, rfl⟩ := List.mem_map.mp hMem
      exact h.fixed old hOld hFixable
    · obtain ⟨moved, -, rfl⟩ := List.mem_map.mp hMem
      change moved.fixable = true at hFixable
      simp [Finding.fix, hFixable]
  · intro finding hMem hFixable
    obtain ⟨target, hTarget⟩ := List.exists_mem_of_ne_nil targets hSome
    refine ⟨call.site.path ++ target, ?_⟩
    rw [Path.relativeTo?_eq_some_iff.mpr rfl]
    simp [hTarget]

/-- A call of the rule for a UI function gives a default value to all that it asks for there. -/
theorem Giving.take_check {settings : HandleDefault.Settings} {function : Node}
    {header : FunctionHeader} (hRoot : root.WellFormed) (hSettings : settings? = some settings)
    (hSize : (completed settings? root).size < distanceBound)
    (h : Giving settings? root given progress) (hAt : call.IsAt progress)
    (hFound : root.descendant? call.site.path = some function)
    (hHeader : function.payload = .function header) (hMark : header.isComposable = true)
    (hSuppressed : HandleDefault.rule.name ∉ root.suppressedAt call.site.path)
    (hFixing : call.fixing = true)
    (hResponse : call.response = check settings ⟨.composable header, call.site, true⟩) :
    ∃ more, Giving settings? root more (progress.take call) ∧
      (∀ place, given place = true → more place = true) ∧
      ∀ place, Asks settings root call.site.path place → more place = true := by
  obtain ⟨found, hThere, hGrown⟩ := h.grown.descendant hFound
  obtain rfl : found = call.site.node := Option.some.inj (hThere.symm.trans hAt.site.2)
  have hHere : isExempt settings header call.site =
      isExempt settings header ⟨root, call.site.path, function⟩ := by
    have hSite : call.site = ⟨progress.tree.root, call.site.path, call.site.node⟩ := by
      rw [← hAt.site.1]
    rw [hSite]
    exact isExempt_grown h.grown settings header (by simp [hFound]) call.site.node function
  rw [check] at hResponse
  simp only [hHere] at hResponse
  split at hResponse
  · rename_i hExempt
    refine ⟨given, h.take_quiet hAt (by rw [hResponse]) (by simp [hResponse]), fun _ => id, ?_⟩
    rintro place ⟨other, header', -, -, -, -, hInspects, -, -⟩
    obtain ⟨hOther, hPayload, -, hNot, -⟩ := inspects_iff.mp hInspects
    obtain rfl : other = function := Option.some.inj (hOther.symm.trans hFound)
    obtain rfl : header' = header := by simpa [hHeader] using hPayload.symm
    rw [hExempt] at hNot
    cases hNot
  · rename_i hExempt
    have hInspects : Inspects settings root call.site.path function header :=
      inspects_iff.mpr ⟨hFound, hHeader, hMark, by simpa using hExempt, hSuppressed⟩
    have hWell := h.sound.canonical.wellFormed.descendant hThere
    have hCovers : ∀ place, Asks settings root call.site.path place → given place = true ∨
        ∃ found ∈ missing settings call.site.node, place = call.site.path ++ found.path := by
      rintro place ⟨other, _, i, j, list, parameter, hOther, hLacks, rfl⟩
      obtain rfl : other = function := Option.some.inj (hOther.found.symm.trans hFound)
      cases hGiven : given (call.site.path ++ [i, j]) with
      | true => exact .inl rfl
      | false =>
          obtain ⟨found, hMem, hPath⟩ := List.mem_map.mp ((mem_missing_grown_iff hGrown hWell).mpr
            ⟨i, j, list, parameter, hLacks, rfl, hGiven⟩)
          exact .inr ⟨found, hMem, by rw [hPath]⟩
    by_cases hNone : missing settings call.site.node = []
    · rw [hNone] at hResponse hCovers
      refine ⟨given, h.take_quiet hAt (by simp [hResponse]) (by simp [hResponse]), fun _ => id, ?_⟩
      intro place hAsks
      exact (hCovers place hAsks).elim id (by simp)
    · refine ⟨_, h.take_giveDefault ((missing settings call.site.node).map (·.path))
        hRoot hSettings hSize hAt hInspects ?_ (by simpa using hNone) (by rw [hResponse]; rfl) ?_,
        fun place hPlace => by simp [hPlace], ?_⟩
      · intro target hTarget
        obtain ⟨i, j, list, parameter, hLacks, hPath, -⟩ :=
          (mem_missing_grown_iff hGrown hWell).mp hTarget
        exact ⟨i, j, list, parameter, hLacks, hPath⟩
      · rw [Call.edits, hFixing, hResponse, List.map_map]
        rfl
      · intro place hAsks
        rcases hCovers place hAsks with hGiven | ⟨found, hMem, rfl⟩
        · simp [hGiven]
        · rw [Path.relativeTo?_eq_some_iff.mpr rfl]
          simp only [Option.any_some, Bool.or_eq_true, decide_eq_true_eq]
          exact .inl (List.mem_map_of_mem hMem)

end Call

/-- Rules without state are the same after they have been called. -/
theorem ActiveRule.dispatch_fst {rules : List ActiveRule}
    (hRules : ∀ rule ∈ rules, ∃ visit, rule.visitor = .stateless visit) (fixing : Bool) (hook : Hook)
    (path : Path) (suppressed : List String) (progress : Progress) :
    (dispatch fixing hook path suppressed rules progress).1 = rules := by
  induction rules generalizing progress with
  | nil => rfl
  | cons rule rules ih =>
      rw [List.forall_mem_cons] at hRules
      obtain ⟨⟨visit, hVisit⟩, hOthers⟩ := hRules
      rw [dispatch]
      split
      · rfl
      · simp only [ih hOthers, List.cons.injEq, and_true]
        split
        · unfold invoke
          split
          · rfl
          · exact (answer_of_stateless hVisit ..).1
        · rfl

theorem Tame.stateless {settings? : Option HandleDefault.Settings} {rules : List ActiveRule}
    (h : Tame settings? rules) : ∀ rule ∈ rules, ∃ visit, rule.visitor = .stateless visit := by
  intro rule hRule
  rcases h.each rule hRule with ⟨visit, hVisit, -⟩ | ⟨settings, -, hGives⟩
  · exact ⟨visit, hVisit⟩
  · exact ⟨check settings, hGives.visitor⟩

section Walk

variable {settings? : Option HandleDefault.Settings} {root : Node} (hRoot : root.WellFormed)
  (hSize : (completed settings? root).size < distanceBound)
include hRoot hSize

/-- One call of a rule that is quiet or gives default values. -/
theorem Giving.invoke {given : Path → Bool} {progress : Progress} {rule : ActiveRule} {hook : Hook}
    {path : Path} {node : Node} (h : Giving settings? root given progress)
    (hNode : root.descendant? path = some node)
    (hRule : rule.IsQuiet ∨ ∃ settings, settings? = some settings ∧ rule.Gives settings)
    (hListens : rule.listens hook (root.suppressedAt path) = true)
    (hMark : hook = .composable → node.payload.functionHeader?.any (·.isComposable) = true) :
    ∃ more, Giving settings? root more (rule.invoke true hook path progress).2 ∧
      (∀ place, given place = true → more place = true) ∧
      ∀ settings, settings? = some settings → rule.Gives settings →
        ∀ place, Asks settings root path place → more place = true := by
  obtain ⟨found, hFound, hGrown⟩ := h.grown.descendant hNode
  have hSite : Site.at? progress.tree.root path = some ⟨progress.tree.root, path, found⟩ := by
    simp [Site.at?, hFound]
  simp only [ActiveRule.invoke, hSite]
  by_cases hGiver : ∃ settings, settings? = some settings ∧ rule.Gives settings
  · obtain ⟨settings, hSettings, hGives⟩ := hGiver
    rw [ActiveRule.listens, hGives.hooks, hGives.name, Bool.and_eq_true] at hListens
    obtain rfl : hook = .composable := by
      have hHook := hListens.1
      rw [Hooks.contains_add] at hHook
      cases hook <;> simp_all [Hooks.contains, Hooks.none]
    obtain ⟨header, hHeader, hComposable⟩ := (Option.any_eq_true _ _).mp (hMark rfl)
    have hPayload : node.payload = .function header := by
      cases hCase : node.payload <;> simp_all [Payload.functionHeader?]
    have hAnswer : (rule.answer true .composable ⟨progress.tree.root, path, found⟩).2 =
        check settings ⟨.composable header, ⟨progress.tree.root, path, found⟩, true⟩ := by
      simp only [ActiveRule.answer, hGrown.payload, hPayload, Subject.of?, hGives.visitor]
      rfl
    have hAt : Call.IsAt ⟨rule.index, .composable, ⟨progress.tree.root, path, found⟩, true,
      (rule.answer true .composable ⟨progress.tree.root, path, found⟩).2⟩ progress := hSite
    obtain ⟨more, hMore, hKept, hCovers⟩ := h.take_check hRoot hSettings hSize hAt hNode hPayload
      hComposable (by simpa using hListens.2) rfl hAnswer
    refine ⟨more, hMore, hKept, fun other hOther _ place hAsks => hCovers place ?_⟩
    obtain rfl : other = settings := Option.some.inj (hOther.symm.trans hSettings)
    exact hAsks
  · obtain ⟨visit, hVisit, hQuiet⟩ := hRule.resolve_right hGiver
    refine ⟨given, h.take_quiet hSite ?_ ?_, fun _ => id, ?_⟩
    · unfold ActiveRule.answer
      split
      · rfl
      · rw [hVisit]
        exact (hQuiet _).1
    · unfold ActiveRule.answer
      split
      · simp
      · rw [hVisit]
        exact (hQuiet _).2
    · intro settings hSettings hGives
      exact absurd ⟨settings, hSettings, hGives⟩ hGiver

/-- The calls of tame rules for one node. At the hook for UI functions, everything that is asked
for there is given. -/
theorem Giving.dispatch {given : Path → Bool} {progress : Progress} {rules : List ActiveRule}
    {hook : Hook} {path : Path} {node : Node} (h : Giving settings? root given progress)
    (hNode : root.descendant? path = some node)
    (hRules : ∀ rule ∈ rules,
      rule.IsQuiet ∨ ∃ settings, settings? = some settings ∧ rule.Gives settings)
    (hMark : hook = .composable → node.payload.functionHeader?.any (·.isComposable) = true) :
    ∃ more, Giving settings? root more
        (ActiveRule.dispatch true hook path (root.suppressedAt path) rules progress).2 ∧
      (∀ place, given place = true → more place = true) ∧
      (hook = .composable → ∀ rule ∈ rules, ∀ settings, settings? = some settings →
        rule.Gives settings → ∀ place, Asks settings root path place → more place = true) := by
  induction rules generalizing given progress with
  | nil => exact ⟨given, h, fun _ => id, by simp⟩
  | cons rule rules ih =>
      rw [List.forall_mem_cons] at hRules
      rw [ActiveRule.dispatch, if_neg (by simp [h.sound.running])]
      split
      · rename_i hListens
        obtain ⟨first, hFirst, hKept, hCovers⟩ := h.invoke hRoot hSize hNode hRules.1 hListens hMark
        obtain ⟨more, hMore, hKeptAll, hCoversAll⟩ := ih hFirst hRules.2
        refine ⟨more, hMore, fun place hPlace => hKeptAll place (hKept place hPlace), ?_⟩
        intro hHook
        rw [List.forall_mem_cons]
        exact ⟨fun settings hSettings hGives place hAsks =>
          hKeptAll place (hCovers settings hSettings hGives place hAsks), hCoversAll hHook⟩
      · rename_i hListens
        obtain ⟨more, hMore, hKeptAll, hCoversAll⟩ := ih h hRules.2
        refine ⟨more, hMore, hKeptAll, ?_⟩
        intro hHook
        rw [List.forall_mem_cons]
        refine ⟨?_, hCoversAll hHook⟩
        rintro settings - hGives place ⟨_, _, _, _, _, _, hInspects, -, -⟩
        obtain ⟨-, -, -, -, hSuppressed⟩ := inspects_iff.mp hInspects
        simp [ActiveRule.listens, hGives.hooks, hGives.name, hHook, Hooks.contains, Hooks.add,
          hSuppressed] at hListens

end Walk

theorem Path.eq_or_child_prefix {path longer : Path} (hPrefix : path <+: longer) :
    longer = path ∨ ∃ index, path.child index <+: longer := by
  obtain ⟨rest, rfl⟩ := hPrefix
  cases rest with
  | nil => exact .inl (List.append_nil path)
  | cons index rest => exact .inr ⟨index, rest, by simp [child]⟩

/-- The run has the same rules as before and has given what was given before. Besides, it has
given everything that is asked for in the visits to the functions at `visited` paths. -/
def Reaches (settings? : Option HandleDefault.Settings) (root : Node) (rules : List ActiveRule)
    (given : Path → Bool) (run : Run) (visited : Path → Prop) : Prop :=
  ∃ more, Giving settings? root more run.progress ∧ run.rules = rules ∧
    (∀ place, given place = true → more place = true) ∧
    ∀ settings, settings? = some settings → ∀ path, visited path →
      ∀ place, Asks settings root path place → more place = true

section Walk

variable {settings? : Option HandleDefault.Settings} {root : Node} {rules : List ActiveRule}
  {given : Path → Bool} {run : Run}

theorem Giving.reaches (h : Giving settings? root given run.progress) (hRules : run.rules = rules) :
    Reaches settings? root rules given run fun _ => False :=
  ⟨given, h, hRules, fun _ => id, fun _ _ _ hNone => hNone.elim⟩

/-- Nothing is asked for at a path that leads to no UI function. -/
theorem Reaches.of_function {visited : Path → Prop}
    (h : Reaches settings? root rules given run fun path => visited path ∧
      ∃ function header, root.descendant? path = some function ∧
        function.payload = .function header ∧ header.isComposable = true) :
    Reaches settings? root rules given run visited := by
  obtain ⟨more, hMore, hRules, hKept, hCovers⟩ := h
  refine ⟨more, hMore, hRules, hKept, fun settings hSettings path hVisited place hAsks => ?_⟩
  have hFunction := hAsks
  obtain ⟨function, header, _, _, _, _, hInspects, -, -⟩ := hFunction
  obtain ⟨-, hPayload, hMark, -⟩ := inspects_iff.mp hInspects
  exact hCovers settings hSettings path
    ⟨hVisited, function, header, hInspects.found, hPayload, hMark⟩ place hAsks

theorem Reaches.mono {visited fewer : Path → Prop} (h : Reaches settings? root rules given run visited)
    (hFewer : ∀ path, fewer path → visited path) : Reaches settings? root rules given run fewer := by
  obtain ⟨more, hMore, hRules, hKept, hCovers⟩ := h
  exact ⟨more, hMore, hRules, hKept, fun settings hSettings path hPath =>
    hCovers settings hSettings path (hFewer path hPath)⟩

/-- A run that goes on reaches what it had reached and what it reaches from there. -/
theorem Reaches.trans {visited later : Path → Prop} {next : Run}
    (h : Reaches settings? root rules given run visited)
    (hNext : ∀ more, Giving settings? root more run.progress → run.rules = rules →
      Reaches settings? root rules more next later) :
    Reaches settings? root rules given next fun path => visited path ∨ later path := by
  obtain ⟨middle, hMiddle, hRules, hKept, hCovers⟩ := h
  obtain ⟨more, hMore, hSame, hKeptNext, hCoversNext⟩ := hNext middle hMiddle hRules
  refine ⟨more, hMore, hSame, fun place hPlace => hKeptNext place (hKept place hPlace), ?_⟩
  intro settings hSettings path hPath place hAsks
  rcases hPath with hPath | hPath
  · exact hKeptNext place (hCovers settings hSettings path hPath place hAsks)
  · exact hCoversNext settings hSettings path hPath place hAsks

/-- A run that takes several steps reaches what each of them reaches. -/
theorem Giving.reaches_foldl {step : Run → Nat → Run} {visited : Nat → Path → Prop}
    (hStep : ∀ (index : Nat) (more : Path → Bool) (run : Run),
      Giving settings? root more run.progress → run.rules = rules →
      Reaches settings? root rules more (step run index) (visited index))
    (indices : List Nat) (h : Giving settings? root given run.progress)
    (hRules : run.rules = rules) :
    Reaches settings? root rules given (indices.foldl step run)
      fun path => ∃ index ∈ indices, visited index path := by
  induction indices generalizing given run with
  | nil => exact (h.reaches hRules).mono (by simp)
  | cons index indices ih =>
      apply ((hStep index given run h hRules).trans fun more hMore hSame => ih hMore hSame).mono
      simp

variable (hRoot : root.WellFormed) (hSize : (completed settings? root).size < distanceBound)
  (hTame : Tame settings? rules)
include hRoot hSize hTame

/-- Calling tame rules at a hook. -/
theorem Giving.reaches_dispatch (h : Giving settings? root given run.progress)
    (hRules : run.rules = rules) (hook : Hook) {path : Path} {node : Node}
    (hNode : root.descendant? path = some node)
    (hMark : hook = .composable → node.payload.functionHeader?.any (·.isComposable) = true) :
    Reaches settings? root rules given (run.dispatch true hook path (root.suppressedAt path))
      fun function => hook = .composable ∧ function = path := by
  subst hRules
  obtain ⟨more, hMore, hKept, hCovers⟩ := h.dispatch hRoot hSize hNode hTame.each hMark
  refine ⟨more, hMore, ActiveRule.dispatch_fst hTame.stateless _ _ _ _ _, hKept, ?_⟩
  rintro settings hSettings function ⟨hHook, rfl⟩ place hAsks
  obtain ⟨rule, hRule, hGives⟩ := hTame.some settings hSettings
  exact hCovers hHook rule hRule settings hSettings hGives place hAsks

/-- The calls for a declaration. -/
theorem Giving.reaches_visitDeclaration (h : Giving settings? root given run.progress)
    (hRules : run.rules = rules) {path : Path} {node visited : Node}
    (hNode : root.descendant? path = some node) (hKind : visited.kind = node.kind)
    (hPayload : visited.payload = node.payload) :
    Reaches settings? root rules given
      (run.visitDeclaration true visited path (root.suppressedAt path)) (· = path) := by
  apply Reaches.of_function
  unfold Run.visitDeclaration
  split
  · rename_i hType
    apply (h.reaches_dispatch hRoot hSize hTame hRules .type hNode (by simp)).mono
    rintro function ⟨rfl, other, header, hOther, hFunction, -⟩
    obtain rfl : other = node := Option.some.inj (hOther.symm.trans hNode)
    have hFits := (hRoot.descendant hNode).fits
    rw [hFunction, ← hKind, hType] at hFits
    cases hFits
  · have hTold := h.reaches_dispatch hRoot hSize hTame hRules .function hNode (by simp)
    split
    · rename_i hMark
      rw [hPayload] at hMark
      apply (hTold.trans fun more hMore hSame =>
        hMore.reaches_dispatch hRoot hSize hTame hSame .composable hNode fun _ => hMark).mono
      rintro function ⟨rfl, -⟩
      exact .inr ⟨rfl, rfl⟩
    · rename_i hMark
      apply hTold.mono
      rintro function ⟨rfl, other, header, hOther, hFunction, hComposable⟩
      obtain rfl : other = node := Option.some.inj (hOther.symm.trans hNode)
      rw [hPayload, hFunction] at hMark
      exact absurd hComposable hMark

/-- Walking at one node, if walking below it reaches all that it should. -/
theorem Giving.reaches_walkAt {descend : Path → List String → Run → Run} {path : Path} {index : Nat}
    {node : Node} (hNode : root.descendant? (path.child index) = some node)
    (hDescend : ∀ more run, Giving settings? root more run.progress → run.rules = rules →
      Reaches settings? root rules more
        (descend (path.child index) (root.suppressedAt (path.child index)) run)
        fun function => ∃ below, (path.child index).child below <+: function)
    (h : Giving settings? root given run.progress) (hRules : run.rules = rules) :
    Reaches settings? root rules given
      (Run.walkAt true descend (path.child index) (root.suppressedAt path) run)
      (path.child index <+: ·) := by
  obtain ⟨found, hFound, hGrown⟩ := h.grown.descendant hNode
  have hWell := hRoot.descendant hNode
  have hMarks := root.suppressedAt_child path index
  simp only [Node.marksAt, hNode, ← hGrown.kind, ← hGrown.payload] at hMarks
  apply Reaches.of_function
  rw [Run.walkAt, if_neg (by simp [h.sound.running]), hFound]
  simp only
  split
  · rename_i hToken
    apply (h.reaches hRules).mono
    rintro function ⟨⟨rest, rfl⟩, below, header, hBelow, hFunction, -⟩
    rw [Node.descendant?_append, hNode, Option.bind_some] at hBelow
    rw [hGrown.kind] at hToken
    cases rest with
    | nil =>
        cases hBelow
        have hFits := hWell.fits
        rw [hFunction, hToken] at hFits
        cases hFits
    | cons first rest => simp [Node.descendant?_cons, hWell.leaf hToken] at hBelow
  · split
    · rename_i hDeclaration
      rw [if_pos (.inr hDeclaration)] at hMarks
      rw [← hMarks]
      have hVisit := h.reaches_visitDeclaration hRoot hSize hTame hRules hNode hGrown.kind
        hGrown.payload
      apply (hVisit.trans fun more hMore hSame => hDescend more _ hMore hSame).mono
      rintro function ⟨hPrefix, -⟩
      exact Path.eq_or_child_prefix hPrefix
    · rename_i hDeclaration
      have hNone : ¬ (path.child index = [] ∨ Run.isDeclaration found.kind = true) := by
        simp [Path.child, hDeclaration]
      rw [if_neg hNone, List.nil_append] at hMarks
      rw [← hMarks]
      apply (hDescend given run h hRules).mono
      rintro function ⟨hPrefix, below, header, hBelow, hFunction, -⟩
      apply (Path.eq_or_child_prefix hPrefix).resolve_left
      rintro rfl
      obtain rfl : below = node := Option.some.inj (hBelow.symm.trans hNode)
      have hFits := hWell.fits
      rw [hFunction] at hFits
      rw [hGrown.kind, eq_of_beq hFits] at hDeclaration
      exact hDeclaration rfl

omit hRoot hSize hTame in
/-- What has been appended is a default value or one of its tokens. -/
theorem Giving.extra (h : Giving settings? root given run.progress) {path : Path} {found : Node}
    (hNone : root.descendant? path = none)
    (hFound : run.progress.tree.root.descendant? path = some found) :
    (found.kind = .defaultValue ∨ found.kind = .token) ∧
      ∀ child ∈ found.children, child.kind = .token := by
  rcases h.grown.descendant_cases hFound with ⟨below, hBelow, -⟩ | ⟨-, rest, inner, hInner, hSame⟩
  · rw [hNone] at hBelow
    cases hBelow
  · have hShape : ∀ child ∈ found.children, child.shape ∈ inner.shape.children := by
      intro child hChild
      rw [← hSame, Node.children_shape]
      exact List.mem_map_of_mem hChild
    rw [← Node.kind_shape, hSame, Node.kind_shape]
    rcases descendant?_emptyHandle hInner with rfl | ⟨text, rfl⟩
    · refine ⟨.inl rfl, fun child hChild => ?_⟩
      have hTokens : ∀ part ∈ emptyHandle.shape.children, part.kind = .token := by decide
      rw [← Node.kind_shape]
      exact hTokens _ (hShape child hChild)
    · refine ⟨.inr rfl, fun child hChild => ?_⟩
      cases hShape child hChild

omit hRoot hSize hTame in
/-- Nothing happens at a node that has been appended. -/
theorem Giving.walkAt_extra (h : Giving settings? root given run.progress) {path : Path}
    (hNone : root.descendant? path = none) (suppressed : List String) (depth : Nat) :
    Run.walkAt true (Run.walkBelow true depth) path suppressed run = run := by
  have hStill : ∀ (indices : List Nat) (step : Run → Nat → Run),
      (∀ index, step run index = run) → indices.foldl step run = run := by
    intro indices step hStep
    induction indices with
    | nil => rfl
    | cons index indices ih => rw [List.foldl_cons, hStep, ih]
  rw [Run.walkAt, if_neg (by simp [h.sound.running])]
  split
  · rfl
  · rename_i found hFound
    obtain ⟨hKind, hTokens⟩ := h.extra hNone hFound
    split
    · rfl
    · rename_i hToken
      rw [hKind.resolve_right hToken, if_neg (by decide)]
      cases depth with
      | zero => rfl
      | succ depth =>
          rw [Run.walkBelow, hFound]
          apply hStill
          intro index
          rw [Run.walkAt, if_neg (by simp [h.sound.running])]
          split
          · rfl
          · rename_i child hChild
            rw [Path.child, Node.descendant?_append, hFound, Option.bind_some,
              Node.descendant?_cons] at hChild
            obtain ⟨there, hThere, hSame⟩ := Option.bind_eq_some_iff.mp hChild
            cases hSame
            rw [if_pos (hTokens child (List.mem_of_getElem? hThere))]

/-- Walking below a node reaches every function below it. -/
theorem Giving.reaches_walkBelow (depth : Nat) {path : Path} {node : Node}
    (hNode : root.descendant? path = some node) (hHeight : node.height ≤ depth)
    (h : Giving settings? root given run.progress) (hRules : run.rules = rules) :
    Reaches settings? root rules given
      (Run.walkBelow true depth path (root.suppressedAt path) run)
      fun function => ∃ index, path.child index <+: function := by
  induction depth generalizing path node given run with
  | zero =>
      cases node
      simp [Node.height] at hHeight
  | succ depth ih =>
      obtain ⟨found, hFound, hGrown⟩ := h.grown.descendant hNode
      apply Reaches.of_function
      rw [Run.walkBelow, hFound]
      have hStep : ∀ (index : Nat) (more : Path → Bool) (run : Run),
          Giving settings? root more run.progress → run.rules = rules →
          Reaches settings? root rules more (Run.walkAt true (Run.walkBelow true depth)
            (path.child index) (root.suppressedAt path) run) (path.child index <+: ·) := by
        intro index more run hMore hSame
        cases hChild : root.descendant? (path.child index) with
        | none =>
            rw [hMore.walkAt_extra hChild]
            apply Reaches.of_function
            apply (hMore.reaches hSame).mono
            rintro function ⟨⟨rest, rfl⟩, below, _, hBelow, -⟩
            rw [Node.descendant?_append, hChild] at hBelow
            cases hBelow
        | some child =>
            have hMem : child ∈ node.children := by
              rw [Path.child, Node.descendant?_append, hNode, Option.bind_some,
                Node.descendant?_cons] at hChild
              obtain ⟨there, hThere, hSame⟩ := Option.bind_eq_some_iff.mp hChild
              cases hSame
              exact List.mem_of_getElem? hThere
            have hLower := Node.height_lt_of_mem hMem
            exact hMore.reaches_walkAt hRoot hSize hTame hChild
              (fun more run hMore hSame => ih hChild (by omega) hMore hSame) hSame
      apply (h.reaches_foldl hStep _ hRules).mono
      rintro function ⟨⟨index, rest, rfl⟩, below, header, hBelow, -⟩
      rw [Path.child, List.append_assoc, Node.descendant?_append, hNode, Option.bind_some,
        List.singleton_append, Node.descendant?_cons] at hBelow
      obtain ⟨child, hChild, -⟩ := Option.bind_eq_some_iff.mp hBelow
      obtain ⟨there, hThere, -⟩ := hGrown.child hChild
      obtain ⟨hIndex, -⟩ := List.getElem?_eq_some_iff.mp hThere
      exact ⟨index, List.mem_range.mpr hIndex, List.prefix_append _ _⟩

end Walk

/-- A run of tame rules over a file gives exactly what is asked for. -/
theorem Giving.runRules {settings? : Option HandleDefault.Settings} {rules : List ActiveRule}
    (hTame : Tame settings? rules) {tree : SourceTree} (hTree : tree.Canonical)
    (hFile : tree.root.kind = .file)
    (hSize : (completed settings? tree.root).size < distanceBound) :
    Giving settings? tree.root (fun place => decide (Gains settings? tree.root place))
      (UiLint.runRules rules tree true) := by
  have hSelf := Node.grownTo_self emptyHandle tree.root
  have hStart : Giving settings? tree.root (fun _ => false) { tree } :=
    ⟨⟨rfl, hTree, Nat.lt_of_le_of_lt (size_le_completed hSelf (by simp)) hSize⟩, by simp, hSelf,
      by simp, by simp, by simp⟩
  have hWalk : Reaches settings? tree.root rules (fun _ => false) (Run.walk ⟨rules, { tree }⟩ true)
      fun _ => True := by
    apply Reaches.of_function
    rw [Run.walk, ← Node.suppressedAt_nil]
    have hTold : Reaches settings? tree.root rules (fun _ => false)
        (Run.dispatch ⟨rules, { tree }⟩ true .file [] (tree.root.suppressedAt [])) _ :=
      hStart.reaches_dispatch hTree.wellFormed hSize hTame rfl .file rfl (by simp)
    apply (hTold.trans fun more hMore hSame => hMore.reaches_walkBelow hTree.wellFormed hSize hTame
      (tree.root.height + 3) rfl (by omega) hSame).mono
    rintro function ⟨-, below, header, hBelow, hFunction, -⟩
    refine .inr ((Path.eq_or_child_prefix List.nil_prefix).resolve_left ?_)
    rintro rfl
    cases hBelow
    have hFits := hTree.wellFormed.fits
    rw [hFunction, hFile] at hFits
    cases hFits
  obtain ⟨given, hGiven, -, -, hCovers⟩ := hWalk
  have hAll : given = fun place => decide (Gains settings? tree.root place) := by
    funext place
    rw [Bool.eq_iff_iff, decide_eq_true_iff]
    refine ⟨hGiven.asked place, ?_⟩
    rintro ⟨settings, hSettings, path, hAsks⟩
    exact hCovers settings hSettings path trivial place hAsks
  rwa [hAll] at hGiven

end UiLint
