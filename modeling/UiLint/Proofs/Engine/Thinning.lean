import UiLint.Proofs.Engine.Findings

/-! Runs as some of their rules see them. Leaving the calls and findings of a rule that changes
nothing out of a run gives the run without that rule, step by step, whatever the tree is like. -/
namespace UiLint

/-- The place of a rule among those that are kept. -/
def rankIn (keep : Nat → Bool) (rule : Nat) : Nat :=
  (List.range rule).countP keep

theorem rankIn_succ_of_kept {keep : Nat → Bool} {rule : Nat} (hKeep : keep rule = true) :
    rankIn keep (rule + 1) = rankIn keep rule + 1 := by
  rw [rankIn, List.range_succ, List.countP_append, List.countP_singleton, if_pos hKeep, rankIn]

theorem rankIn_succ_of_dropped {keep : Nat → Bool} {rule : Nat} (hDrop : keep rule = false) :
    rankIn keep (rule + 1) = rankIn keep rule := by
  rw [rankIn, List.range_succ, List.countP_append, List.countP_singleton, if_neg (by simp [hDrop]),
    rankIn, Nat.add_zero]

namespace Finding

/-- The finding under other numbers for its rule and for itself. -/
def renumber (finding : Finding) (rule sequence : Nat) : Finding :=
  { finding with rule, sequence }

variable (keep : Nat → Bool)

/-- The findings of the rules that are kept, numbered anew from the given place on. -/
def thinFrom (place : Nat) (findings : List Finding) : List Finding :=
  ((findings.filter fun finding => keep finding.rule).zipIdx place).map fun entry =>
    entry.1.renumber (rankIn keep entry.1.rule) entry.2

theorem thinFrom_append (place : Nat) (first second : List Finding) :
    thinFrom keep place (first ++ second) =
      thinFrom keep place first ++
        thinFrom keep (place + (thinFrom keep place first).length) second := by
  simp [thinFrom, List.zipIdx_append]

theorem thinFrom_of_dropped {findings : List Finding}
    (hDropped : ∀ finding ∈ findings, keep finding.rule = false) (place : Nat) :
    thinFrom keep place findings = [] := by
  have hNone : findings.filter (fun finding => keep finding.rule) = [] := by
    simpa using hDropped
  rw [thinFrom, hNone]
  rfl

/-- What is done to each finding can be done after leaving some out, if it does not depend on rules
and numbers. -/
theorem thinFrom_map (place : Nat) (findings : List Finding) {change : Finding → Finding}
    (hRule : ∀ finding, (change finding).rule = finding.rule)
    (hChange : ∀ (finding : Finding) (rule sequence : Nat),
      change (finding.renumber rule sequence) = (change finding).renumber rule sequence) :
    thinFrom keep place (findings.map change) = (thinFrom keep place findings).map change := by
  rw [thinFrom, thinFrom, List.filter_map, List.zipIdx_map, List.map_map, List.map_map]
  have hKept : (fun finding => keep finding.rule) ∘ change = fun finding => keep finding.rule := by
    funext finding
    exact congrArg keep (hRule finding)
  rw [hKept]
  refine List.map_congr_left fun entry _ => ?_
  show (change entry.1).renumber (rankIn keep (change entry.1).rule) entry.2 =
    change (entry.1.renumber (rankIn keep entry.1.rule) entry.2)
  rw [hChange, hRule]

theorem thinFrom_ofRemarks {rule : Nat} (hKeep : keep rule = true) (place start : Nat)
    (remarks : List Remark) :
    thinFrom keep place (ofRemarks rule start remarks) =
      ofRemarks (rankIn keep rule) place remarks := by
  induction remarks generalizing place start with
  | nil => rfl
  | cons remark remarks ih =>
      have hRest := ih (place + 1) (start + 1)
      simp only [thinFrom, ofRemarks, List.zipIdx_cons, List.map_cons] at hRest ⊢
      rw [List.filter_cons_of_pos (by exact hKeep), List.zipIdx_cons, List.map_cons, hRest]
      rfl

/-- Moving all findings and fixing the last of them, as the rules that are kept see it. -/
theorem thinFrom_fixFrom (old new : List Finding) (shifts : List Shift) :
    thinFrom keep 0 (fixFrom (moveAll (old ++ new) shifts) old.length) =
      fixFrom (moveAll (thinFrom keep 0 (old ++ new)) shifts) (thinFrom keep 0 old).length := by
  have hMove : ∀ place findings, thinFrom keep place (findings.map (moveThrough shifts)) =
      (thinFrom keep place findings).map (moveThrough shifts) := fun place findings =>
    thinFrom_map keep place findings (fun _ => rfl) (fun _ _ _ => rfl)
  have hFix : ∀ place findings, thinFrom keep place (findings.map fix) =
      (thinFrom keep place findings).map fix := fun place findings =>
    thinFrom_map keep place findings (fun _ => rfl) (fun _ _ _ => rfl)
  have hOld : old.length = (old.map (moveThrough shifts)).length := by simp
  have hKept : (thinFrom keep 0 old).length =
      ((thinFrom keep 0 old).map (moveThrough shifts)).length := by simp
  rw [moveAll_eq, moveAll_eq, List.map_append, hOld, fixFrom_append, thinFrom_append,
    thinFrom_append, List.map_append]
  conv => rhs; rw [hKept]
  rw [fixFrom_append, hFix, hMove, hMove, List.length_map]

end Finding

/-- The call with its rule's place among those that are kept. -/
def Call.thin (keep : Nat → Bool) (call : Call) : Call :=
  { call with rule := rankIn keep call.rule }

/-- Whether edits are refused, as one of them asks for something impossible. -/
def Edit.areRefused (scope : Path) (node : Node) (edits : List Edit) : Bool :=
  match applyAll scope node edits with
  | .error (.rule _) => true
  | _ => false

/-- The call makes no edit: it failed, it asked for none, or those that it asked for are refused. -/
def Call.EditsNothing (call : Call) : Prop :=
  call.response.ending.failure?.isSome = true ∨ call.edits = [] ∨
    Edit.areRefused call.site.path call.site.node call.edits = true

instance (call : Call) : Decidable call.EditsNothing :=
  inferInstanceAs (Decidable (_ ∨ _ ∨ _))

/-- The rules that are kept, each with its place among them. -/
def ActiveRule.thin (keep : Nat → Bool) (rules : List ActiveRule) : List ActiveRule :=
  (rules.filter fun rule => keep rule.index).map fun rule =>
    { rule with index := rankIn keep rule.index }

namespace Progress

variable (keep : Nat → Bool)

/-- The progress as the rules that are kept see it. -/
def thin (progress : Progress) : Progress :=
  { progress with
    findings := Finding.thinFrom keep 0 progress.findings
    calls := (progress.calls.filter fun call => keep call.rule).map (Call.thin keep) }

variable {keep} {call : Call} (progress : Progress)

theorem thin_fail {rule : Nat} (hKeep : keep rule = true) (offset : Nat) (detail : String) :
    (progress.fail rule offset detail).thin keep =
      (progress.thin keep).fail (rankIn keep rule) offset detail := by
  simp only [thin, fail, Finding.push, Finding.thinFrom_append, Progress.mk.injEq, true_and, and_true]
  simp [Finding.thinFrom, Finding.renumber, hKeep]

theorem thin_fail_dropped {rule : Nat} (hDrop : keep rule = false) (offset : Nat)
    (detail : String) : (progress.fail rule offset detail).thin keep = progress.thin keep := by
  have hFindings : ∀ finding ∈ [(⟨offset, rule, progress.findings.length,
      "rule-failure: " ++ detail, false, false⟩ : Finding)], keep finding.rule = false := by
    simpa using hDrop
  have hNone := Finding.thinFrom_of_dropped keep hFindings
    (0 + (Finding.thinFrom keep 0 progress.findings).length)
  simp only [thin, fail, Finding.push, Finding.thinFrom_append, hNone, List.append_nil]

theorem thin_tell (hKeep : keep call.rule = true) :
    (progress.tell call).thin keep = (progress.thin keep).tell (call.thin keep) := by
  have hFindings : ∀ (progress : Progress) (call : Call),
      progress.tell call = { progress with
        findings := progress.findings ++
          Finding.ofRemarks call.rule progress.findings.length call.response.remarks
        calls := progress.calls ++ [call] } := by
    intro progress call
    rw [tell, Finding.pushAll_eq]
  rw [hFindings, hFindings]
  simp [thin, Call.thin, hKeep, Finding.thinFrom_append, Finding.thinFrom_ofRemarks]

theorem thin_tell_dropped (hDrop : keep call.rule = false) :
    (progress.tell call).thin keep = progress.thin keep := by
  have hNew : ∀ finding ∈ Finding.ofRemarks call.rule progress.findings.length
      call.response.remarks, keep finding.rule = false := by
    intro finding hFinding
    obtain ⟨entry, -, rfl⟩ := List.mem_map.mp hFinding
    exact hDrop
  simp [thin, tell, Finding.pushAll_eq, Finding.thinFrom_append,
    Finding.thinFrom_of_dropped keep hNew, hDrop]

/-- A call of a rule that is kept is the same call where the others are left out. -/
theorem thin_take (hKeep : keep call.rule = true) :
    (progress.take call).thin keep = (progress.thin keep).take (call.thin keep) := by
  have hTold := progress.thin_tell hKeep
  unfold take
  rw [show (call.thin keep).response = call.response from rfl,
    show (call.thin keep).edits = call.edits from rfl,
    show (call.thin keep).site = call.site from rfl,
    show (call.thin keep).rule = rankIn keep call.rule from rfl, ← hTold]
  split
  · exact thin_fail _ hKeep _ _
  · split
    · rfl
    · unfold edit
      split
      · exact thin_fail _ hKeep _ _
      · rfl
      · rename_i node shifts hApply
        rw [show ((progress.tell call).thin keep).tree = (progress.tell call).tree from rfl]
        split
        · rfl
        · rename_i tree hTree
          simp only [thin, Progress.mk.injEq, true_and, and_true]
          rw [findings_tell]
          exact Finding.thinFrom_fixFrom keep _ _ _

/-- A call that makes no edit, of a rule that is left out, is not noticed. -/
theorem thin_take_dropped (hDrop : keep call.rule = false) (hNothing : call.EditsNothing) :
    (progress.take call).thin keep = progress.thin keep := by
  have hTold := progress.thin_tell_dropped hDrop
  unfold take
  split
  · rw [thin_fail_dropped _ hDrop, hTold]
  · rename_i hEnding
    split
    · exact hTold
    · rename_i hSome
      rcases hNothing with hFailed | hNone | hRefused
      · simp [hEnding] at hFailed
      · simp [hNone] at hSome
      · unfold Edit.areRefused at hRefused
        split at hRefused
        · rename_i error hError
          simp only [edit, hError]
          rw [thin_fail_dropped _ hDrop, hTold]
        · cases hRefused

end Progress

namespace ActiveRule

theorem thin_cons_of_kept {keep : Nat → Bool} {rule : ActiveRule} (hKeep : keep rule.index = true)
    (rules : List ActiveRule) :
    thin keep (rule :: rules) = { rule with index := rankIn keep rule.index } :: thin keep rules := by
  rw [thin, List.filter_cons_of_pos (by exact hKeep), List.map_cons, thin]

theorem thin_cons_of_dropped {keep : Nat → Bool} {rule : ActiveRule}
    (hDrop : keep rule.index = false) (rules : List ActiveRule) :
    thin keep (rule :: rules) = thin keep rules := by
  rw [thin, List.filter_cons_of_neg (by simp [hDrop]), thin]

/-- A rule answers the same whatever its place is. -/
theorem answer_of_index (rule : ActiveRule) (index : Nat) (fixing : Bool) (hook : Hook)
    (site : Site) :
    answer { rule with index } fixing hook site =
      ({ (rule.answer fixing hook site).1 with index }, (rule.answer fixing hook site).2) := by
  unfold answer
  split <;> rfl

/-- A round of calls, as the rules that are kept see it. -/
theorem thin_dispatch {keep : Nat → Bool} (fixing : Bool) (hook : Hook) (path : Path)
    (suppressed : List String) (rules : List ActiveRule) {progress : Progress}
    (hPath : (progress.tree.root.descendant? path).isSome = true)
    (hNothing : ∀ call ∈ (dispatch fixing hook path suppressed rules progress).2.calls,
      keep call.rule = false → call.EditsNothing) :
    dispatch fixing hook path suppressed (thin keep rules) (progress.thin keep) =
      (thin keep (dispatch fixing hook path suppressed rules progress).1,
        (dispatch fixing hook path suppressed rules progress).2.thin keep) := by
  induction rules generalizing progress with
  | nil => rfl
  | cons rule rules ih =>
      by_cases hStopped : progress.aborted.isSome = true
      · rw [dispatch_of_aborted _ hStopped, dispatch_of_aborted _ (by exact hStopped)]
      · by_cases hListens : rule.listens hook suppressed = true
        · obtain ⟨node, hNode⟩ := Option.isSome_iff_exists.mp hPath
          have hSite := Site.at?_eq_some hNode
          obtain ⟨visitor, hAnswer⟩ := rule.answer_fst fixing hook ⟨progress.tree.root, path, node⟩
          rw [dispatch_cons_of_listens rules hStopped hListens hSite] at hNothing ⊢
          have hAt : Call.IsAt ⟨rule.index, hook, ⟨progress.tree.root, path, node⟩, fixing,
              (rule.answer fixing hook ⟨progress.tree.root, path, node⟩).2⟩ progress := hSite
          have hStill := Progress.isSome_descendant?_take hAt
          have hRest := ih hStill hNothing
          dsimp only
          cases hKeep : keep rule.index with
          | true =>
              rw [thin_cons_of_kept hKeep, hAnswer, thin_cons_of_kept (by exact hKeep),
                dispatch_cons_of_listens _ (by exact hStopped) (by exact hListens) (by exact hSite),
                answer_of_index, hAnswer]
              rw [Progress.thin_take progress (by exact hKeep)] at hRest
              simp only [Call.thin] at hRest
              rw [hRest]
          | false =>
              obtain ⟨hBefore, -⟩ := dispatch_induction
                (P := fun run => _ <+: run.progress.calls) fixing Run.prefix_serve hook path suppressed []
                rules List.prefix_rfl hStill
              rw [Progress.thin_take_dropped progress (by exact hKeep)
                (hNothing _ (hBefore.subset (by simp [Progress.calls_take])) hKeep)] at hRest
              rw [thin_cons_of_dropped hKeep, hAnswer, thin_cons_of_dropped (by exact hKeep), hRest]
        · rw [dispatch_cons_of_deaf rules hStopped hListens] at hNothing ⊢
          have hRest := ih hPath hNothing
          cases hKeep : keep rule.index with
          | true =>
              rw [thin_cons_of_kept hKeep, thin_cons_of_kept hKeep,
                dispatch_cons_of_deaf _ (by exact hStopped) (by exact hListens), hRest]
          | false => rw [thin_cons_of_dropped hKeep, thin_cons_of_dropped hKeep, hRest]

end ActiveRule

namespace Run

variable {keep : Nat → Bool} {fixing : Bool}

/-- The run as the rules that are kept see it. -/
def thin (keep : Nat → Bool) (run : Run) : Run :=
  ⟨ActiveRule.thin keep run.rules, run.progress.thin keep⟩

/-- No rule that is left out has edited anything so far. -/
def Spared (keep : Nat → Bool) (run : Run) : Prop :=
  ∀ call ∈ run.progress.calls, keep call.rule = false → call.EditsNothing

theorem Spared.of_prefix {run next : Run} (h : next.Spared keep)
    (hBefore : run.progress.calls <+: next.progress.calls) : run.Spared keep :=
  fun call hCall => h call (hBefore.subset hCall)

theorem prefix_walkBelow (depth : Nat) (path : Path) (suppressed : List String) (run : Run) :
    run.progress.calls <+: (walkBelow fixing depth path suppressed run).progress.calls :=
  walkBelow_induction fixing prefix_serve depth path suppressed List.prefix_rfl

theorem thin_dispatch {run : Run} (hook : Hook) {path : Path} (suppressed : List String)
    (hPath : (run.progress.tree.root.descendant? path).isSome = true)
    (h : (run.dispatch fixing hook path suppressed).Spared keep) :
    (run.thin keep).dispatch fixing hook path suppressed =
      (run.dispatch fixing hook path suppressed).thin keep := by
  rw [dispatch, thin, ActiveRule.thin_dispatch fixing hook path suppressed run.rules hPath h]
  rfl

theorem thin_visitDeclaration {run : Run} (declaration : Node) {path : Path}
    (suppressed : List String) (hPath : (run.progress.tree.root.descendant? path).isSome = true)
    (h : (run.visitDeclaration fixing declaration path suppressed).Spared keep) :
    (run.thin keep).visitDeclaration fixing declaration path suppressed =
      (run.visitDeclaration fixing declaration path suppressed).thin keep := by
  unfold visitDeclaration at h ⊢
  by_cases hType : declaration.kind = .typeDeclaration
  · simp only [if_pos hType] at h ⊢
    exact thin_dispatch .type suppressed hPath h
  · simp only [if_neg hType] at h ⊢
    by_cases hMark : declaration.payload.functionHeader?.any (·.isComposable) = true
    · simp only [if_pos hMark] at h ⊢
      obtain ⟨-, hStill⟩ := dispatch_induction (P := fun _ => True) fixing
        (fun _ _ _ _ _ _ _ _ _ => trivial) .function path suppressed trivial hPath
      obtain ⟨hBefore, -⟩ := dispatch_induction fixing prefix_serve .composable path suppressed
         List.prefix_rfl hStill
      rw [thin_dispatch .function suppressed hPath (h.of_prefix hBefore),
        thin_dispatch .composable suppressed hStill h]
    · simp only [if_neg hMark] at h ⊢
      exact thin_dispatch .function suppressed hPath h

theorem thin_walkAt {descend : Path → List String → Run → Run}
    (hBefore : ∀ path suppressed run,
      run.progress.calls <+: (descend path suppressed run).progress.calls)
    (hDescend : ∀ path suppressed run, (descend path suppressed run).Spared keep →
      descend path suppressed (run.thin keep) = (descend path suppressed run).thin keep)
    (path : Path) (suppressed : List String) {run : Run}
    (h : (walkAt fixing descend path suppressed run).Spared keep) :
    walkAt fixing descend path suppressed (run.thin keep) =
      (walkAt fixing descend path suppressed run).thin keep := by
  unfold walkAt at h ⊢
  rw [show (run.thin keep).progress.aborted = run.progress.aborted from rfl,
    show (run.thin keep).progress.tree = run.progress.tree from rfl]
  by_cases hStopped : run.progress.aborted.isSome = true
  · simp only [if_pos hStopped]
  · simp only [if_neg hStopped] at h ⊢
    cases hNode : run.progress.tree.root.descendant? path with
    | none => rfl
    | some node =>
        simp only [hNode] at h ⊢
        by_cases hToken : node.kind = .token
        · simp only [if_pos hToken]
        · simp only [if_neg hToken] at h ⊢
          by_cases hDeclaration : isDeclaration node.kind = true
          · simp only [if_pos hDeclaration] at h ⊢
            rw [thin_visitDeclaration node _ (by simp [hNode]) (h.of_prefix (hBefore ..)),
              hDescend _ _ _ h]
          · simp only [if_neg hDeclaration] at h ⊢
            exact hDescend _ _ _ h

theorem thin_walkBelow (depth : Nat) (path : Path) (suppressed : List String) {run : Run}
    (h : (walkBelow fixing depth path suppressed run).Spared keep) :
    walkBelow fixing depth path suppressed (run.thin keep) =
      (walkBelow fixing depth path suppressed run).thin keep := by
  induction depth generalizing path suppressed run with
  | zero => rfl
  | succ depth ih =>
      rw [walkBelow] at h ⊢
      rw [show (run.thin keep).progress.tree = run.progress.tree from rfl, walkBelow]
      cases hNode : run.progress.tree.root.descendant? path with
      | none => rfl
      | some node =>
          simp only [hNode] at h ⊢
          generalize List.range node.children.length = places at h ⊢
          clear hNode
          induction places generalizing run with
          | nil => rfl
          | cons place places ihAll =>
              rw [List.foldl_cons] at h ⊢
              have hRest : ∀ (places : List Nat) (run : Run), run.progress.calls <+:
                  (places.foldl (fun run index => walkAt fixing (walkBelow fixing depth)
                    (path.child index) suppressed run) run).progress.calls := by
                intro places
                induction places with
                | nil => exact fun _ => List.prefix_rfl
                | cons place places ihPlaces =>
                    intro run
                    refine List.IsPrefix.trans ?_ (ihPlaces _)
                    exact walkAt_induction fixing prefix_serve
                      (fun path suppressed run hRun => hRun.trans (prefix_walkBelow ..)) _ _
                      List.prefix_rfl
              rw [thin_walkAt (prefix_walkBelow depth) (fun path suppressed run => ih path suppressed) _ _
                (h.of_prefix (hRest ..)), ihAll h, List.foldl_cons]

/-- A whole walk, as the rules that are kept see it. -/
theorem thin_walk (run : Run) (h : (run.walk fixing).Spared keep) :
    (run.thin keep).walk fixing = (run.walk fixing).thin keep := by
  unfold walk at h ⊢
  rw [show (run.thin keep).progress.tree = run.progress.tree from rfl]
  dsimp only at h ⊢
  rw [thin_dispatch .file _ rfl (h.of_prefix (prefix_walkBelow ..)), thin_walkBelow _ _ _ h]

end Run

/-- A run of some of the rules is the run of all of them with the others left out, if these edit
nothing in it. -/
theorem runRules_thin {keep : Nat → Bool} {rules : List ActiveRule} {tree : SourceTree}
    {fixing : Bool} (hNothing : ∀ call ∈ (runRules rules tree fixing).calls,
      keep call.rule = false → call.EditsNothing) :
    runRules (ActiveRule.thin keep rules) tree fixing = (runRules rules tree fixing).thin keep :=
  congrArg Run.progress (Run.thin_walk ⟨rules, { tree }⟩ hNothing)

end UiLint
