import UiLint.Engine.Run
import UiLint.Proofs.Engine.Edit

/-! Induction over runs. A run is a sequence of calls, each made for a node of the tree as it
then is; whatever one call preserves, the whole run preserves. -/
namespace UiLint

/-- The call is made for a node of the tree as it is now. -/
def Call.IsAt (call : Call) (progress : Progress) : Prop :=
  Site.at? progress.tree.root call.site.path = some call.site

theorem Call.IsAt.site {call : Call} {progress : Progress} (h : call.IsAt progress) :
    call.site.root = progress.tree.root ∧
      progress.tree.root.descendant? call.site.path = some call.site.node := by
  unfold IsAt Site.at? at h
  obtain ⟨node, hNode, hSite⟩ := Option.map_eq_some_iff.mp h
  rw [← hSite]
  exact ⟨rfl, hNode⟩

namespace Progress

/-- After a call there still is a node where the call was made. -/
theorem isSome_descendant?_take {progress : Progress} {call : Call} (h : call.IsAt progress) :
    ((progress.take call).tree.root.descendant? call.site.path).isSome = true := by
  have hBefore : (progress.tree.root.descendant? call.site.path).isSome = true := by
    simp [h.site.2]
  unfold take
  split
  · exact hBefore
  · split
    · exact hBefore
    · unfold edit
      split
      · exact hBefore
      · exact hBefore
      · split
        · exact hBefore
        · rename_i tree hTree
          simp [SourceTree.descendant?_replaceSubtree hTree]

/-- Every call is kept, whatever becomes of it. -/
theorem calls_take (progress : Progress) (call : Call) :
    (progress.take call).calls = progress.calls ++ [call] := by
  unfold take
  split
  · rfl
  · split
    · rfl
    · unfold edit
      split
      · rfl
      · rfl
      · split <;> rfl

end Progress

/-- The run after a call of one of its rules, the one at the given place. -/
def Run.serve (run : Run) (fixing : Bool) (hook : Hook) (site : Site) (place : Nat)
    (rule : ActiveRule) : Run :=
  ⟨run.rules.set place (rule.answer fixing hook site).1,
    run.progress.take ⟨rule.index, hook, site, fixing, (rule.answer fixing hook site).2⟩⟩

/-- A call changes nothing about a rule but what its visitor remembers. -/
theorem ActiveRule.answer_fst (rule : ActiveRule) (fixing : Bool) (hook : Hook) (site : Site) :
    ∃ visitor, (rule.answer fixing hook site).1 = { rule with visitor } := by
  unfold answer
  split
  · exact ⟨rule.visitor, rfl⟩
  · exact ⟨_, rfl⟩

/-- A rule without state is the same after it has been called, and answers what its visitor does. -/
theorem ActiveRule.answer_of_stateless {rule : ActiveRule} {visit : Visit → Response}
    (hVisit : rule.visitor = .stateless visit) (fixing : Bool) (hook : Hook) (site : Site) :
    (rule.answer fixing hook site).1 = rule ∧
      ∀ subject, Subject.of? hook site.node.payload = some subject →
        (rule.answer fixing hook site).2 = visit ⟨subject, site, fixing⟩ := by
  cases rule
  simp only at hVisit
  subst hVisit
  unfold answer
  split
  · rename_i hNone
    refine ⟨rfl, fun subject hSubject => ?_⟩
    rw [hNone] at hSubject
    cases hSubject
  · rename_i found hFound
    refine ⟨rfl, fun subject hSubject => ?_⟩
    rw [hFound] at hSubject
    cases hSubject
    rfl

section Dispatch

variable {fixing : Bool} {hook : Hook} {path : Path} {suppressed : List String}
  {progress : Progress} {rule : ActiveRule} (rules : List ActiveRule)

theorem ActiveRule.dispatch_of_aborted (hStopped : progress.aborted.isSome = true) :
    dispatch fixing hook path suppressed rules progress = (rules, progress) := by
  cases rules with
  | nil => rfl
  | cons rule rules => rw [dispatch, if_pos hStopped]

/-- A rule that listens has its turn before the others. -/
theorem ActiveRule.dispatch_cons_of_listens {site : Site} (hRunning : ¬ progress.aborted.isSome = true)
    (hListens : rule.listens hook suppressed = true)
    (hSite : Site.at? progress.tree.root path = some site) :
    dispatch fixing hook path suppressed (rule :: rules) progress =
      let rest := dispatch fixing hook path suppressed rules
        (progress.take ⟨rule.index, hook, site, fixing, (rule.answer fixing hook site).2⟩)
      ((rule.answer fixing hook site).1 :: rest.1, rest.2) := by
  rw [dispatch, if_neg hRunning, if_pos hListens, invoke, hSite]

/-- A rule that does not listen is passed over. -/
theorem ActiveRule.dispatch_cons_of_deaf (hRunning : ¬ progress.aborted.isSome = true)
    (hDeaf : ¬ rule.listens hook suppressed = true) :
    dispatch fixing hook path suppressed (rule :: rules) progress =
      (rule :: (dispatch fixing hook path suppressed rules progress).1,
        (dispatch fixing hook path suppressed rules progress).2) := by
  rw [dispatch, if_neg hRunning, if_neg hDeaf]

end Dispatch

/-- Nothing happens at a hook that no rule listens to. -/
theorem Run.dispatch_of_deaf {run : Run} {fixing : Bool} {hook : Hook} {path : Path}
    {suppressed : List String} (h : ∀ active ∈ run.rules, active.hooks.contains hook = false) :
    run.dispatch fixing hook path suppressed = run := by
  obtain ⟨rules, progress⟩ := run
  have hRules : ActiveRule.dispatch fixing hook path suppressed rules progress =
      (rules, progress) := by
    induction rules with
    | nil => rfl
    | cons active rules ih =>
        by_cases hStopped : progress.aborted.isSome = true
        · exact ActiveRule.dispatch_of_aborted _ hStopped
        · rw [List.forall_mem_cons] at h
          rw [ActiveRule.dispatch_cons_of_deaf _ hStopped (by simp [ActiveRule.listens, h.1]), ih h.2]
  rw [dispatch, hRules]

/-- The calls so far stay the first ones. -/
theorem Run.prefix_serve {fixing : Bool} {before : List Call} (run : Run) (place : Nat)
    (rule : ActiveRule) (hook : Hook) (site : Site) (hBefore : before <+: run.progress.calls)
    (_ : run.progress.aborted = none) (_ : run.rules[place]? = some rule)
    (_ : Site.at? run.progress.tree.root site.path = some site) :
    before <+: (run.serve fixing hook site place rule).progress.calls := by
  rw [Run.serve, Progress.calls_take]
  exact hBefore.trans (List.prefix_append ..)

section Induction

variable {P : Run → Prop} (fixing : Bool)
  (hServe : ∀ (run : Run) (place : Nat) (rule : ActiveRule) (hook : Hook) (site : Site), P run →
    run.progress.aborted = none → run.rules[place]? = some rule →
    Site.at? run.progress.tree.root site.path = some site →
    P (run.serve fixing hook site place rule))
include hServe

/-- The rules in `done` have had their turn. -/
theorem ActiveRule.dispatch_induction (hook : Hook) (path : Path) (suppressed : List String)
    (done rules : List ActiveRule) {progress : Progress} (hStart : P ⟨done ++ rules, progress⟩)
    (hPath : (progress.tree.root.descendant? path).isSome = true) :
    P ⟨done ++ (dispatch fixing hook path suppressed rules progress).1,
        (dispatch fixing hook path suppressed rules progress).2⟩ ∧
      ((dispatch fixing hook path suppressed rules progress).2.tree.root.descendant? path).isSome =
        true := by
  induction rules generalizing done progress with
  | nil => exact ⟨hStart, hPath⟩
  | cons rule rules ih =>
      by_cases hRunning : progress.aborted.isSome = true
      · rw [dispatch_of_aborted _ hRunning]
        exact ⟨hStart, hPath⟩
      · by_cases hListens : rule.listens hook suppressed = true
        · obtain ⟨node, hNode⟩ := Option.isSome_iff_exists.mp hPath
          have hSite := Site.at?_eq_some hNode
          rw [dispatch_cons_of_listens rules hRunning hListens hSite, List.append_cons]
          apply ih
          · have hNext := hServe ⟨done ++ rule :: rules, progress⟩ done.length rule hook
              ⟨progress.tree.root, path, node⟩ hStart (by simpa using hRunning) (by simp) hSite
            simpa [Run.serve] using hNext
          · exact Progress.isSome_descendant?_take (by exact hSite)
        · rw [dispatch_cons_of_deaf rules hRunning hListens, List.append_cons]
          exact ih _ (by simpa using hStart) hPath

theorem Run.dispatch_induction (hook : Hook) (path : Path) (suppressed : List String) {run : Run}
    (hStart : P run) (hPath : (run.progress.tree.root.descendant? path).isSome = true) :
    P (run.dispatch fixing hook path suppressed) ∧
      ((run.dispatch fixing hook path suppressed).progress.tree.root.descendant? path).isSome =
        true :=
  ActiveRule.dispatch_induction fixing hServe hook path suppressed [] run.rules hStart hPath

theorem Run.visitDeclaration_induction (declaration : Node) (path : Path) (suppressed : List String)
    {run : Run} (hStart : P run)
    (hPath : (run.progress.tree.root.descendant? path).isSome = true) :
    P (run.visitDeclaration fixing declaration path suppressed) := by
  unfold visitDeclaration
  split
  · exact (Run.dispatch_induction fixing hServe .type path suppressed hStart hPath).1
  · obtain ⟨hTold, hStill⟩ :=
      Run.dispatch_induction fixing hServe .function path suppressed hStart hPath
    split
    · exact (Run.dispatch_induction fixing hServe .composable path suppressed hTold hStill).1
    · exact hTold

theorem Run.walkAt_induction {descend : Path → List String → Run → Run}
    (hDescend : ∀ path suppressed run, P run → P (descend path suppressed run))
    (path : Path) (suppressed : List String) {run : Run} (hStart : P run) :
    P (walkAt fixing descend path suppressed run) := by
  unfold walkAt
  split
  · exact hStart
  · split
    · exact hStart
    · rename_i node hNode
      split
      · exact hStart
      · split
        · apply hDescend
          exact Run.visitDeclaration_induction fixing hServe node path _ hStart (by simp [hNode])
        · exact hDescend path suppressed run hStart

theorem Run.walkBelow_induction (depth : Nat) (path : Path) (suppressed : List String) {run : Run}
    (hStart : P run) : P (walkBelow fixing depth path suppressed run) := by
  induction depth generalizing path suppressed run with
  | zero => exact hStart
  | succ depth ih =>
      rw [walkBelow]
      split
      · exact hStart
      · rename_i node hNode
        generalize List.range node.children.length = places
        clear hNode
        induction places generalizing run with
        | nil => exact hStart
        | cons place places ihAll =>
            rw [List.foldl_cons]
            apply ihAll
            exact Run.walkAt_induction fixing hServe
              (fun path suppressed run => ih path suppressed) _ _ hStart

theorem Run.walk_induction {run : Run} (hStart : P run) : P (run.walk fixing) := by
  unfold Run.walk
  apply Run.walkBelow_induction fixing hServe
  exact (Run.dispatch_induction fixing hServe .file [] _ hStart (by rfl)).1

end Induction

/-- What every call preserves holds at the end of a run, if it holds at the start. -/
theorem runRules_induction {P : Progress → Prop} (fixing : Bool) {indices : List Nat}
    (hTake : ∀ progress call, P progress → progress.aborted = none → call.fixing = fixing →
      call.rule ∈ indices → call.IsAt progress → P (progress.take call))
    (rules : List ActiveRule) (hRules : ∀ rule ∈ rules, rule.index ∈ indices) (tree : SourceTree)
    (hStart : P { tree }) : P (runRules rules tree fixing) := by
  unfold runRules
  apply And.left
  refine Run.walk_induction (P := fun run => P run.progress ∧
    ∀ rule ∈ run.rules, rule.index ∈ indices) fixing ?_ ⟨hStart, hRules⟩
  rintro run place rule hook site ⟨hBefore, hIndices⟩ hRunning hRule hSite
  have hIndex := hIndices rule (List.mem_of_getElem? hRule)
  refine ⟨hTake _ _ hBefore hRunning rfl hIndex hSite, fun other hOther => ?_⟩
  rcases List.mem_or_eq_of_mem_set hOther with hOld | rfl
  · exact hIndices other hOld
  · obtain ⟨visitor, hAnswer⟩ := rule.answer_fst fixing hook site
    rw [hAnswer]
    exact hIndex

end UiLint
