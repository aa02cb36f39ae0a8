import UiLint.Proofs.Engine.Atomicity
import UiLint.Proofs.Engine.TextSplice

/-! What is said about an edit that was accepted and cannot be made. It is never that the target lies
outside of the scope, but always that the target is missing. The path that is given for the target is
the one from the root only if the target is there, or if the rule was called for the root; a target
that earlier edits of the call have taken away is given by its path from the visited node. -/
namespace UiLint

namespace Edit

/-- An edit is accepted if its target lies in the scope, and it keeps the way from there to the
target. -/
theorem within_eq_ok_iff {scope target : Path} {change : Change} {edit : Edit} :
    within scope target change = .ok edit ↔
      target.relativeTo? scope = some edit.target ∧ change = edit.change := by
  rw [within]
  cases target.relativeTo? scope with
  | none => simp
  | some below =>
      simp only [Except.ok.injEq, Option.some.injEq]
      constructor
      · rintro rfl
        exact ⟨rfl, rfl⟩
      · rintro ⟨rfl, rfl⟩
        rfl

/-- What a rule asks for is refused in two ways. If the target is not there, the error gives the path
that the edit keeps; if it cannot take the change, the error gives the path from the root. -/
theorem apply_eq_rule_iff {edit : Edit} {scope : Path} {node : Node} {error : RuleError} :
    edit.apply scope node = .error (.rule error) ↔
      (node.descendant? edit.target = none ∧ error = .missingTarget edit.target) ∨
      ∃ target, node.descendant? edit.target = some target ∧ edit.change.result? target = none ∧
        error = .missingTarget (scope ++ edit.target) := by
  rw [apply]
  cases hTarget : node.descendant? edit.target with
  | none => simp [eq_comm]
  | some target =>
      cases hChanged : edit.change.result? target with
      | none => simp [hChanged, eq_comm]
      | some changed =>
          simp only [reduceCtorEq, false_and, Option.some.injEq, exists_eq_left', hChanged, or_self,
            iff_false]
          split
          · simp
          · split <;> simp

theorem applyAll_cons_eq_ok_iff {edit : Edit} {edits : List Edit} {scope : Path} {node last : Node}
    {moves : List Shift} :
    applyAll scope node (edit :: edits) = .ok (last, moves) ↔
      ∃ next move rest, edit.apply scope node = .ok (next, move) ∧
        applyAll scope next edits = .ok (last, rest) ∧ moves = move :: rest := by
  rw [applyAll]
  cases hApply : edit.apply scope node with
  | error failure => simp
  | ok made =>
      obtain ⟨next, move⟩ := made
      cases hAll : applyAll scope next edits with
      | error failure => simp [hAll]
      | ok all => simp [hAll, Prod.ext_iff, eq_comm]

theorem applyAll_cons_eq_error_iff {edit : Edit} {edits : List Edit} {scope : Path} {node : Node}
    {failure : EditFailure} :
    applyAll scope node (edit :: edits) = .error failure ↔
      edit.apply scope node = .error failure ∨
      ∃ next move, edit.apply scope node = .ok (next, move) ∧
        applyAll scope next edits = .error failure := by
  rw [applyAll]
  cases hApply : edit.apply scope node with
  | error failure => simp
  | ok made =>
      obtain ⟨next, move⟩ := made
      cases hAll : applyAll scope next edits with
      | error failure => simp [hAll]
      | ok all => simp [hAll]

/-- Of edits that are made one after the other, the first one that cannot be made decides the
error. -/
theorem applyAll_eq_error_iff {edits : List Edit} {scope : Path} {node : Node}
    {failure : EditFailure} :
    applyAll scope node edits = .error failure ↔
      ∃ earlier edit later copy moves, edits = earlier ++ edit :: later ∧
        applyAll scope node earlier = .ok (copy, moves) ∧ edit.apply scope copy = .error failure := by
  induction edits generalizing node with
  | nil => simp [applyAll]
  | cons first edits ih =>
      rw [applyAll_cons_eq_error_iff]
      constructor
      · rintro (hFirst | ⟨next, move, hFirst, hRest⟩)
        · exact ⟨[], first, edits, node, [], rfl, rfl, hFirst⟩
        · obtain ⟨earlier, edit, later, copy, moves, rfl, hEarlier, hEdit⟩ := ih.mp hRest
          exact ⟨first :: earlier, edit, later, copy, move :: moves, rfl,
            applyAll_cons_eq_ok_iff.mpr ⟨next, move, moves, hFirst, hEarlier, rfl⟩, hEdit⟩
      · rintro ⟨earlier, edit, later, copy, moves, hEdits, hEarlier, hEdit⟩
        cases earlier with
        | nil =>
            cases hEdits
            cases hEarlier
            exact .inl hEdit
        | cons other earlier =>
            cases hEdits
            obtain ⟨next, move, rest, hFirst, hRest, -⟩ := applyAll_cons_eq_ok_iff.mp hEarlier
            exact .inr ⟨next, move, hFirst, ih.mpr ⟨earlier, edit, later, copy, rest, rfl, hRest, hEdit⟩⟩

/-- Edits that have been made leave their node laid out. -/
theorem canonical_of_applyAll {edits : List Edit} {scope : Path} {node copy : Node}
    {moves : List Shift} (h : node.Canonical) (hAll : applyAll scope node edits = .ok (copy, moves)) :
    copy.Canonical := by
  induction edits generalizing node moves with
  | nil =>
      cases hAll
      exact h
  | cons edit edits ih =>
      obtain ⟨next, move, rest, hApply, hRest, -⟩ := applyAll_cons_eq_ok_iff.mp hAll
      exact ih (canonical_redraft? h (redraft?_of_apply h hApply)).1 hRest

end Edit

/-- A call that ended well is recorded as failed with the error of the first of its edits that is
refused. -/
theorem Progress.findings_take_of_refused {progress : Progress} {call : Call} {earlier later : List Edit}
    {edit : Edit} {copy : Node} {moves : List Shift} {error : RuleError}
    (hEnding : call.response.ending = .done) (hEdits : call.edits = earlier ++ edit :: later)
    (hEarlier : Edit.applyAll call.site.path call.site.node earlier = .ok (copy, moves))
    (hError : edit.apply call.site.path copy = .error (.rule error)) :
    (progress.take call).findings = Finding.push (progress.tell call).findings call.rule
      ⟨call.site.node.span.start, "rule-failure: " ++ error.message, false⟩ := by
  have hAll : Edit.applyAll call.site.path call.site.node call.edits = .error (.rule error) :=
    Edit.applyAll_eq_error_iff.mpr ⟨earlier, edit, later, copy, moves, hEdits, hEarlier, hError⟩
  refine findings_take_of_failure ?_
  rw [Call.failure?, Ending.failure?_eq_none_iff.mpr hEnding]
  simp only [hAll]

namespace Edit

/-- An edit that was accepted for a target, and that is to be made after other edits of the same call,
is refused exactly if there no longer is such a target, no token in it, or no parameter there. The
target still lies in the scope, and the error is that it is missing. The error gives the full path of
the target exactly if the target is there or the call is for the root, and otherwise what is left of
that path below the visited node. The call is recorded as failed in those words. -/
theorem refused_by_full_path_iff {tree : SourceTree} {scope target : Path} {node copy : Node}
    {earlier : List Edit} {moves : List Shift} {change : Change} {edit : Edit} (hTree : tree.Canonical)
    (hNode : tree.root.descendant? scope = some node)
    (hEarlier : applyAll scope node earlier = .ok (copy, moves))
    (hEdit : within scope target change = .ok edit) :
    target.relativeTo? scope = some edit.target ∧
    ((∃ error, edit.apply scope copy = .error (.rule error)) ↔
      change.Impossible copy edit.target) ∧
    ∀ error, edit.apply scope copy = .error (.rule error) →
      (∃ path, error = .missingTarget path ∧ (path = target ∨ scope ++ path = target) ∧
        (path = target ↔ scope = [] ∨ ∃ site, Site.at? copy edit.target = some site)) ∧
      ∀ (progress : Progress) (call : Call), call.site.path = scope → call.site.node = node →
        call.response.ending = .done → (∃ later, call.edits = earlier ++ edit :: later) →
        (progress.take call).findings = Finding.push (progress.tell call).findings call.rule
          ⟨node.span.start, "rule-failure: " ++ error.message, false⟩ := by
  obtain ⟨hBelow, rfl⟩ := within_eq_ok_iff.mp hEdit
  obtain rfl := Path.relativeTo?_eq_some_iff.mp hBelow
  obtain ⟨hRoot, -⟩ := hTree.root
  have hCopy := canonical_of_applyAll (hRoot.descendant hNode).1 hEarlier
  refine ⟨hBelow, by rw [apply_eq_error_iff, redraft?_eq_none_iff hCopy.wellFormed], ?_⟩
  intro error hError
  refine ⟨?_, ?_⟩
  · rcases apply_eq_rule_iff.mp hError with ⟨hNone, rfl⟩ | ⟨found, hFound, -, rfl⟩
    · refine ⟨edit.target, rfl, .inr rfl, ?_⟩
      simp [Site.at?, hNone]
    · exact ⟨scope ++ edit.target, rfl, .inl rfl, by simp [Site.at?, hFound]⟩
  · rintro progress call rfl rfl hEnding ⟨later, hEdits⟩
    exact Progress.findings_take_of_refused hEnding hEdits hEarlier hError

namespace Outdated

/-- The events of `fun f(a: A = A())`, the default value being a call. -/
def events : List Event :=
  [.start .file (.file {}), .start .functionDeclaration (.function { name := "f" }),
    .token "fun f", .start .parameterList .plain, .token "(",
    .start .parameter (.parameter ⟨"a", "A"⟩), .token "a: A",
    .start .defaultValue .plain, .token " = ", .start .call (.call { callee := "A" }), .token "A()",
    .finish, .finish, .finish, .token ")", .finish, .finish, .finish]

/-- A rule that gives the parameter another default value and then rewrites a token of the old one. -/
def script : Script.RuleScript where
  name := "replaces"
  code := "R"
  entries := [{ hook := .function, actions := [
    .setDefault "B()" (.parameter 0), .replaceLastToken "C()" (.below [1, 1, 1, 1, 0])] }]

def linter : Linter := Linter.build [script.rule] {}

def tree : SourceTree := (SourceTree.ofEvents events).toOption.getD default

def rules : List ActiveRule := linter.start.toOption.getD []

def function : Node := (tree.root.descendant? [0]).getD default

/-- The edit that gives the parameter another default value. -/
def complete : Edit := ⟨[1, 1], .defaultValue "B()"⟩

/-- The function after that edit, and what the edit moves. -/
def completed : Node × List Shift := (applyAll [0] function [complete]).toOption.getD default

end Outdated

/-- A parameter list gets no default value. It is there, so the error gives its full path, also after
an edit below it. -/
theorem refused_by_full_path_iff_list :
    SourceTree.ofEvents Outdated.events = .ok Outdated.tree ∧
      Outdated.tree.root.descendant? [0] = some Outdated.function ∧
      applyAll [0] Outdated.function [Outdated.complete] = .ok Outdated.completed ∧
      ∃ misplace, within [0] [0, 1] (.defaultValue "C()") = .ok misplace ∧
        misplace.apply [0] Outdated.completed.1 = .error (.rule (.missingTarget [0, 1])) := by
  have hTree : SourceTree.ofEvents Outdated.events = .ok Outdated.tree := rfl
  have hEarlier : applyAll [0] Outdated.function [Outdated.complete] =
      .ok (Outdated.completed.1, Outdated.completed.2) := rfl
  have hMisplace : within [0] [0, 1] (.defaultValue "C()") = .ok _ := rfl
  obtain ⟨hCanonical, -⟩ := SourceTree.canonical_of_ofEvents hTree
  obtain ⟨-, hRefused, hNamed⟩ := refused_by_full_path_iff hCanonical rfl hEarlier hMisplace
  obtain ⟨error, hError⟩ := hRefused.mpr (.misplaced rfl (by decide))
  obtain ⟨⟨path, rfl, -, hFull⟩, -⟩ := hNamed error hError
  refine ⟨hTree, rfl, hEarlier, _, hMisplace, ?_⟩
  rw [hError, hFull.mpr (.inr ⟨_, rfl⟩)]

/-- The call that was the default value goes with it. The error for its token gives the path below
the function in place of the full one, and so does the report. -/
theorem refused_by_relative_path :
    SourceTree.ofEvents Outdated.events = .ok Outdated.tree ∧
      Outdated.tree.root.descendant? [0] = some Outdated.function ∧
      within [0] [0, 1, 1] (.defaultValue "B()") = .ok Outdated.complete ∧
      applyAll [0] Outdated.function [Outdated.complete] = .ok Outdated.completed ∧
      (∃ retell, within [0] [0, 1, 1, 1, 1, 0] (.lastToken "C()") = .ok retell ∧
        retell.apply [0] Outdated.completed.1 = .error (.rule (.missingTarget [1, 1, 1, 1, 0]))) ∧
      ∃ fixed, Outdated.linter.lintAndFix ⟨"f", Outdated.tree⟩ = .ok fixed ∧
        ∃ found ∈ fixed.report.violations, found.message =
          "rule-failure: edit target [1, 1, 1, 1, 0] is missing or cannot be edited" := by
  have hFailure : ⟨0, 0, 0, "rule-failure: edit target [1, 1, 1, 1, 0] is missing or cannot be edited",
      false, false⟩ ∈ (runRules Outdated.rules Outdated.tree true).findings := by decide +kernel
  exact ⟨rfl, rfl, rfl, rfl, ⟨_, rfl, rfl⟩, _, Linter.run_eq_ok rfl ⟨"f", Outdated.tree⟩ true, _,
    Linter.mem_violations.mpr ⟨_, hFailure, _, rfl, rfl⟩, rfl⟩

end Edit

end UiLint
