import UiLint.Linter.Basic

/-! Runs over several files. Results keep the order of the files. -/
namespace UiLint

/-- A file that was not linted, and why. -/
structure FileFailure where
  path : String
  error : LintError

/-- The reports of the files that were linted, and the failures of the others. -/
structure Summary where
  reports : List FileReport
  failures : List FileFailure

namespace Summary

/-- All violations, file by file. -/
def violations (summary : Summary) : List Violation :=
  summary.reports.flatMap (·.violations)

/-- The number of violations. -/
def count (summary : Summary) : Nat :=
  summary.violations.length

/-- Whether a file failed or a violation is an error. -/
def hasErrors (summary : Summary) : Bool :=
  !summary.failures.isEmpty || summary.violations.any (·.severity == .error)

/-- The number of violations of a severity. -/
def countOf (summary : Summary) (severity : Severity) : Nat :=
  summary.violations.countP (·.severity == severity)

end Summary

namespace Linter

/-- Lint several files. -/
def lintAll (linter : Linter) (files : List SourceFile) : Summary where
  reports := files.filterMap fun file =>
    match linter.lint file with
    | .ok report => some report
    | .error _ => none
  failures := files.filterMap fun file =>
    match linter.lint file with
    | .ok _ => none
    | .error error => some ⟨file.path, error⟩

/-- Lint and fix several files. -/
def fixAll (linter : Linter) (files : List SourceFile) : List (Except FileFailure FixedFile) :=
  files.map fun file => (linter.lintAndFix file).mapError (⟨file.path, ·⟩)

end Linter

end UiLint
