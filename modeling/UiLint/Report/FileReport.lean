import UiLint.Report.Violation
import UiLint.Tree.Order

/-! What comes out of a run over one file or over several. -/
namespace UiLint

/-- The violations of one file in order, and what stopped the run early, if anything did. -/
structure FileReport where
  path : String
  violations : List Violation
  aborted : Option LayoutError := none

/-- Whether a violation is left that could be fixed. -/
def FileReport.hasUnfixed (report : FileReport) : Bool :=
  report.violations.any fun violation => violation.fixable && !violation.autoFixed

/-- The outcome of a run that fixes: the report, with positions in the text after the fixes,
and the tree after them. -/
structure FixedFile where
  report : FileReport
  tree : SourceTree

/-- The source text after the fixes. -/
def FixedFile.source (fixed : FixedFile) : String :=
  fixed.tree.text

end UiLint
