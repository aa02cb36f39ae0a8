import UiLint.Checks.Preset
import UiLint.Config.Document
import UiLint.Linter.Batch
import UiLint.Linter.Description
import UiLint.Script
import UiLint.Sketch
import UiLint.Proofs.Checks.BuiltIn
import UiLint.Proofs.Checks.Placement
import UiLint.Proofs.Checks.SameReport
import UiLint.Proofs.Engine.Anchor
import UiLint.Proofs.Engine.RunLayout
import UiLint.Proofs.Engine.Walk
import UiLint.Proofs.Linter.Isolation
import UiLint.Proofs.Engine.Emission
import UiLint.Proofs.Linter.Attribution
import UiLint.Proofs.Tree.Linearization
import UiLint.Proofs.Checks.LintReport
import UiLint.Proofs.Checks.HandleMissing
import UiLint.Proofs.Checks.OptionOrder
import UiLint.Proofs.Engine.Atomicity
import UiLint.Proofs.Linter.Refusal
import UiLint.Proofs.Sketch.ReadBack
import UiLint.Proofs.Linter.Disabling
import UiLint.Proofs.Checks.ParameterOrder
import UiLint.Proofs.Linter.AutoFix
import UiLint.Proofs.Engine.TextSplice
import UiLint.Proofs.Engine.DefaultEdits
import UiLint.Proofs.Declaration.TypeName
import UiLint.Proofs.Checks.FunctionTypes
import UiLint.Proofs.Linter.OffsetOrder
import UiLint.Proofs.Tree.Misuse
import UiLint.Proofs.Tree.LocalOrder
import UiLint.Proofs.Options.WellTyped
import UiLint.Proofs.Linter.SetSpelling
import UiLint.Proofs.Engine.Rejection
import UiLint.Proofs.Checks.NameSpacing
