import UiLint.Declaration.Visibility
import UiLint.Options.Resolve

/-! Options that several rules about styling handles read. -/
namespace UiLint

/-- Which functions the rules inspect, by visibility. -/
def visibilitySpec : OptionSpec where
  name := "checkModifiersForVisibility"
  type := .choice ["public", "public_and_internal", "all"] "public"
  description := "Function visibilities the styling-handle rules inspect."

/-- Which type names count as a styling handle. -/
def aliasesSpec : OptionSpec where
  name := "stylingHandleTypeAliases"
  type := .set ["Modifier"]
  description := "Type names that count as a styling-handle parameter."

/-- Which marks stand on previews. -/
def previewMarkersSpec : OptionSpec where
  name := "contentEmittingMarkerAnnotations"
  type := .set ["Preview"]
  description := "Annotations marking preview functions, which are exempt."

/-- Which functions emit content besides those that are known to. -/
def contentEmittersSpec : OptionSpec where
  name := "contentEmitters"
  type := .set []
  description := "Additional UI functions that emit content."

/-- The functions that are inspected: public ones, internal ones too, or all. -/
inductive VisibilityScope where
  | publicOnly
  | publicAndInternal
  | all
  deriving DecidableEq, Repr, Inhabited

namespace VisibilityScope

/-- The scope a choice stands for. -/
def ofChoice (choice : String) : VisibilityScope :=
  if choice = "all" then all
  else if choice = "public_and_internal" then publicAndInternal
  else publicOnly

/-- The scope among resolved options. -/
def ofOptions (options : Options) : Except ConfigError VisibilityScope :=
  (options.requireChoice visibilitySpec.name).map ofChoice

/-- Whether functions of the visibility are inspected. -/
def includes : VisibilityScope → Visibility → Bool
  | _, .everywhere => true
  | all, _ => true
  | publicAndInternal, .inModule => true
  | _, _ => false

end VisibilityScope

/-- The names of styling-handle types among resolved options. -/
def aliasesOf (options : Options) : Except ConfigError NameSet :=
  options.requireSet aliasesSpec.name

/-- The preview marks among resolved options. -/
def previewMarkersOf (options : Options) : Except ConfigError NameSet :=
  options.requireSet previewMarkersSpec.name

end UiLint
