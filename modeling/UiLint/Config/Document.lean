import UiLint.Options.Resolve
import UiLint.Toml.Reader

/-! Configurations as documents. -/
namespace UiLint

/-- The configuration that a TOML document holds. -/
def Config.parse (document : String) : Except ConfigError Config :=
  match (Toml.read? document).bind (Datum.config? .toml) with
  | some config => .ok config
  | none => .error .unreadable

end UiLint
