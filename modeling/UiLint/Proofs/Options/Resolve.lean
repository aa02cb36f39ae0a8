import UiLint.Checks.HandleMissing

/-! Resolved options. Every declared option has a value of its own type, so that a rule whose options
resolve can read all of them. Options do not resolve if the setting of one of them cannot be read,
and then the first such option is named; other settings do not matter. -/
namespace UiLint

theorem OptionSpec.value_of_set {spec : OptionSpec} {settings : Settings} {value : OptionValue}
    {default : List String} (hType : spec.type = .set default)
    (hValue : spec.value settings = .ok value) : ∃ names, value = .set names := by
  unfold OptionSpec.value at hValue
  split at hValue
  · cases hValue
    exact ⟨_, by rw [defaultValue, hType]⟩
  · rename_i setting _
    rw [hType] at hValue
    cases setting <;> cases hValue <;> exact ⟨_, rfl⟩

theorem OptionSpec.value_of_choice {spec : OptionSpec} {settings : Settings} {value : OptionValue}
    {choices : List String} {default : String} (hType : spec.type = .choice choices default)
    (hValue : spec.value settings = .ok value) : ∃ choice, value = .choice choice := by
  unfold OptionSpec.value at hValue
  split at hValue
  · cases hValue
    exact ⟨_, by rw [defaultValue, hType]⟩
  · rw [hType] at hValue
    split at hValue
    · rename_i setting _ _ found hRead
      cases hValue
      cases setting with
      | text written =>
          obtain ⟨choice, -, rfl⟩ := Option.map_eq_some_iff.mp hRead
          exact ⟨choice, rfl⟩
      | _ => cases hRead
    · cases hValue

/-- Whether there is a setting for the option that cannot be read as a value of the option's type. -/
def OptionSpec.misfits (spec : OptionSpec) (settings : Settings) : Bool :=
  (settings.get? spec.name).any fun setting => (spec.type.read? setting).isNone

theorem OptionSpec.misfits_eq_true_iff {spec : OptionSpec} {settings : Settings} :
    spec.misfits settings = true ↔
      ∃ setting, settings.get? spec.name = some setting ∧ spec.type.read? setting = none := by
  simp [misfits, Option.any_eq_true]

theorem OptionSpec.value_of_misfits {spec : OptionSpec} {settings : Settings}
    (hMisfits : spec.misfits settings = true) :
    ∃ setting, settings.get? spec.name = some setting ∧ spec.value settings =
      .error (.invalidValue spec.name setting.display spec.type.expectation) := by
  obtain ⟨setting, hSetting, hRead⟩ := misfits_eq_true_iff.mp hMisfits
  exact ⟨setting, hSetting, by simp only [value, hSetting, hRead]⟩

theorem OptionSpec.exists_value {spec : OptionSpec} {settings : Settings}
    (hFits : spec.misfits settings = false) : ∃ value, spec.value settings = .ok value := by
  unfold OptionSpec.value
  cases hSetting : settings.get? spec.name with
  | none => exact ⟨_, rfl⟩
  | some setting =>
      cases hRead : spec.type.read? setting with
      | some value => exact ⟨value, by simp only [hRead]⟩
      | none =>
          rw [misfits_eq_true_iff.mpr ⟨setting, hSetting, hRead⟩] at hFits
          cases hFits

/-- The value depends on the setting that bears the option's name only. -/
theorem OptionSpec.value_congr {spec : OptionSpec} {settings others : Settings}
    (hSame : settings.get? spec.name = others.get? spec.name) :
    spec.value settings = spec.value others := by
  rw [value, value, hSame]

namespace Options

/-- Options do not resolve with the error about the first of them whose setting misfits. -/
theorem resolveOnto_eq_error_iff {settings : Settings} {options : Options} {specs : List OptionSpec}
    {error : ConfigError} :
    resolveOnto settings options specs = .error error ↔
      ∃ spec setting, specs.find? (·.misfits settings) = some spec ∧
        settings.get? spec.name = some setting ∧
        error = .invalidValue spec.name setting.display spec.type.expectation := by
  induction specs generalizing options with
  | nil => simp [resolveOnto]
  | cons spec specs ih =>
      rw [resolveOnto, List.find?_cons]
      cases hMisfits : spec.misfits settings with
      | true =>
          obtain ⟨setting, hSetting, hValue⟩ := OptionSpec.value_of_misfits hMisfits
          simp [hValue, hSetting, eq_comm]
      | false =>
          obtain ⟨value, hValue⟩ := OptionSpec.exists_value hMisfits
          simp [hValue, ih]

theorem exists_resolve_error_iff {settings : Settings} {specs : List OptionSpec} :
    (∃ error, resolve specs settings = .error error) ↔ specs.any (·.misfits settings) = true := by
  rw [List.any_eq_true, ← List.find?_isSome, Option.isSome_iff_exists]
  simp only [resolve, resolveOnto_eq_error_iff]
  constructor
  · rintro ⟨-, spec, -, hSpec, -⟩
    exact ⟨spec, hSpec⟩
  · rintro ⟨spec, hSpec⟩
    have hMisfits := List.find?_some hSpec
    obtain ⟨setting, hSetting, -⟩ := OptionSpec.value_of_misfits hMisfits
    exact ⟨_, spec, setting, hSpec, hSetting, rfl⟩

/-- Options depend on what the settings make of them only. -/
theorem resolveOnto_congr_of_value {settings others : Settings} {specs : List OptionSpec}
    (hSame : ∀ spec ∈ specs, spec.value settings = spec.value others) (options : Options) :
    resolveOnto settings options specs = resolveOnto others options specs := by
  induction specs generalizing options with
  | nil => rfl
  | cons spec specs ih =>
      rw [List.forall_mem_cons] at hSame
      rw [resolveOnto, resolveOnto, hSame.1]
      split
      · rfl
      · exact ih hSame.2 _

/-- Options depend on the settings that bear their names only. -/
theorem resolveOnto_congr {settings others : Settings} {specs : List OptionSpec}
    (hSame : ∀ spec ∈ specs, settings.get? spec.name = others.get? spec.name) (options : Options) :
    resolveOnto settings options specs = resolveOnto others options specs :=
  resolveOnto_congr_of_value (fun spec hSpec => OptionSpec.value_congr (hSame spec hSpec)) options

/-- Options that are resolved later do not change those of other names. -/
theorem get?_resolveOnto_of_not_mem {settings : Settings} {specs : List OptionSpec}
    {options resolved : Options} (hResolved : resolveOnto settings options specs = .ok resolved)
    {name : String} (hName : name ∉ specs.map (·.name)) : resolved.get? name = options.get? name := by
  induction specs generalizing options with
  | nil =>
      cases hResolved
      rfl
  | cons spec specs ih =>
      rw [List.map_cons, List.mem_cons, not_or] at hName
      rw [resolveOnto] at hResolved
      split at hResolved
      · cases hResolved
      · rw [ih hResolved hName.2, NameMap.get?_insert, if_neg hName.1]

/-- A declared option has the value that the settings give to it. -/
theorem exists_value_of_resolveOnto {settings : Settings} {specs : List OptionSpec}
    {options resolved : Options} (hNames : (specs.map (·.name)).Nodup)
    (hResolved : resolveOnto settings options specs = .ok resolved) :
    ∀ spec ∈ specs, ∃ value, spec.value settings = .ok value ∧
      resolved.get? spec.name = some value := by
  induction specs generalizing options with
  | nil => simp
  | cons spec specs ih =>
      rw [List.map_cons, List.nodup_cons] at hNames
      rw [resolveOnto] at hResolved
      split at hResolved
      · cases hResolved
      · rename_i value hValue
        refine List.forall_mem_cons.mpr ⟨⟨value, hValue, ?_⟩, ih hNames.2 hResolved⟩
        rw [get?_resolveOnto_of_not_mem hResolved hNames.1, NameMap.get?_insert, if_pos rfl]

variable {settings : Settings} {specs : List OptionSpec} {options : Options} {spec : OptionSpec}

theorem exists_requireSet (hNames : (specs.map (·.name)).Nodup)
    (hOptions : resolve specs settings = .ok options) (hSpec : spec ∈ specs) {default : List String}
    (hType : spec.type = .set default) : ∃ names, options.requireSet spec.name = .ok names := by
  obtain ⟨value, hValue, hGet⟩ := exists_value_of_resolveOnto hNames hOptions spec hSpec
  obtain ⟨names, rfl⟩ := OptionSpec.value_of_set hType hValue
  exact ⟨names, by simp only [requireSet, set?, hGet]⟩

theorem exists_requireChoice (hNames : (specs.map (·.name)).Nodup)
    (hOptions : resolve specs settings = .ok options) (hSpec : spec ∈ specs) {choices : List String}
    {default : String} (hType : spec.type = .choice choices default) :
    ∃ choice, options.requireChoice spec.name = .ok choice := by
  obtain ⟨value, hValue, hGet⟩ := exists_value_of_resolveOnto hNames hOptions spec hSpec
  obtain ⟨choice, rfl⟩ := OptionSpec.value_of_choice hType hValue
  exact ⟨choice, by simp only [requireChoice, choice?, hGet]⟩

end Options

/-- The missing-handle rule can read its options once they resolve. -/
theorem HandleMissing.exists_settings {config : UiLint.Settings} {options : Options}
    (hOptions : Options.resolve HandleMissing.rule.options config = .ok options) :
    ∃ settings, Settings.ofOptions options = .ok settings := by
  have hNames : (HandleMissing.rule.options.map (·.name)).Nodup := by decide
  obtain ⟨scope, hScope⟩ := Options.exists_requireChoice hNames hOptions
    (show visibilitySpec ∈ _ by simp [HandleMissing.rule]) rfl
  obtain ⟨aliases, hAliases⟩ := Options.exists_requireSet hNames hOptions
    (show aliasesSpec ∈ _ by simp [HandleMissing.rule]) rfl
  obtain ⟨markers, hMarkers⟩ := Options.exists_requireSet hNames hOptions
    (show previewMarkersSpec ∈ _ by simp [HandleMissing.rule]) rfl
  obtain ⟨emitters, hEmitters⟩ := Options.exists_requireSet hNames hOptions
    (show contentEmittersSpec ∈ _ by simp [HandleMissing.rule]) rfl
  refine ⟨⟨.ofChoice scope, aliases, markers, ⟨emitters⟩⟩, ?_⟩
  simp only [Settings.ofOptions, VisibilityScope.ofOptions, aliasesOf, previewMarkersOf,
    ContentEmitters.ofOptions, hScope, hAliases, hMarkers, hEmitters]
  rfl

end UiLint
