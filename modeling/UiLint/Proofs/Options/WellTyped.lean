import UiLint.Proofs.Options.Resolve
import UiLint.Proofs.Text.SimpleName

/-! Well-typed options. What comes out of resolving has every declared option and no other, each with
a value of its type. Only the settings of declared options decide what comes out, and the order in
which the options are declared does not. -/
namespace UiLint

open UiLint.Text

namespace NameMap

variable {α : Type} {first second : NameMap α}

theorem lookup_eq_some_iff {entries : List (String × α)} {name : String} {value : α}
    (hAscending : entries.Pairwise fun a b => a.1 < b.1) :
    entries.lookup name = some value ↔ (name, value) ∈ entries := by
  induction entries with
  | nil => simp
  | cons entry entries ih =>
      obtain ⟨hFirst, hRest⟩ := List.pairwise_cons.mp hAscending
      rw [lookup_cons_eq_ite, List.mem_cons, ← ih hRest]
      split
      · rename_i hName
        subst hName
        have hLater : entries.lookup entry.1 ≠ some value := fun hLookup =>
          String.lt_irrefl _ (hFirst (entry.1, value) ((ih hRest).mp hLookup))
        simp [hLater, Prod.ext_iff, eq_comm]
      · rename_i hName
        simp [hName, Prod.ext_iff]

/-- A map is determined by the values of all names. -/
theorem ext_of_get? (h : ∀ name, first.get? name = second.get? name) : first = second := by
  obtain ⟨entries, hAscending⟩ := first
  obtain ⟨others, hOthers⟩ := second
  have hMem : ∀ entry, entry ∈ entries ↔ entry ∈ others := fun entry => by
    rw [← lookup_eq_some_iff hAscending, ← lookup_eq_some_iff hOthers]
    exact iff_of_eq (congrArg (· = some entry.2) (h entry.1))
  have hDistinct : ∀ a b : String × α, a.1 < b.1 → a ≠ b := by
    rintro a b hLess rfl
    exact String.lt_irrefl _ hLess
  have hPerm : entries.Perm others :=
    (List.perm_ext_iff_of_nodup (hAscending.imp (hDistinct _ _)) (hOthers.imp (hDistinct _ _))).mpr
      hMem
  have hSame : entries = others :=
    hPerm.eq_of_pairwise (fun a b _ _ hLess hGreater => absurd hGreater (String.lt_asymm hLess))
      hAscending hOthers
  subst hSame
  rfl

end NameMap

namespace OptionType

/-- The settings that can be read as a value of the type. Flags and choices may be written with
padding, and flags in any case. -/
def Accepts : OptionType → Setting → Prop
  | text _, .text _ => True
  | flag _, .flag _ => True
  | flag _, .text written => (trim written).toLower = "true" ∨ (trim written).toLower = "false"
  | set _, .list _ => True
  | set _, .text _ => True
  | choice choices _, .text written => trim written ∈ choices
  | _, _ => False

/-- The values that an option of the type has. -/
def Holds : OptionType → OptionValue → Prop
  | text _, .text _ => True
  | flag _, .flag _ => True
  | set _, .set _ => True
  | choice choices _, .choice value => value ∈ choices
  | _, _ => False

/-- The value that a choice has by default is among those to choose from. -/
def OwnsDefault : OptionType → Prop
  | choice choices default => default ∈ choices
  | _ => True

/-- Asked for as an option of the type, the name has a value. -/
def Gives (options : Options) (name : String) : OptionType → Prop
  | text _ => ∃ value, options.requireText name = .ok value
  | flag _ => ∃ value, options.requireFlag name = .ok value
  | set _ => ∃ value, options.requireSet name = .ok value
  | choice choices _ => ∃ value ∈ choices, options.requireChoice name = .ok value

theorem flagOfText?_eq_none_iff {written : String} :
    flagOfText? written = none ↔
      ¬ ((trim written).toLower = "true" ∨ (trim written).toLower = "false") := by
  have hLower : ∀ word : String, (trim written).toLower = word ↔
      (trimmed written.toList).map Char.toLower = word.toList := fun word => by
    rw [← String.toList_inj, ← toList_trim, ← String.toList_map]
    rfl
  rw [flagOfText?, hLower, hLower, not_or]
  split
  · rename_i hTrue
    exact iff_of_false (Option.some_ne_none _) fun h => h.1 hTrue
  · rename_i hTrue
    split
    · rename_i hFalse
      exact iff_of_false (Option.some_ne_none _) fun h => h.2 hFalse
    · rename_i hFalse
      exact iff_of_true rfl ⟨hTrue, hFalse⟩

/-- A setting cannot be read exactly if the type does not accept it. -/
theorem read?_eq_none_iff {type : OptionType} {setting : Setting} :
    type.read? setting = none ↔ ¬ type.Accepts setting := by
  cases type with
  | text default => cases setting <;> simp [read?, Accepts]
  | flag default =>
      cases setting with
      | text written => rw [read?, Option.map_eq_none_iff, flagOfText?_eq_none_iff, Accepts]
      | _ => simp [read?, Accepts]
  | set default => cases setting <;> simp [read?, Accepts]
  | choice choices default =>
      cases setting with
      | text written =>
          rw [read?, Option.map_eq_none_iff, List.find?_eq_none, Accepts]
          simp only [beq_iff_eq]
          exact ⟨fun hNone hMem => hNone _ hMem rfl,
            fun hNot choice hMem hSame => hNot (hSame ▸ hMem)⟩
      | _ => simp [read?, Accepts]

theorem holds_of_read? {type : OptionType} {setting : Setting} {value : OptionValue}
    (hRead : type.read? setting = some value) : type.Holds value := by
  cases type with
  | text default =>
      cases setting <;> cases hRead
      trivial
  | flag default =>
      cases setting with
      | flag flag =>
          cases hRead
          trivial
      | text written =>
          obtain ⟨flag, -, rfl⟩ := Option.map_eq_some_iff.mp hRead
          trivial
      | _ => cases hRead
  | set default =>
      cases setting <;> cases hRead
      · trivial
      · trivial
  | choice choices default =>
      cases setting with
      | text written =>
          obtain ⟨choice, hChoice, rfl⟩ := Option.map_eq_some_iff.mp hRead
          exact List.mem_of_find?_eq_some hChoice
      | _ => cases hRead

/-- A value of the type is what the type's own way of asking gives. -/
theorem Holds.gives {type : OptionType} {value : OptionValue} (h : type.Holds value)
    {options : Options} {name : String} (hGet : options.get? name = some value) :
    type.Gives options name := by
  cases type with
  | text default =>
      cases value with
      | text value => exact ⟨value, by simp only [Options.requireText, Options.text?, hGet]⟩
      | _ => exact h.elim
  | flag default =>
      cases value with
      | flag value => exact ⟨value, by simp only [Options.requireFlag, Options.flag?, hGet]⟩
      | _ => exact h.elim
  | set default =>
      cases value with
      | set value => exact ⟨value, by simp only [Options.requireSet, Options.set?, hGet]⟩
      | _ => exact h.elim
  | choice choices default =>
      cases value with
      | choice value =>
          exact ⟨value, h, by simp only [Options.requireChoice, Options.choice?, hGet]⟩
      | _ => exact h.elim

end OptionType

theorem mem_setItems {items : List String} {name : String} :
    name ∈ setItems items ↔ name ≠ "" ∧ ∃ item ∈ items, trim item = name := by
  rw [setItems, NameSet.mem_ofList, List.mem_filter, List.mem_map, decide_eq_true_eq, and_comm]

/-- The members of a set that has been written down are not empty, and no blanks stand at their
ends. -/
theorem OptionType.members_of_read? {type : OptionType} {setting : Setting} {names : NameSet}
    (hRead : type.read? setting = some (.set names)) :
    ∀ name ∈ names, name ≠ "" ∧ IsTrim name.toList := by
  have hItems : ∃ items, names = setItems items := by
    have hHolds := holds_of_read? hRead
    cases type with
    | set default => cases setting <;> cases hRead <;> exact ⟨_, rfl⟩
    | _ => exact hHolds.elim
  obtain ⟨items, rfl⟩ := hItems
  intro name hName
  obtain ⟨hNonempty, item, -, rfl⟩ := mem_setItems.mp hName
  rw [toList_trim]
  exact ⟨hNonempty, isTrim_trimmed item.toList⟩

namespace OptionSpec

variable {spec : OptionSpec} {settings : Settings} {value : OptionValue}

/-- The option is not set, or it is set to something that its type accepts. -/
def Accepts (spec : OptionSpec) (settings : Settings) : Prop :=
  ∀ setting, settings.get? spec.name = some setting → spec.type.Accepts setting

theorem accepts_iff {setting : Setting} (hSetting : settings.get? spec.name = some setting) :
    spec.Accepts settings ↔ spec.type.Accepts setting := by
  rw [Accepts, hSetting]
  simp only [Option.some.injEq, forall_eq']

theorem misfits_eq_true_iff_not_accepts :
    spec.misfits settings = true ↔ ¬ spec.Accepts settings := by
  rw [misfits_eq_true_iff, Accepts]
  simp only [OptionType.read?_eq_none_iff, not_forall, exists_prop]

theorem misfits_eq_false_iff_accepts : spec.misfits settings = false ↔ spec.Accepts settings := by
  rw [← Bool.not_eq_true, misfits_eq_true_iff_not_accepts, not_not]

theorem eq_default_of_value (hNone : settings.get? spec.name = none)
    (hValue : spec.value settings = .ok value) : value = spec.defaultValue := by
  rw [OptionSpec.value, hNone] at hValue
  exact (Except.ok.inj hValue).symm

theorem read?_of_value {setting : Setting} (hSetting : settings.get? spec.name = some setting)
    (hValue : spec.value settings = .ok value) : spec.type.read? setting = some value := by
  rw [OptionSpec.value, hSetting] at hValue
  simp only at hValue
  split at hValue
  · rename_i found hRead
    rw [hRead, Except.ok.inj hValue]
  · cases hValue

theorem holds_defaultValue (h : spec.type.OwnsDefault) : spec.type.Holds spec.defaultValue := by
  unfold defaultValue
  cases hType : spec.type with
  | choice choices default =>
      rw [hType] at h
      exact h
  | _ => trivial

theorem holds_of_value (h : spec.type.OwnsDefault) (hValue : spec.value settings = .ok value) :
    spec.type.Holds value := by
  cases hSetting : settings.get? spec.name with
  | none =>
      rw [eq_default_of_value hSetting hValue]
      exact holds_defaultValue h
  | some setting => exact OptionType.holds_of_read? (read?_of_value hSetting hValue)

end OptionSpec

namespace Options

variable {specs others : List OptionSpec} {settings : Settings} {options : Options}

/-- Options resolve exactly if what is set is accepted. -/
theorem exists_resolve_iff :
    (∃ options, resolve specs settings = .ok options) ↔ ∀ spec ∈ specs, spec.Accepts settings := by
  have hFits : (∀ spec ∈ specs, spec.Accepts settings) ↔
      specs.any (·.misfits settings) = false := by
    rw [List.any_eq_false]
    simp only [OptionSpec.misfits_eq_true_iff_not_accepts, not_not]
  rw [hFits, ← Bool.not_eq_true, ← exists_resolve_error_iff]
  cases resolve specs settings <;> simp

/-- Options do not resolve with the error about the first of them that is set to something else. -/
theorem resolve_eq_error_iff {error : ConfigError} :
    resolve specs settings = .error error ↔ ∃ before spec after setting,
      specs = before ++ spec :: after ∧ (∀ earlier ∈ before, earlier.Accepts settings) ∧
        settings.get? spec.name = some setting ∧ ¬ spec.type.Accepts setting ∧
        error = .invalidValue spec.name setting.display spec.type.expectation := by
  rw [resolve, resolveOnto_eq_error_iff]
  simp only [List.find?_eq_some_iff_append, Bool.not_eq_true',
    OptionSpec.misfits_eq_false_iff_accepts, OptionSpec.misfits_eq_true_iff_not_accepts]
  constructor
  · rintro ⟨spec, setting, ⟨hNot, before, after, hSpecs, hBefore⟩, hSetting, hError⟩
    rw [OptionSpec.accepts_iff hSetting] at hNot
    exact ⟨before, spec, after, setting, hSpecs, hBefore, hSetting, hNot, hError⟩
  · rintro ⟨before, spec, after, setting, hSpecs, hBefore, hSetting, hNot, hError⟩
    rw [← OptionSpec.accepts_iff hSetting] at hNot
    exact ⟨spec, setting, ⟨hNot, before, after, hSpecs, hBefore⟩, hSetting, hError⟩

/-- What comes out has the declared options, each with the value that the settings give it. -/
theorem get?_resolve_eq_some_iff (hNames : (specs.map (·.name)).Nodup)
    (hOptions : resolve specs settings = .ok options) {name : String} {value : OptionValue} :
    options.get? name = some value ↔
      ∃ spec ∈ specs, spec.name = name ∧ spec.value settings = .ok value := by
  constructor
  · intro hGet
    by_cases hName : name ∈ specs.map (·.name)
    · obtain ⟨spec, hSpec, rfl⟩ := List.mem_map.mp hName
      obtain ⟨found, hFound, hSame⟩ := exists_value_of_resolveOnto hNames hOptions spec hSpec
      rw [hGet] at hSame
      cases hSame
      exact ⟨spec, hSpec, rfl, hFound⟩
    · rw [get?_resolveOnto_of_not_mem hOptions hName] at hGet
      cases hGet
  · rintro ⟨spec, hSpec, rfl, hValue⟩
    obtain ⟨found, hFound, hSame⟩ := exists_value_of_resolveOnto hNames hOptions spec hSpec
    rw [hValue] at hFound
    cases hFound
    exact hSame

/-- Options that are declared in another order resolve to the same. -/
theorem resolve_perm (hNames : (specs.map (·.name)).Nodup) (hPerm : specs.Perm others)
    (hOptions : resolve specs settings = .ok options) : resolve others settings = .ok options := by
  have hAccepted := exists_resolve_iff.mp ⟨options, hOptions⟩
  obtain ⟨resolved, hResolved⟩ := exists_resolve_iff.mpr fun spec hSpec =>
    hAccepted spec (hPerm.mem_iff.mpr hSpec)
  have hOtherNames : (others.map (·.name)).Nodup := (hPerm.map _).nodup_iff.mp hNames
  have hSame : resolved = options := by
    refine NameMap.ext_of_get? fun name => Option.ext fun value => ?_
    rw [get?_resolve_eq_some_iff hOtherNames hResolved, get?_resolve_eq_some_iff hNames hOptions]
    simp only [hPerm.mem_iff]
  rw [hResolved, hSame]

/-- Declared options resolve exactly if everything that they are set to is accepted; otherwise the
error is about the first of them that is not, and shows what it is set to. What comes out has the
declared options and no others, each with a value of its type: the one by default, or the one that
the setting is read as, and then the members of a set are not empty and have no blanks at their
ends. The order of the declarations makes no difference to that, nor do settings of other names. -/
theorem resolve_well_typed (specs : List OptionSpec) (settings : Settings)
    (hNames : (specs.map (·.name)).Nodup) (hDefaults : ∀ spec ∈ specs, spec.type.OwnsDefault) :
    ((∃ options, resolve specs settings = .ok options) ↔
      ∀ spec ∈ specs, spec.Accepts settings) ∧
    (∀ error, resolve specs settings = .error error ↔ ∃ before spec after setting,
      specs = before ++ spec :: after ∧ (∀ earlier ∈ before, earlier.Accepts settings) ∧
        settings.get? spec.name = some setting ∧ ¬ spec.type.Accepts setting ∧
        error = .invalidValue spec.name setting.display spec.type.expectation) ∧
    (∀ options, resolve specs settings = .ok options →
      (∀ name, (∃ value, options.get? name = some value) ↔ name ∈ specs.map (·.name)) ∧
      (∀ spec ∈ specs, ∃ value, options.get? spec.name = some value ∧ spec.type.Holds value ∧
        spec.type.Gives options spec.name ∧
        (settings.get? spec.name = none → value = spec.defaultValue) ∧
        ∀ setting, settings.get? spec.name = some setting →
          spec.type.read? setting = some value ∧
          ∀ names, value = .set names → ∀ name ∈ names, name ≠ "" ∧ IsTrim name.toList) ∧
      ∀ others, specs.Perm others → resolve others settings = .ok options) ∧
    ∀ others : Settings, (∀ spec ∈ specs, others.get? spec.name = settings.get? spec.name) →
      resolve specs others = resolve specs settings := by
  refine ⟨exists_resolve_iff, fun error => resolve_eq_error_iff,
    fun options hOptions => ⟨?_, ?_, fun others hPerm => resolve_perm hNames hPerm hOptions⟩,
    fun others hSame => resolveOnto_congr hSame _⟩
  · intro name
    simp only [get?_resolve_eq_some_iff hNames hOptions, List.mem_map]
    constructor
    · rintro ⟨value, spec, hSpec, hName, -⟩
      exact ⟨spec, hSpec, hName⟩
    · rintro ⟨spec, hSpec, hName⟩
      obtain ⟨value, hValue, -⟩ := exists_value_of_resolveOnto hNames hOptions spec hSpec
      exact ⟨value, spec, hSpec, hName, hValue⟩
  · intro spec hSpec
    obtain ⟨value, hValue, hGet⟩ := exists_value_of_resolveOnto hNames hOptions spec hSpec
    have hHolds := OptionSpec.holds_of_value (hDefaults spec hSpec) hValue
    refine ⟨value, hGet, hHolds, hHolds.gives hGet,
      fun hNone => OptionSpec.eq_default_of_value hNone hValue, fun setting hSetting => ?_⟩
    have hRead := OptionSpec.read?_of_value hSetting hValue
    refine ⟨hRead, fun names hSet => ?_⟩
    rw [hSet] at hRead
    exact OptionType.members_of_read? hRead

end Options

namespace Mixed

/-- An option of each type. -/
def specs : List OptionSpec :=
  [visibilitySpec, aliasesSpec, { name := "strict", type := .flag false },
    { name := "prefix", type := .text "ui" }]

/-- Some of them are set, with padding and with a blank item; so is another name. -/
def settings : Settings :=
  ((NameMap.empty.insert "strict" (.text " TRUE ")).insert aliasesSpec.name (.text "A, ,B ")).insert
    "somethingElse" (.integer 42)

end Mixed

/-- The padded settings are read, in either order of the options, and leave trimmed names. -/
theorem Options.resolve_well_typed_mixed :
    (Mixed.specs.map (·.name)).Nodup ∧ (∀ spec ∈ Mixed.specs, spec.type.OwnsDefault) ∧
      ∃ options, resolve Mixed.specs Mixed.settings = .ok options ∧
        resolve Mixed.specs.reverse Mixed.settings = .ok options ∧
        ∃ names, options.get? aliasesSpec.name = some (.set names) ∧
          ∀ name ∈ names, name ≠ "" ∧ IsTrim name.toList := by
  have hNames : (Mixed.specs.map (·.name)).Nodup := by decide
  have hDefaults : ∀ spec ∈ Mixed.specs, spec.type.OwnsDefault := by
    simp [Mixed.specs, visibilitySpec, aliasesSpec, OptionType.OwnsDefault]
  have hAliases : Mixed.settings.get? aliasesSpec.name = some (.text "A, ,B ") := rfl
  obtain ⟨options, hOptions⟩ : ∃ options, resolve Mixed.specs Mixed.settings = .ok options :=
    ⟨_, rfl⟩
  obtain ⟨-, hValues, hOrders⟩ :=
    (resolve_well_typed Mixed.specs Mixed.settings hNames hDefaults).2.2.1 options hOptions
  obtain ⟨value, hGet, -, -, -, hRead⟩ := hValues aliasesSpec (by simp [Mixed.specs])
  obtain ⟨hValue, hMembers⟩ := hRead _ hAliases
  cases hValue
  exact ⟨hNames, hDefaults, options, hOptions, hOrders _ (List.reverse_perm _).symm, _, hGet,
    hMembers _ rfl⟩

end UiLint
