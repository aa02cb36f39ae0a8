import UiLint.Proofs.Linter.Refusal
import UiLint.Proofs.Options.WellTyped

/-! The two spellings of a set. A set of names is written as a list or as a text with commas, either
of them with padding and with blank items anywhere; what counts are the items that are left. Linters
do not tell the spellings apart. -/
namespace UiLint

open UiLint.Text

namespace Text

theorem splitAtMark_eq_splitOn (mark : Char) (cs : List Char) :
    splitAtMark mark cs = cs.splitOn mark := by
  induction cs with
  | nil => rfl
  | cons c cs ih =>
      rw [splitAtMark, List.splitOn_cons_eq_if_modifyHead, ← ih]
      by_cases hMark : c = mark
      · simp [hMark]
      · have hRuns : splitAtMark mark cs ≠ [] := by
          rw [ih]
          exact List.splitOn_ne_nil mark cs
        obtain ⟨run, runs, hCut⟩ := List.exists_cons_of_ne_nil hRuns
        simp [hMark, hCut]

/-- No run contains the mark that the text has been cut at. -/
theorem not_mem_of_mem_splitAtMark {mark : Char} {cs run : List Char}
    (hRun : run ∈ splitAtMark mark cs) : mark ∉ run := by
  induction cs generalizing run with
  | nil =>
      rw [List.mem_singleton.mp hRun]
      exact List.not_mem_nil
  | cons c cs ih =>
      rw [splitAtMark] at hRun
      split at hRun
      · rcases List.mem_cons.mp hRun with rfl | hRun
        · exact List.not_mem_nil
        · exact ih hRun
      · rename_i hMark
        have hFirst : ∀ {first : List Char}, mark ∉ first → mark ∉ c :: first := by
          intro first hNone
          rw [List.mem_cons, not_or]
          exact ⟨Ne.symm hMark, hNone⟩
        split at hRun
        · rw [List.mem_singleton.mp hRun]
          exact hFirst List.not_mem_nil
        · rename_i first runs hCut
          rw [hCut] at ih
          rcases List.mem_cons.mp hRun with rfl | hRun
          · exact hFirst (ih List.mem_cons_self)
          · exact ih (List.mem_cons_of_mem first hRun)

theorem not_mem_of_mem_parts {mark : Char} {text part : String} (hPart : part ∈ parts mark text) :
    mark ∉ part.toList := by
  obtain ⟨run, hRun, rfl⟩ := List.mem_map.mp hPart
  rw [String.toList_ofList]
  exact not_mem_of_mem_splitAtMark hRun

/-- The parts of a text, joined, are the text again. -/
theorem intercalate_parts (text : String) : String.intercalate "," (parts ',' text) = text := by
  have hRuns : (parts ',' text).map String.toList = splitAtMark ',' text.toList := by
    rw [parts, List.map_map]
    exact List.map_id'' (fun _ => String.toList_ofList) _
  rw [← String.toList_inj, String.toList_intercalate, hRuns, splitAtMark_eq_splitOn]
  exact List.intercalate_splitOn ','

/-- Joined items are cut into the same items again, as long as there is one. -/
theorem parts_intercalate {items : List String} (hCommas : ∀ item ∈ items, ',' ∉ item.toList)
    (hItems : items ≠ []) : parts ',' (String.intercalate "," items) = items := by
  have hRuns : splitAtMark ',' (String.intercalate "," items).toList =
      items.map String.toList := by
    rw [splitAtMark_eq_splitOn, String.toList_intercalate]
    exact List.splitOn_intercalate ',' (List.forall_mem_map.mpr hCommas) (by simpa using hItems)
  rw [parts, hRuns, List.map_map]
  exact List.map_id'' (fun _ => String.ofList_toList) items

/-- Items as they may be written down: with blanks around them, and with blank items anywhere among
them. -/
inductive Padded : List String → List String → Prop where
  | nil : Padded [] []
  | item {items padded : List String} {left right : String} (item : String)
      (hLeft : Blank left.toList) (hRight : Blank right.toList) (rest : Padded items padded) :
      Padded (item :: items) ((left ++ item ++ right) :: padded)
  | blank {items padded : List String} {filler : String} (hFiller : Blank filler.toList)
      (rest : Padded items padded) : Padded items (filler :: padded)

theorem trim_padded {left right : String} (hLeft : Blank left.toList) (hRight : Blank right.toList)
    (item : String) : trim (left ++ item ++ right) = trim item := by
  rw [trim, String.toList_append, String.toList_append, trimmed_padded hLeft hRight, trim]

theorem trim_blank {filler : String} (hFiller : Blank filler.toList) : trim filler = "" := by
  have hNone : trimmed filler.toList = [] := by
    rw [trimmed, List.dropWhile_eq_nil_iff.mpr hFiller]
    rfl
  rw [trim, hNone]

variable {items padded : List String}

/-- A comma is no blank, so there are none in padding. -/
theorem Padded.no_commas (h : Padded items padded) (hCommas : ∀ item ∈ items, ',' ∉ item.toList) :
    ∀ item ∈ padded, ',' ∉ item.toList := by
  have hBlank : ∀ {text : String}, Blank text.toList → ',' ∉ text.toList :=
    fun hText => hText.not_mem (by decide)
  induction h with
  | nil => simp
  | item item hLeft hRight rest ih =>
      rw [List.forall_mem_cons] at hCommas ⊢
      refine ⟨?_, ih hCommas.2⟩
      simp only [String.toList_append, List.mem_append, not_or]
      exact ⟨⟨hBlank hLeft, hCommas.1⟩, hBlank hRight⟩
  | blank hFiller rest ih => exact List.forall_mem_cons.mpr ⟨hBlank hFiller, ih hCommas⟩

end Text

/-- Padding makes no difference to a set. -/
theorem Text.Padded.setItems_eq {items padded : List String} (h : Padded items padded) :
    setItems padded = setItems items := by
  refine NameSet.ext_of_mem_iff fun name => ?_
  rw [mem_setItems, mem_setItems]
  refine and_congr_right fun hNonempty => ?_
  induction h with
  | nil => exact Iff.rfl
  | item item hLeft hRight rest ih =>
      simp only [List.mem_cons, exists_eq_or_imp, trim_padded hLeft hRight, ih]
  | blank hFiller rest ih =>
      simp only [List.mem_cons, exists_eq_or_imp, trim_blank hFiller, hNonempty.symm, false_or, ih]

/-- The setting writes the items down, as a list or as a text with commas. -/
def Setting.Spells (items : List String) : Setting → Prop
  | .list listed => Padded items listed
  | .text written => ∃ listed, Padded items listed ∧ written = String.intercalate "," listed
  | _ => False

theorem setItems_parts {items : List String} (hCommas : ∀ item ∈ items, ',' ∉ item.toList) :
    setItems (parts ',' (String.intercalate "," items)) = setItems items := by
  by_cases hItems : items = []
  · subst hItems
    rfl
  · rw [parts_intercalate hCommas hItems]

/-- However its items are written down, a set option has the same value. -/
theorem OptionType.read?_of_spells {items : List String} {setting : Setting}
    (hCommas : ∀ item ∈ items, ',' ∉ item.toList) (hSetting : setting.Spells items)
    (default : List String) :
    (OptionType.set default).read? setting = some (.set (setItems items)) := by
  cases setting with
  | list listed => rw [read?, Padded.setItems_eq hSetting]
  | text written =>
      obtain ⟨listed, hListed, rfl⟩ := hSetting
      rw [read?, setItems_parts (hListed.no_commas hCommas), hListed.setItems_eq]
  | flag value => exact hSetting.elim
  | integer value => exact hSetting.elim

/-- The settings are the same up to how the sets of the given names are spelled. -/
def Settings.SpelledAlike (names : List String) (first second : Settings) : Prop :=
  ∀ name, first.get? name = second.get? name ∨ name ∈ names ∧ ∃ items spelling other,
    (∀ item ∈ items, ',' ∉ item.toList) ∧ first.get? name = some spelling ∧
      second.get? name = some other ∧ spelling.Spells items ∧ other.Spells items

/-- The rules of the linter take the given names for sets only. -/
def Linter.ReadsAsSets (linter : Linter) (names : List String) : Prop :=
  ∀ rule ∈ linter.rules, ∀ spec ∈ rule.options, spec.name ∈ names →
    ∃ default, spec.type = .set default

theorem OptionSpec.value_of_spelledAlike {spec : OptionSpec} {names : List String}
    {first second : Settings} (hSettings : Settings.SpelledAlike names first second)
    (hSpec : spec.name ∈ names → ∃ default, spec.type = .set default) :
    spec.value first = spec.value second := by
  rcases hSettings spec.name with hSame | ⟨hName, items, spelling, other, hCommas, hFirst, hSecond,
    hSpelling, hOther⟩
  · exact value_congr hSame
  · obtain ⟨default, hType⟩ := hSpec hName
    simp only [value, hFirst, hSecond, hType, OptionType.read?_of_spells hCommas hSpelling default,
      OptionType.read?_of_spells hCommas hOther default]

/-- The same linter under other settings. -/
def Linter.withSettings (linter : Linter) (settings : Settings) : Linter :=
  { linter with config := { linter.config with settings } }

theorem Linter.run_of_spelledAlike {linter : Linter} {names : List String} {settings : Settings}
    (hSets : linter.ReadsAsSets names)
    (hSettings : Settings.SpelledAlike names linter.config.settings settings) (file : SourceFile)
    (fixing : Bool) : (linter.withSettings settings).run file fixing = linter.run file fixing :=
  run_congr_of_value (fun rule hRule _ spec hSpec =>
    (OptionSpec.value_of_spelledAlike hSettings (hSets rule hRule spec hSpec)).symm) linter.workers
    file fixing

/-- The names of the set options of the built-in rules. -/
def setOptionNames : List String :=
  [aliasesSpec.name, previewMarkersSpec.name, contentEmittersSpec.name]

theorem BuiltIn.linter_readsAsSets (entries : List (BuiltIn × Severity)) (config : Config)
    (workers : Option Nat) : (linter entries config workers).ReadsAsSets setOptionNames := by
  intro rule hRule spec hSpec hName
  obtain ⟨⟨builtIn, severity⟩, -, rfl⟩ := List.mem_map.mp hRule
  have hShared : spec ∈ [visibilitySpec, aliasesSpec, previewMarkersSpec, contentEmittersSpec] := by
    cases builtIn with
    | handleDefault => exact List.mem_of_mem_take (i := 2) hSpec
    | handleMissing => exact hSpec
    | parameterOrder => exact List.mem_cons_of_mem _ (List.mem_of_mem_take (i := 1) hSpec)
  rcases List.mem_cons.mp hShared with rfl | hSets
  · exact absurd hName (by decide)
  · simp only [List.mem_cons, List.not_mem_nil, or_false] at hSets
    rcases hSets with rfl | rfl | rfl
    · exact ⟨_, rfl⟩
    · exact ⟨_, rfl⟩
    · exact ⟨_, rfl⟩

/-- A set that is written down as a list, or as a text with commas, has as its members the items
that are left when the blanks around them and the blank items are gone. Every text is read as the
list of its parts is. So a linter whose rules take options for sets does the same, whether or not it
fixes, however these options are spelled, and the linters of built-in rules are such linters. -/
theorem Linter.set_spellings_agree :
    (∀ items : List String, (∀ item ∈ items, ',' ∉ item.toList) →
      ∃ names : NameSet,
        (∀ name, name ∈ names ↔ name ≠ "" ∧ ∃ item ∈ items, trim item = name) ∧
        ∀ setting : Setting, setting.Spells items → ∀ default,
          (OptionType.set default).read? setting = some (.set names)) ∧
    (∀ (written : String) (default : List String),
      (OptionType.set default).read? (.text written) =
          (OptionType.set default).read? (.list (parts ',' written)) ∧
        (∀ part ∈ parts ',' written, ',' ∉ part.toList) ∧
        String.intercalate "," (parts ',' written) = written) ∧
    (∀ (linter : Linter) (names : List String) (settings : Settings),
      linter.ReadsAsSets names → Settings.SpelledAlike names linter.config.settings settings →
        ∀ file, (linter.withSettings settings).lint file = linter.lint file ∧
          (linter.withSettings settings).lintAndFix file = linter.lintAndFix file) ∧
    ∀ (entries : List (BuiltIn × Severity)) (config : Config) (workers : Option Nat),
      (BuiltIn.linter entries config workers).ReadsAsSets setOptionNames := by
  refine ⟨fun items hCommas => ⟨setItems items, fun name => mem_setItems,
      fun setting hSetting default => OptionType.read?_of_spells hCommas hSetting default⟩,
    fun written default => ⟨rfl, fun part hPart => not_mem_of_mem_parts hPart,
      intercalate_parts written⟩,
    fun linter names settings hSets hSettings file => ⟨?_, ?_⟩, BuiltIn.linter_readsAsSets⟩
  · rw [lint, run_of_spelledAlike hSets hSettings, lint]
  · exact run_of_spelledAlike hSets hSettings file true

namespace Padding

/-- Two names as a list with a blank item. -/
def listed : Settings :=
  NameMap.empty.insert aliasesSpec.name (.list ["Modifier ", "", " Style"])

/-- The same names as a text that starts and ends with a comma. -/
def written : Settings :=
  NameMap.empty.insert aliasesSpec.name (.text ",Modifier,\tStyle,")

def linter : Linter := BuiltIn.linter (BuiltIn.all.map (·, .warning)) { settings := listed } none

end Padding

/-- Fixes and reports do not depend on whether the aliases stand in the list or in the text. -/
theorem Linter.set_spellings_agree_padded :
    Padding.linter.ReadsAsSets setOptionNames ∧
      Settings.SpelledAlike setOptionNames Padding.listed Padding.written ∧
      ∀ file, (Padding.linter.withSettings Padding.written).lint file = Padding.linter.lint file ∧
        (Padding.linter.withSettings Padding.written).lintAndFix file =
          Padding.linter.lintAndFix file := by
  obtain ⟨-, -, hRuns, hBuiltIn⟩ := set_spellings_agree
  have hSets : Padding.linter.ReadsAsSets setOptionNames := hBuiltIn _ _ _
  have hNone : Blank "".toList := by decide
  have hSpace : Blank " ".toList := by decide
  have hTab : Blank "\t".toList := by decide
  have hList : Padded ["Modifier", "Style"] ["Modifier ", "", " Style"] :=
    .item "Modifier" hNone hSpace (.blank hNone (.item "Style" hSpace hNone .nil))
  have hText : Padded ["Modifier", "Style"] ["", "Modifier", "\tStyle", ""] :=
    .blank hNone (.item "Modifier" hNone hNone (.item "Style" hTab hNone (.blank hNone .nil)))
  have hAlike : Settings.SpelledAlike setOptionNames Padding.listed Padding.written := by
    intro name
    by_cases hName : name = aliasesSpec.name
    · subst hName
      exact .inr ⟨by decide, ["Modifier", "Style"], _, _, by decide, rfl, rfl, hList, _, hText,
        by decide⟩
    · left
      rw [Padding.listed, Padding.written, NameMap.get?_insert, NameMap.get?_insert, if_neg hName,
        if_neg hName]
  exact ⟨hSets, hAlike, hRuns Padding.linter setOptionNames Padding.written hSets hAlike⟩

end UiLint
