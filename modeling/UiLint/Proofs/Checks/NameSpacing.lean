import Mathlib.Data.List.Forall2
import UiLint.Checks.ContentEmitters
import UiLint.Engine.Run
import UiLint.Proofs.Declaration.TypeName
import UiLint.Proofs.Text.NameSpacing

/-! Spaces in the names that checks compare: those of marks, callees, aliases, markers and types. All
of them are compared by their simple names. So spaces around their dots make no difference, except for
those between the last dot and what follows it. -/
namespace UiLint

open UiLint.Text

/-- The marks have the same arguments, and the same name but for spaces around its dots. -/
structure AnnotationEntry.Respaced (first second : AnnotationEntry) : Prop where
  name : Text.Respaced first.name second.name
  arguments : first.arguments = second.arguments

/-- The functions have the same marks and the same return type but for spaces around the dots. -/
structure FunctionHeader.Respaced (first second : FunctionHeader) : Prop where
  annotations : List.Forall₂ AnnotationEntry.Respaced first.annotations second.annotations
  returnType : Option.Rel Text.Respaced first.returnType second.returnType

/-- The parameters have the same type but for spaces around the dots in its name; type arguments and
nullability may differ. -/
def ParameterHeader.Respaced (first second : ParameterHeader) : Prop :=
  Text.Respaced (String.ofList (typeCore first.typeName.toList))
    (String.ofList (typeCore second.typeName.toList))

/-- The calls are the same but for spaces around the dots of the callee. -/
structure CallHeader.Respaced (first second : CallHeader) : Prop where
  callee : Text.Respaced first.callee second.callee
  arguments : first.arguments = second.arguments
  trailingLambda : first.trailingLambda = second.trailingLambda

/-- Each of the sets has every name of the other, but for spaces around its dots. -/
structure NameSet.Respaced (first second : NameSet) : Prop where
  forth : ∀ name ∈ first, ∃ other ∈ second, Text.Respaced name other
  back : ∀ other ∈ second, ∃ name ∈ first, Text.Respaced name other

/-- Sets of names are searched by simple names. -/
theorem NameSet.Respaced.any_eq {first second : NameSet} (h : first.Respaced second)
    (test : String → Bool) :
    (first.names.any fun name => test (simpleName name)) =
      second.names.any fun name => test (simpleName name) := by
  rw [Bool.eq_iff_iff, List.any_eq_true, List.any_eq_true]
  constructor
  · rintro ⟨name, hName, hTest⟩
    obtain ⟨other, hOther, hSpaces⟩ := h.forth name hName
    exact ⟨other, hOther, by rwa [← hSpaces.simpleName_eq]⟩
  · rintro ⟨other, hOther, hTest⟩
    obtain ⟨name, hName, hSpaces⟩ := h.back other hOther
    exact ⟨name, hName, by rwa [hSpaces.simpleName_eq]⟩

theorem AnnotationEntry.Respaced.simpleName_eq {first second : AnnotationEntry}
    (h : first.Respaced second) : first.simpleName = second.simpleName :=
  h.name.simpleName_eq

theorem AnnotationEntry.Respaced.isPreview_eq {first second : AnnotationEntry}
    (h : first.Respaced second) {markers others : NameSet} (hMarkers : markers.Respaced others) :
    first.isPreview markers = second.isPreview others := by
  rw [AnnotationEntry.isPreview, AnnotationEntry.isPreview, h.simpleName_eq]
  exact hMarkers.any_eq fun marker => !marker.toList.isEmpty &&
    (marker.toList.isPrefixOf second.simpleName.toList ||
      marker.toList.isSuffixOf second.simpleName.toList)

section Marks

variable {entries others : List AnnotationEntry}
  (h : List.Forall₂ AnnotationEntry.Respaced entries others)
include h

theorem findMark?_respaced {mark other : String} (hMark : Text.Respaced mark other) :
    Option.Rel AnnotationEntry.Respaced (findMark? entries mark) (findMark? others other) := by
  induction h with
  | nil => exact .none
  | cons hFirst _ ih =>
      simp only [findMark?, List.find?_cons, hFirst.simpleName_eq, hMark.simpleName_eq] at ih ⊢
      split
      · exact .some hFirst
      · exact ih

theorem suppressedBy_respaced : suppressedBy entries = suppressedBy others := by
  induction h with
  | nil => rfl
  | cons hFirst _ ih =>
      simp only [suppressedBy, List.filter_cons, hFirst.simpleName_eq] at ih ⊢
      split
      · rw [List.flatMap_cons, List.flatMap_cons, hFirst.arguments, ih]
      · exact ih

theorem any_isPreview_respaced {markers spelled : NameSet} (hMarkers : markers.Respaced spelled) :
    entries.any (·.isPreview markers) = others.any (·.isPreview spelled) := by
  induction h with
  | nil => rfl
  | cons hFirst _ ih => rw [List.any_cons, List.any_cons, hFirst.isPreview_eq hMarkers, ih]

end Marks

namespace FunctionHeader.Respaced

variable {first second : FunctionHeader} (h : first.Respaced second)
include h

theorem isMarked_eq {mark other : String} (hMark : Text.Respaced mark other) :
    first.isMarked mark = second.isMarked other := by
  have hFound := findMark?_respaced h.annotations hMark
  rw [isMarked, isMarked]
  generalize findMark? first.annotations mark = found, findMark? second.annotations other = same
    at hFound ⊢
  cases hFound <;> rfl

theorem returnsUnit_eq : first.returnsUnit = second.returnsUnit := by
  have hReturns := h.returnType
  rw [returnsUnit, returnsUnit]
  generalize first.returnType = returned, second.returnType = same at hReturns ⊢
  cases hReturns with
  | none => rfl
  | some hType => simp only [hType.simpleName_eq]

theorem isPreview_eq {markers others : NameSet} (hMarkers : markers.Respaced others) :
    first.isPreview markers = second.isPreview others :=
  any_isPreview_respaced h.annotations hMarkers

end FunctionHeader.Respaced

theorem ParameterHeader.Respaced.isStylingHandle_eq {first second : ParameterHeader}
    (h : first.Respaced second) {aliases others : NameSet} (hAliases : aliases.Respaced others) :
    first.isStylingHandle aliases = second.isStylingHandle others := by
  have hType : first.simpleTypeName = second.simpleTypeName := h.simpleName_eq
  rw [isStylingHandle, isStylingHandle, hType, hAliases.any_eq (· == second.simpleTypeName)]

theorem CallHeader.Respaced.emits_eq {first second : CallHeader} (h : first.Respaced second)
    {extra others : NameSet} (hExtra : extra.Respaced others) :
    (⟨extra⟩ : ContentEmitters).emits first = (⟨others⟩ : ContentEmitters).emits second := by
  have hCallee : first.simpleCallee = second.simpleCallee := h.callee.simpleName_eq
  simp only [ContentEmitters.emits, hCallee, h.arguments, h.trailingLambda,
    hExtra.any_eq (· == second.simpleCallee)]

/-- A simple name has no dots and no blanks at its end. It is trimmed, and its own simple name, exactly
if the name has no blanks between its last dot and what follows it; and names that are the same but for
spaces around their dots have the same simple name exactly if they have the same blanks there. So of
all spaces around dots only those decide how marks, functions, parameters and calls compare, with one
another and with names that are trimmed. -/
theorem simpleName_normal_form_iff (name : String) :
    '.' ∉ (simpleName name).toList ∧
    (∀ c ∈ (simpleName name).toList.getLast?, isBlank c = false) ∧
    (IsTrim (simpleName name).toList ↔ dotGap name.toList = []) ∧
    (simpleName (simpleName name) = simpleName name ↔ dotGap name.toList = []) ∧
    (∀ other : String, nameParts name.toList = nameParts other.toList →
      (simpleName name = simpleName other ↔ dotGap name.toList = dotGap other.toList)) ∧
    (∀ base : String, IsTrim base.toList →
      (simpleName name = base ↔ dotGap name.toList = [] ∧ lastPart name.toList = base.toList)) ∧
    (∀ entries others : List AnnotationEntry,
      List.Forall₂ AnnotationEntry.Respaced entries others →
      suppressedBy entries = suppressedBy others ∧
      ∀ mark spelled : String, Text.Respaced mark spelled →
        Option.Rel AnnotationEntry.Respaced (findMark? entries mark) (findMark? others spelled)) ∧
    (∀ first second : FunctionHeader, first.Respaced second →
      first.isComposable = second.isComposable ∧ first.returnsUnit = second.returnsUnit ∧
      ∀ markers spelled : NameSet, markers.Respaced spelled →
        first.isPreview markers = second.isPreview spelled) ∧
    (∀ first second : ParameterHeader, first.Respaced second →
      ∀ aliases spelled : NameSet, aliases.Respaced spelled →
        first.isStylingHandle aliases = second.isStylingHandle spelled) ∧
    ∀ first second : CallHeader, first.Respaced second →
      ∀ extra spelled : NameSet, extra.Respaced spelled →
        (⟨extra⟩ : ContentEmitters).emits first = (⟨spelled⟩ : ContentEmitters).emits second := by
  refine ⟨not_mem_simpleName name, last_simpleName name, isTrim_simpleName_iff name,
    simpleName_simpleName_eq_iff name, fun other hParts => ?_, fun _ => simpleName_eq_iff_of_isTrim,
    fun _ _ h => ⟨suppressedBy_respaced h, fun _ _ => findMark?_respaced h⟩,
    fun _ _ h => ⟨h.isMarked_eq ⟨rfl, rfl⟩, h.returnsUnit_eq, fun _ _ => h.isPreview_eq⟩,
    fun _ _ h _ _ => h.isStylingHandle_eq, fun _ _ h _ _ => h.emits_eq⟩
  rw [simpleName_eq_simpleName_iff, and_iff_left (lastPart_of_nameParts hParts)]

namespace Spaced

/-- A function with spaces before the dots and at the ends of its names. -/
def function : FunctionHeader where
  name := "Card"
  annotations := [⟨" androidx . compose .Composable", []⟩, ⟨"kotlin .Suppress ", ["rule"]⟩]
  returnType := some "kotlin .Unit "

/-- The function without those spaces. -/
def dense : FunctionHeader where
  name := "Card"
  annotations := [⟨"androidx.compose.Composable", []⟩, ⟨"kotlin.Suppress", ["rule"]⟩]
  returnType := some "kotlin.Unit"

end Spaced

/-- Spaces before the dots and at the ends do no harm. -/
theorem simpleName_normal_form_iff_spaced :
    Spaced.function.Respaced Spaced.dense ∧
      nameParts " androidx . ui .Modifier".toList = nameParts "androidx.ui.Modifier".toList ∧
      simpleName " androidx . ui .Modifier" = simpleName "androidx.ui.Modifier" ∧
      (⟨"style", " androidx . ui .Modifier"⟩ : ParameterHeader).isStylingHandle .empty =
        (⟨"style", "androidx.ui.Modifier<T>?"⟩ : ParameterHeader).isStylingHandle .empty ∧
      Spaced.function.isComposable = Spaced.dense.isComposable ∧
      Spaced.function.returnsUnit = Spaced.dense.returnsUnit ∧
      suppressedBy Spaced.function.annotations = suppressedBy Spaced.dense.annotations := by
  have hFunction : Spaced.function.Respaced Spaced.dense :=
    ⟨.cons ⟨by decide +kernel, rfl⟩ (.cons ⟨by decide +kernel, rfl⟩ .nil), .some (by decide +kernel)⟩
  have hParts : nameParts " androidx . ui .Modifier".toList = nameParts "androidx.ui.Modifier".toList := by
    decide +kernel
  have hType : (⟨"style", " androidx . ui .Modifier"⟩ : ParameterHeader).Respaced
      ⟨"style", "androidx.ui.Modifier<T>?"⟩ := ⟨by decide +kernel, by decide +kernel⟩
  obtain ⟨-, -, -, -, hSame, -, hMarks, hFunctions, hParameters, -⟩ :=
    simpleName_normal_form_iff " androidx . ui .Modifier"
  obtain ⟨hComposable, hReturns, -⟩ := hFunctions _ _ hFunction
  exact ⟨hFunction, hParts, (hSame _ hParts).mpr (by decide +kernel),
    hParameters _ _ hType .empty .empty ⟨nofun, nofun⟩, hComposable, hReturns,
    (hMarks _ _ hFunction.annotations).1⟩

/-- A space behind the last dot stays in the simple name. A function with the mark so written is not
found to have it, not even by the simple name of that mark, and a parameter with the type so written
is no styling handle. -/
theorem simpleName_keeps_space :
    simpleName "androidx. Composable" = " Composable" ∧
      simpleName (simpleName "androidx. Composable") = "Composable" ∧
      nameParts "androidx. Composable".toList = nameParts "androidx.Composable".toList ∧
      ({ annotations := [⟨"androidx.Composable", []⟩] } : FunctionHeader).isComposable = true ∧
      ({ annotations := [⟨"androidx. Composable", []⟩] } : FunctionHeader).isComposable = false ∧
      ({ annotations := [⟨"androidx. Composable", []⟩] } : FunctionHeader).isMarked
        (simpleName "androidx. Composable") = false ∧
      (⟨"style", "androidx.ui.Modifier"⟩ : ParameterHeader).isStylingHandle .empty = true ∧
      (⟨"style", "androidx.ui. Modifier"⟩ : ParameterHeader).isStylingHandle .empty = false := by
  decide +kernel

end UiLint
