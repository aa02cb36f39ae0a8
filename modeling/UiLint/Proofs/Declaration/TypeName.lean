import UiLint.Declaration.Header
import UiLint.Proofs.Text.SimpleName

/-! Which type a parameter is taken to have, told from its text. The simple name of a type is
recognized however the type is qualified, padded, given arguments or made nullable; so a styling
handle is recognized by its base name alone. -/
namespace UiLint

open UiLint.Text

/-- The name of a type by itself: part of a name, and without signs of type arguments or nullability. -/
structure IsBaseName (base : List Char) : Prop extends IsPart base where
  unbracketed : '<' ∉ base
  unmarked : '?' ∉ base

/-- What may stand behind the name of a type: blanks, and after them a question mark or arguments. -/
def IsTail (cs : List Char) : Prop :=
  ∃ blanks rest, Blank blanks ∧ cs = blanks ++ rest ∧
    (rest = [] ∨ (∃ more, Blank more ∧ rest = '?' :: more) ∨ ∃ more, rest = '<' :: more)

theorem dropEnd_concat {α : Type} [BEq α] [LawfulBEq α] (item : α) (items : List α) :
    dropEnd item (items ++ [item]) = items := by
  simp [dropEnd]

theorem dropEnd_of_ne {α : Type} [BEq α] [LawfulBEq α] {item : α} {items : List α}
    (h : items.getLast? ≠ some item) : dropEnd item items = items := by
  rw [dropEnd, if_neg (by simpa using h)]

/-- What is dropped is the item, if anything is. -/
theorem exists_dropEnd {α : Type} [BEq α] [LawfulBEq α] (item : α) (items : List α) :
    ∃ back, (back = [] ∨ back = [item]) ∧ items = dropEnd item items ++ back := by
  by_cases hLast : items.getLast? = some item
  · obtain ⟨front, rfl⟩ := List.getLast?_eq_some_iff.mp hLast
    exact ⟨[item], .inr rfl, by rw [dropEnd_concat]⟩
  · exact ⟨[], .inl rfl, by rw [dropEnd_of_ne hLast, List.append_nil]⟩

theorem dropEnd_append_cons {α : Type} [BEq α] [LawfulBEq α] {item other : α} (hNe : other ≠ item)
    (front back : List α) :
    dropEnd item (front ++ other :: back) = front ++ other :: dropEnd item back := by
  rcases List.eq_nil_or_concat back with rfl | ⟨back, last, rfl⟩
  · rw [dropEnd_of_ne (by simpa using hNe), dropEnd_of_ne (by simp)]
  · by_cases hLast : last = item
    · rw [hLast, List.concat_eq_append, ← List.cons_append, ← List.append_assoc, dropEnd_concat,
        dropEnd_concat]
    · rw [dropEnd_of_ne (by simpa [List.getLast?_cons] using hLast),
        dropEnd_of_ne (by simpa using hLast)]

namespace ParameterHeader

/-- The text of a type up to its arguments, without the padding before it and a question mark. -/
def typeCore (typeName : List Char) : List Char :=
  (dropEnd '?' (trimmed typeName)).takeWhile (· != '<')

theorem simpleTypeName_eq (header : ParameterHeader) :
    header.simpleTypeName = simpleName (String.ofList (typeCore header.typeName.toList)) :=
  rfl

theorem takeWhile_unbracketed {cs : List Char} (h : '<' ∉ cs) (rest : List Char) :
    (cs ++ rest).takeWhile (· != '<') = cs ++ rest.takeWhile (· != '<') := by
  refine List.takeWhile_append_of_pos fun c hc => ?_
  have hNe : c ≠ '<' := fun hSame => h (hSame ▸ hc)
  simpa using hNe

/-- The core of a type reaches from its name to the blanks behind it. -/
theorem exists_typeCore {front base tail : List Char} (hBase : IsBaseName base)
    (hFront : '<' ∉ front) (hTail : IsTail tail) :
    ∃ blanks, Blank blanks ∧
      typeCore (front ++ base ++ tail) = front.dropWhile isBlank ++ base ++ blanks := by
  have hStart : '<' ∉ front.dropWhile isBlank ++ base := by
    rw [List.mem_append, not_or]
    exact ⟨fun hMember => hFront (List.dropWhile_sublist _ |>.subset hMember), hBase.unbracketed⟩
  have hLast : (front.dropWhile isBlank ++ base).getLast? ≠ some '?' := by
    rw [List.getLast?_append_of_ne_nil _ hBase.nonempty]
    exact fun hMark => hBase.unmarked (List.mem_of_mem_getLast? hMark)
  obtain ⟨blanks, rest, hBlanks, rfl, hRest⟩ := hTail
  have hUnbracketed : '<' ∉ blanks := hBlanks.not_mem (by decide)
  rw [typeCore, trimmed_append _ _ hBase.nonempty hBase.solid]
  rcases hRest with rfl | ⟨more, hMore, rfl⟩ | ⟨more, rfl⟩
  · refine ⟨[], nofun, ?_⟩
    rw [List.append_nil, dropEndWhile_eq_nil hBlanks, List.append_nil, dropEnd_of_ne hLast]
    simpa using takeWhile_unbracketed hStart []
  · refine ⟨blanks, hBlanks, ?_⟩
    rw [List.append_cons, dropEndWhile_append_of_last (by simp; decide), dropEndWhile_eq_nil hMore,
      List.append_nil, ← List.append_assoc, dropEnd_concat, takeWhile_unbracketed hStart]
    simpa using takeWhile_unbracketed hUnbracketed []
  · refine ⟨blanks, hBlanks, ?_⟩
    rw [List.append_cons, dropEndWhile_append_of_last (by simp; decide), List.append_assoc blanks,
      List.singleton_append, ← List.append_assoc, dropEnd_append_cons (by decide), List.append_assoc,
      takeWhile_unbracketed hStart, takeWhile_unbracketed hUnbracketed]
    simp

/-- What was around the core of a type. -/
theorem exists_around_typeCore (typeName : List Char) :
    ∃ left tail, Blank left ∧ typeName = left ++ typeCore typeName ++ tail ∧
      ∀ blanks, Blank blanks → IsTail (blanks ++ tail) := by
  obtain ⟨left, right, hLeft, hRight, hTrimmed⟩ := exists_padding typeName
  obtain ⟨mark, hMark, hUnmarked⟩ := exists_dropEnd '?' (trimmed typeName)
  have hCore : dropEnd '?' (trimmed typeName) =
      typeCore typeName ++ (dropEnd '?' (trimmed typeName)).dropWhile (· != '<') :=
    List.takeWhile_append_dropWhile.symm
  rw [hUnmarked, hCore] at hTrimmed
  refine ⟨left, _, hLeft, by simpa only [List.append_assoc] using hTrimmed, fun blanks hBlanks => ?_⟩
  cases hRest : (dropEnd '?' (trimmed typeName)).dropWhile (· != '<') with
  | nil =>
      rcases hMark with rfl | rfl
      · exact ⟨blanks ++ right, [], hBlanks.append hRight, by simp, .inl rfl⟩
      · exact ⟨blanks, _, hBlanks, rfl, .inr (.inl ⟨right, hRight, rfl⟩)⟩
  | cons c more =>
      obtain rfl : c = '<' := by
        have hHead := List.head?_dropWhile_not (· != '<') (dropEnd '?' (trimmed typeName))
        simpa [hRest] using hHead
      exact ⟨blanks, _, hBlanks, rfl, .inr (.inr ⟨_, rfl⟩)⟩

/-- A base name is the simple name of a type exactly if the text of the type is the name with padding
or a qualifier before it, and with blanks, a question mark or type arguments behind it. -/
theorem simpleTypeName_eq_iff {header : ParameterHeader} {base : String}
    (hBase : IsBaseName base.toList) :
    header.simpleTypeName = base ↔ ∃ front tail,
      header.typeName.toList = front ++ base.toList ++ tail ∧ IsLead front ∧ '<' ∉ front ∧
        IsTail tail := by
  rw [simpleTypeName_eq, simpleName_eq_iff hBase.toIsPart, String.toList_ofList]
  constructor
  · rintro ⟨front, blanks, hCore, hFront, hBlanks⟩
    obtain ⟨left, tail, hLeft, hType, hTail⟩ := exists_around_typeCore header.typeName.toList
    have hUnbracketed : '<' ∉ typeCore header.typeName.toList := by
      intro hMember
      simpa using List.mem_takeWhile_imp hMember
    rw [hCore] at hType hUnbracketed
    refine ⟨left ++ front, blanks ++ tail, ?_, hFront.append_left hLeft, ?_, hTail blanks hBlanks⟩
    · rw [hType]
      simp
    · rw [List.mem_append, not_or]
      exact ⟨hLeft.not_mem (by decide), fun hMember => hUnbracketed (by simp [hMember])⟩
  · rintro ⟨front, tail, hType, hFront, hUnbracketed, hTail⟩
    obtain ⟨blanks, hBlanks, hCore⟩ := exists_typeCore hBase hUnbracketed hTail
    exact ⟨_, blanks, by rw [hType, hCore], hFront.dropWhile, hBlanks⟩

theorem isStylingHandle_iff {header : ParameterHeader} {aliases : NameSet} :
    header.isStylingHandle aliases = true ↔ header.simpleTypeName = stylingHandleName ∨
      ∃ other ∈ aliases, simpleName other = header.simpleTypeName := by
  simp [isStylingHandle, NameSet.mem_iff]

end ParameterHeader

/-- A way to write a type: its base name with an optional qualifier, optional type arguments and an
optional question mark, padded around all of it and before the question mark. -/
structure TypeSpelling where
  before : String
  qualifier : String
  base : String
  arguments : String
  mark : String
  after : String
  before_blank : Blank before.toList
  qualifier_dotted : qualifier = "" ∨ ∃ front, qualifier = front ++ "."
  qualifier_unbracketed : '<' ∉ qualifier.toList
  base_isBaseName : IsBaseName base.toList
  arguments_bracketed : arguments = "" ∨ ∃ inside, arguments = "<" ++ inside ++ ">"
  mark_padded : mark = "" ∨ ∃ blanks : String, Blank blanks.toList ∧ mark = blanks ++ "?"
  after_blank : Blank after.toList

namespace TypeSpelling

/-- The type as written. -/
def text (spelling : TypeSpelling) : String :=
  spelling.before ++ spelling.qualifier ++ spelling.base ++ spelling.arguments ++ spelling.mark ++
    spelling.after

theorem isLead (spelling : TypeSpelling) :
    IsLead (spelling.before.toList ++ spelling.qualifier.toList) := by
  refine IsLead.append_left ?_ spelling.before_blank
  rcases spelling.qualifier_dotted with hNone | ⟨front, hDotted⟩
  · rw [hNone]
    exact .inl nofun
  · rw [hDotted]
    exact .inr ⟨front.toList, by simp⟩

theorem isTail (spelling : TypeSpelling) :
    IsTail (spelling.arguments.toList ++ spelling.mark.toList ++ spelling.after.toList) := by
  rcases spelling.arguments_bracketed with hNone | ⟨inside, hArguments⟩
  · rcases spelling.mark_padded with hUnmarked | ⟨blanks, hBlanks, hMark⟩
    · exact ⟨spelling.after.toList, [], spelling.after_blank, by simp [hNone, hUnmarked], .inl rfl⟩
    · exact ⟨blanks.toList, _, hBlanks, by simp [hNone, hMark],
        .inr (.inl ⟨spelling.after.toList, spelling.after_blank, rfl⟩)⟩
  · refine ⟨[], '<' :: (inside.toList ++ '>' :: (spelling.mark.toList ++ spelling.after.toList)), nofun,
      ?_, .inr (.inr ⟨_, rfl⟩)⟩
    simp [hArguments]

theorem simpleTypeName_text (spelling : TypeSpelling) (name : String) :
    (⟨name, spelling.text⟩ : ParameterHeader).simpleTypeName = spelling.base := by
  refine (ParameterHeader.simpleTypeName_eq_iff spelling.base_isBaseName).mpr
    ⟨_, _, ?_, spelling.isLead, ?_, spelling.isTail⟩
  · simp [text]
  · rw [List.mem_append, not_or]
    exact ⟨spelling.before_blank.not_mem (by decide), spelling.qualifier_unbracketed⟩

end TypeSpelling

/-- However a type is spelled, its simple name is its base name. So a parameter is a styling handle
exactly if that is the name of the handle or the simple name of an alias, and the base name is the
simple name of just those aliases that consist of it, of padding, and of any qualifier. -/
theorem TypeSpelling.handle_recognized_by_base (spelling : TypeSpelling) (name : String)
    (aliases : NameSet) :
    (⟨name, spelling.text⟩ : ParameterHeader).simpleTypeName = spelling.base ∧
      ((⟨name, spelling.text⟩ : ParameterHeader).isStylingHandle aliases = true ↔
        spelling.base = "Modifier" ∨ ∃ other ∈ aliases, simpleName other = spelling.base) ∧
      ∀ other, simpleName other = spelling.base ↔ ∃ front tail,
        other.toList = front ++ spelling.base.toList ++ tail ∧ IsLead front ∧ Blank tail := by
  have hName := spelling.simpleTypeName_text name
  refine ⟨hName, ?_, fun other => simpleName_eq_iff spelling.base_isBaseName.toIsPart⟩
  rw [ParameterHeader.isStylingHandle_iff, hName]
  rfl

/-- A nullable alias with all that may be written around it. -/
def TypeSpelling.decorated : TypeSpelling where
  before := "\t "
  qualifier := "com . example?."
  base := "Handle"
  arguments := "<Map<a.B?, C>>"
  mark := "\u2003?"
  after := "\n"
  before_blank := by decide
  qualifier_dotted := .inr ⟨"com . example?", by decide⟩
  qualifier_unbracketed := by decide
  base_isBaseName := ⟨⟨by decide, by decide, by decide⟩, by decide, by decide⟩
  arguments_bracketed := .inr ⟨"Map<a.B?, C>", by decide⟩
  mark_padded := .inr ⟨"\u2003", by decide, by decide⟩
  after_blank := by decide

/-- The alias is configured with another qualifier and other padding. -/
theorem TypeSpelling.handle_recognized_by_base_decorated :
    TypeSpelling.decorated.text = "\t com . example?.Handle<Map<a.B?, C>>\u2003?\n" ∧
      (⟨"style", TypeSpelling.decorated.text⟩ : ParameterHeader).simpleTypeName = "Handle" ∧
      (⟨"style", TypeSpelling.decorated.text⟩ : ParameterHeader).isStylingHandle
        (NameSet.empty.insert " org.Handle\r") = true := by
  obtain ⟨hName, hHandle, hAlias⟩ := TypeSpelling.decorated.handle_recognized_by_base "style"
    (NameSet.empty.insert " org.Handle\r")
  refine ⟨by decide, hName, hHandle.mpr (.inr ⟨_, NameSet.mem_insert.mpr (.inl rfl), ?_⟩)⟩
  exact (hAlias _).mpr ⟨" org.".toList, ['\r'], by decide, .inr ⟨" org".toList, by decide⟩,
    by decide⟩

end UiLint
