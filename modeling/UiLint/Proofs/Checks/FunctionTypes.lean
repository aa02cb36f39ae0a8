import UiLint.Proofs.Checks.PresetRun
import UiLint.Proofs.Declaration.TypeName

/-! Function types and the types that they mention. Types are recognized by what follows their last
dot, so a function type passes for the type that it mentions last if that one is qualified, and only
then. -/
namespace UiLint

open UiLint.Text HandleDefault

/-- A plain name, with or without a qualifier: it has neither blanks nor the signs that types are made
of, and it does not end in a dot. -/
structure IsDottedName (name : List Char) : Prop where
  solid : Solid name
  plain : '<' ∉ name ∧ '>' ∉ name ∧ '?' ∉ name
  closed : ∃ front c, name = front ++ [c] ∧ c ≠ '.'

/-- The simple name of a plain name is a base name. -/
theorem IsDottedName.isBaseName {name : String} (h : IsDottedName name.toList) :
    IsBaseName (simpleName name).toList ∧ '>' ∉ (simpleName name).toList := by
  obtain ⟨front, c, hName, hLast⟩ := h.closed
  have hTrimmed : trimmed name.toList = name.toList := by
    have hAll := trimmed_append [] [] (by simp [hName]) h.solid
    simpa [dropEndWhile] using hAll
  have hSubset : (simpleName name).toList ⊆ name.toList := by
    rw [toList_simpleName, hTrimmed]
    exact (List.rtakeWhile_suffix _ _).subset
  refine ⟨⟨⟨?_, ?_, fun c hc => h.solid c (hSubset hc)⟩, fun hc => h.plain.1 (hSubset hc),
    fun hc => h.plain.2.2 (hSubset hc)⟩, fun hc => h.plain.2.1 (hSubset hc)⟩
  · rw [toList_simpleName, hTrimmed, hName, afterLast_append (by simpa using hLast.symm)]
    simp
  · rw [toList_simpleName]
    exact not_mem_afterLast

/-- The sign of function types. -/
def arrow : List Char :=
  ['-', '>']

/-- The type is a function type at its top level: an arrow stands before any type arguments. -/
def IsFunctionType (typeName : String) : Prop :=
  arrow <:+: typeName.toList.takeWhile (· != '<')

instance (typeName : String) : Decidable (IsFunctionType typeName) :=
  inferInstanceAs (Decidable (arrow <:+: typeName.toList.takeWhile (· != '<')))

/-- An arrow is in the part of a text where it can end. -/
theorem arrow_infix_of_append {front back : List Char} (h : arrow <:+: front ++ back)
    (hBack : '>' ∉ back) : arrow <:+: front := by
  obtain ⟨before, after, hSplit⟩ := h
  rcases List.append_eq_append_iff.mp hSplit with ⟨rest, hFront, -⟩ | ⟨rest, hArrow, hRest⟩
  · exact ⟨before, rest, hFront.symm⟩
  · rcases List.eq_nil_or_concat rest with rfl | ⟨more, last, rfl⟩
    · exact ⟨before, [], by simpa using hArrow⟩
    · have hLast : '>' = last := by
        have hEnds := congrArg List.getLast? hArrow
        simpa [arrow] using hEnds
      exact absurd (by simp [hRest, ← hLast]) hBack

theorem IsTail.arrowless {tail : List Char} (h : IsTail tail) :
    '>' ∉ tail.takeWhile (· != '<') := by
  obtain ⟨blanks, rest, hBlanks, rfl, hRest⟩ := h
  rw [ParameterHeader.takeWhile_unbracketed (hBlanks.not_mem (by decide)), List.mem_append, not_or]
  refine ⟨hBlanks.not_mem (by decide), ?_⟩
  rcases hRest with rfl | ⟨more, hMore, rfl⟩ | ⟨more, rfl⟩
  · simp
  · intro hMember
    have hThere := (List.takeWhile_sublist _).subset hMember
    have hBlank : '>' ∈ more := by simpa using hThere
    exact hMore.not_mem (by decide) hBlank
  · simp

/-- The text behind its last dot, padding, a question mark and type arguments aside, is a name of the
styling handle; and there is an arrow before the dot. -/
def EndsInHandle (aliases : NameSet) (typeName : String) : Prop :=
  ∃ (front : List Char) (base : String) (tail : List Char),
    (base = stylingHandleName ∨ ∃ other ∈ aliases, simpleName other = base) ∧
    typeName.toList = front ++ '.' :: base.toList ++ tail ∧ arrow <:+: front ∧ '<' ∉ front ∧
    IsTail tail

/-- The text behind its last dot, padding aside, is `Unit`; and there is an arrow before the dot. -/
def EndsInUnit (typeName : String) : Prop :=
  ∃ front tail, typeName.toList = front ++ '.' :: "Unit".toList ++ tail ∧ arrow <:+: front ∧ Blank tail

/-- Where a name follows in which no arrow ends, the arrow is before the dot that is before the name. -/
theorem exists_dot_of_arrow {front back : List Char} (hArrow : arrow <:+: front ++ back)
    (hFront : IsLead front) (hBack : '>' ∉ back) :
    ∃ more, front = more ++ ['.'] ∧ arrow <:+: more := by
  have hBefore := arrow_infix_of_append hArrow hBack
  rcases hFront with hBlank | ⟨more, rfl⟩
  · have hMember : '>' ∈ front := hBefore.subset (by simp [arrow])
    exact absurd hMember (hBlank.not_mem (by decide))
  · exact ⟨more, rfl, arrow_infix_of_append hBefore (by simp)⟩

theorem isStylingHandle_iff_endsInHandle {typeName : String} (hFunction : IsFunctionType typeName)
    {aliases : NameSet} (hAliases : ∀ other ∈ aliases, IsDottedName other.toList) (name : String) :
    (⟨name, typeName⟩ : ParameterHeader).isStylingHandle aliases = true ↔
      EndsInHandle aliases typeName := by
  have hNames : ∀ base, (base = stylingHandleName ∨ ∃ other ∈ aliases, simpleName other = base) →
      IsBaseName base.toList ∧ '>' ∉ base.toList := by
    rintro base (rfl | ⟨other, hOther, rfl⟩)
    · exact ⟨⟨⟨by decide, by decide, by decide⟩, by decide, by decide⟩, by decide⟩
    · exact (hAliases other hOther).isBaseName
  rw [ParameterHeader.isStylingHandle_iff]
  constructor
  · intro hHandle
    obtain ⟨hBase, hArrowless⟩ := hNames _ hHandle
    obtain ⟨front, tail, hType, hFront, hUnbracketed, hTail⟩ :=
      (ParameterHeader.simpleTypeName_eq_iff hBase).mp rfl
    have hArrow := hFunction
    rw [IsFunctionType, hType, List.append_assoc,
      ParameterHeader.takeWhile_unbracketed hUnbracketed,
      ParameterHeader.takeWhile_unbracketed hBase.unbracketed] at hArrow
    obtain ⟨more, rfl, hBefore⟩ := exists_dot_of_arrow hArrow hFront (by
      rw [List.mem_append, not_or]
      exact ⟨hArrowless, hTail.arrowless⟩)
    refine ⟨more, _, tail, hHandle, ?_, hBefore, ?_, hTail⟩
    · rw [hType]
      simp
    · exact fun hMember => hUnbracketed (List.mem_append_left _ hMember)
  · rintro ⟨front, base, tail, hHandle, hType, -, hUnbracketed, hTail⟩
    have hSimple : (⟨name, typeName⟩ : ParameterHeader).simpleTypeName = base := by
      refine (ParameterHeader.simpleTypeName_eq_iff (hNames base hHandle).1).mpr
        ⟨front ++ ['.'], tail, ?_, .inr ⟨front, rfl⟩, ?_, hTail⟩
      · rw [hType]
        simp
      · simpa using hUnbracketed
    rwa [hSimple]

theorem returnsUnit_iff_endsInUnit {typeName : String} (hFunction : IsFunctionType typeName)
    {header : FunctionHeader} (hReturns : header.returnType = some typeName) :
    header.returnsUnit = true ↔ EndsInUnit typeName := by
  have hUnit : IsPart "Unit".toList := ⟨by decide, by decide, by decide⟩
  rw [FunctionHeader.returnsUnit, hReturns]
  simp only [beq_iff_eq]
  rw [simpleName_eq_iff hUnit]
  constructor
  · rintro ⟨front, tail, hType, hFront, hTail⟩
    have hArrow : arrow <:+: typeName.toList := hFunction.trans (List.takeWhile_prefix _).isInfix
    rw [hType, List.append_assoc] at hArrow
    obtain ⟨more, rfl, hBefore⟩ := exists_dot_of_arrow hArrow hFront (by
      rw [List.mem_append, not_or]
      exact ⟨by decide, hTail.not_mem (by decide)⟩)
    exact ⟨more, tail, by rw [hType]; simp, hBefore, hTail⟩
  · rintro ⟨front, tail, hType, -, hTail⟩
    exact ⟨front ++ ['.'], tail, by rw [hType]; simp, .inr ⟨front, rfl⟩, hTail⟩

theorem isStylingHandle_of_gains {settings : HandleDefault.Settings} {root parameter : Node}
    {place : Path} {header : ParameterHeader} (hGains : Gains (some settings) root place)
    (hParameter : root.descendant? place = some parameter)
    (hPayload : parameter.payload = .parameter header) :
    header.isStylingHandle settings.aliases = true := by
  obtain ⟨found, hFound, path, function, _, i, j, list, other, hInspects, hLacks, rfl⟩ := hGains
  cases hFound
  rw [Node.descendant?_append, hInspects.found, Option.bind_some, hLacks.descendant?] at hParameter
  cases hParameter
  obtain ⟨declared, hDeclared, hHandle⟩ := hLacks.handle
  cases hPayload.symm.trans hDeclared
  exact hHandle

/-- A run that fixes gives no default value to a parameter of a function type that does not end in a
handle. -/
theorem lintAndFix_spares_functionType {typeName : String} (hFunction : IsFunctionType typeName)
    {events : List Event} {tree : SourceTree} (hTree : SourceTree.ofEvents events = .ok tree)
    {preset : Preset} {config : Config} {rules : List ActiveRule}
    (hRules : (preset.linter config).start = .ok rules)
    (hFits : (completed (settingsIn? config) tree.root).text.utf8ByteSize < distanceBound)
    (hPlain : ∀ settings, settingsIn? config = some settings →
      (∀ other ∈ settings.aliases, IsDottedName other.toList) ∧
        ¬ EndsInHandle settings.aliases typeName)
    {place : Path} {parameter : Node} {name : String}
    (hParameter : tree.root.descendant? place = some parameter)
    (hPayload : parameter.payload = .parameter ⟨name, typeName⟩) :
    ∃ after, (runRules rules tree true).tree.root.descendant? place = some after ∧
      after.children.length = parameter.children.length := by
  obtain ⟨hCanonical, hFile⟩ := SourceTree.canonical_of_ofEvents hTree
  have hEnd := BuiltIn.root_runRules (Preset.startFrom_entries hRules) hCanonical hFile (by
    rw [preset.settingsIn?_entries]
    exact hFits)
  rw [preset.settingsIn?_entries] at hEnd
  have hNone : ¬ Gains (settingsIn? config) tree.root place := by
    intro hGains
    cases hSettings : settingsIn? config with
    | none =>
        obtain ⟨settings, hSome, -⟩ := hGains
        cases hSettings.symm.trans hSome
    | some settings =>
        obtain ⟨hAliases, hNot⟩ := hPlain settings hSettings
        rw [hSettings] at hGains
        exact hNot ((isStylingHandle_iff_endsInHandle hFunction hAliases name).mp
          (isStylingHandle_of_gains hGains hParameter hPayload))
  rw [hEnd]
  obtain ⟨after, hAfter, -, -, hLength⟩ := descendant?_completed hCanonical.wellFormed hParameter
  rw [if_neg hNone, Nat.add_zero] at hLength
  exact ⟨after, hAfter, hLength⟩

/-- A function type is taken for the type that it mentions last exactly if that type is written with a
qualifier: then a parameter of the function type counts as a styling handle, and a function that
returns it as one that returns nothing. Under plain aliases, runs that fix give a default value to no
other parameter of a function type. -/
theorem functionType_mistaken_iff {typeName : String} (hFunction : IsFunctionType typeName) :
    (∀ aliases : NameSet, (∀ other ∈ aliases, IsDottedName other.toList) → ∀ name,
      (⟨name, typeName⟩ : ParameterHeader).isStylingHandle aliases = true ↔
        EndsInHandle aliases typeName) ∧
    (∀ header : FunctionHeader, header.returnType = some typeName →
      (header.returnsUnit = true ↔ EndsInUnit typeName)) ∧
    ∀ (events : List Event) (tree : SourceTree) (preset : Preset) (config : Config)
      (rules : List ActiveRule) (path : String), SourceTree.ofEvents events = .ok tree →
      (preset.linter config).start = .ok rules →
      (completed (settingsIn? config) tree.root).text.utf8ByteSize < distanceBound →
      (∀ settings, settingsIn? config = some settings →
        (∀ other ∈ settings.aliases, IsDottedName other.toList) ∧
          ¬ EndsInHandle settings.aliases typeName) →
      ∃ fixed, (preset.linter config).lintAndFix ⟨path, tree⟩ = .ok fixed ∧
        ∀ place parameter name, tree.root.descendant? place = some parameter →
          parameter.payload = .parameter ⟨name, typeName⟩ →
          ∃ after, fixed.tree.root.descendant? place = some after ∧
            after.children.length = parameter.children.length :=
  ⟨fun _ hAliases => isStylingHandle_iff_endsInHandle hFunction hAliases,
    fun _ => returnsUnit_iff_endsInUnit hFunction,
    fun _ tree _ _ _ path hTree hRules hFits hPlain =>
      ⟨_, Linter.run_eq_ok hRules ⟨path, tree⟩ true, fun _ _ _ =>
        lintAndFix_spares_functionType hFunction hTree hRules hFits hPlain⟩⟩

namespace Lambdas

/-- The events of `fun Card(style: ...)` with a parameter of the given type. -/
def events (typeName : String) : List Event :=
  [.start .file (.file {}),
    .start .functionDeclaration (.function { name := "Card", annotations := [⟨"Composable", []⟩] }),
    .token "fun Card", .start .parameterList .plain, .token "(",
    .start .parameter (.parameter ⟨"style", typeName⟩), .token ("style: " ++ typeName), .finish,
    .token ")", .finish, .finish, .finish]

end Lambdas

/-- Dots before the arrow do no harm. The parameter still consists of its one token after the run. -/
theorem functionType_mistaken_iff_receiver :
    IsFunctionType "a.Scope.(b.Int?) -> Modifier" ∧
      ¬ EndsInHandle (.ofList ["Modifier"]) "a.Scope.(b.Int?) -> Modifier" ∧
      ∃ tree fixed after,
        SourceTree.ofEvents (Lambdas.events "a.Scope.(b.Int?) -> Modifier") = .ok tree ∧
        (Preset.minimal.linter {}).lintAndFix ⟨"Card", tree⟩ = .ok fixed ∧
        fixed.tree.root.descendant? [0, 1, 1] = some after ∧ after.children.length = 1 := by
  have hFunction : IsFunctionType "a.Scope.(b.Int?) -> Modifier" := by decide +kernel
  have hPlain : ∀ other ∈ NameSet.ofList ["Modifier"], IsDottedName other.toList := by
    intro other hOther
    obtain rfl := List.mem_singleton.mp (NameSet.mem_ofList.mp hOther)
    exact ⟨by decide, by decide, "Modifie".toList, 'r', by decide, by decide⟩
  obtain ⟨hHandle, -, hFix⟩ := functionType_mistaken_iff hFunction
  have hNot : ¬ EndsInHandle (.ofList ["Modifier"]) "a.Scope.(b.Int?) -> Modifier" := by
    rw [← hHandle _ hPlain "style"]
    decide +kernel
  have hTree : SourceTree.ofEvents (Lambdas.events "a.Scope.(b.Int?) -> Modifier") = .ok _ := rfl
  obtain ⟨fixed, hFixed, hKept⟩ := hFix _ _ .minimal {} _ "Card" hTree rfl (by decide +kernel) (by
    intro settings hSettings
    cases hSettings
    exact ⟨hPlain, hNot⟩)
  obtain ⟨after, hAfter, hLength⟩ := hKept [0, 1, 1] _ "style" rfl rfl
  exact ⟨hFunction, hNot, _, fixed, after, hTree, hFixed, hAfter, hLength⟩

/-- A function type that ends in a qualified name: the lambda parameter counts as a styling handle, the
fix gives it the empty handle for a default value, and a function that returns a lambda counts as one
that returns nothing. -/
theorem functionType_mistaken_qualified :
    IsFunctionType "() -> androidx.compose.ui.Modifier" ∧
      (⟨"style", "() -> androidx.compose.ui.Modifier"⟩ : ParameterHeader).isStylingHandle
        NameSet.empty = true ∧
      (∃ tree fixed,
        SourceTree.ofEvents (Lambdas.events "() -> androidx.compose.ui.Modifier") = .ok tree ∧
        (Preset.minimal.linter {}).lintAndFix ⟨"Card", tree⟩ = .ok fixed ∧
        fixed.source = "fun Card(style: () -> androidx.compose.ui.Modifier = Modifier)") ∧
      IsFunctionType "() -> kotlin.Unit" ∧
      ({ name := "f", returnType := some "() -> kotlin.Unit" } : FunctionHeader).returnsUnit = true := by
  have hTree : SourceTree.ofEvents (Lambdas.events "() -> androidx.compose.ui.Modifier") = .ok _ := rfl
  exact ⟨by decide +kernel, by decide +kernel,
    ⟨_, _, hTree, Linter.run_eq_ok rfl ⟨"Card", _⟩ true, by decide +kernel⟩, by decide +kernel,
    by decide +kernel⟩

end UiLint
