import Mathlib.Data.List.Basic
import UiLint.Checks.HandleDefault
import UiLint.Proofs.Declaration.Conditions
import UiLint.Proofs.Engine.Edit
import UiLint.Proofs.Tree.Growth

/-! Which parameters the default-value rule is about, told from the file as a whole, and what
giving some of them a default value changes about that: only that they have one. -/
namespace UiLint

namespace HandleDefault

/-- The function at a path is one that the rule inspects: a UI function for which the rule is not
suppressed, whose signature is its own, that has a body, and that is visible enough. -/
structure Inspects (settings : Settings) (root : Node) (path : Path) (function : Node)
    (header : FunctionHeader) : Prop where
  found : root.descendant? path = some function
  payload : function.payload = .function header
  composable : ∃ mark ∈ header.annotations, mark.simpleName = "Composable"
  unsuppressed : ¬ root.Suppresses path rule.name
  outside : ¬ root.IsInInterface path
  common : "actual" ∉ header.modifiers
  original : "override" ∉ header.modifiers
  concrete : "abstract" ∉ header.modifiers
  visible : settings.scope.includes header.visibility = true

/-- The parameter at `[i, j]` below a function is a styling handle without a default value. The
parameters are those in the first parameter list. -/
structure Undefaulted (aliases : NameSet) (function : Node) (i j : Nat) (list parameter : Node) :
    Prop where
  listed : function.children[i]? = some list ∧ list.kind = .parameterList
  first : ∀ k other, k < i → function.children[k]? = some other → other.kind ≠ .parameterList
  found : list.children[j]? = some parameter
  handle : ∃ header, parameter.payload = .parameter header ∧ header.isStylingHandle aliases = true
  undefaulted : ∀ part ∈ parameter.children, part.kind ≠ .defaultValue

/-- The rule asks for a default value of the parameter at `place`, in its visit to the function
at `path`. -/
def Asks (settings : Settings) (root : Node) (path place : Path) : Prop :=
  ∃ function header i j list parameter, Inspects settings root path function header ∧
    Undefaulted settings.aliases function i j list parameter ∧ place = path ++ [i, j]

end HandleDefault

theorem Node.firstOfKind?_eq_some_iff {node child : Node} {kind : Kind} {index : Nat} :
    node.firstOfKind? kind = some (child, index) ↔
      node.children[index]? = some child ∧ child.kind = kind ∧
        ∀ k other, k < index → node.children[k]? = some other → other.kind ≠ kind := by
  rw [firstOfKind?, List.find?_eq_some_iff_getElem]
  constructor
  · rintro ⟨hKind, place, hPlace, hEntry, hBefore⟩
    rw [List.getElem_zipIdx, Prod.mk.injEq] at hEntry
    obtain ⟨rfl, hIndex⟩ := hEntry
    rw [Nat.zero_add] at hIndex
    subst hIndex
    refine ⟨List.getElem?_eq_getElem _, by simpa using hKind, fun k other hk hOther => ?_⟩
    have hSkipped := hBefore k hk
    obtain ⟨hLength, rfl⟩ := List.getElem?_eq_some_iff.mp hOther
    simpa [List.getElem_zipIdx] using hSkipped
  · rintro ⟨hChild, hKind, hBefore⟩
    obtain ⟨hLength, rfl⟩ := List.getElem?_eq_some_iff.mp hChild
    refine ⟨by simpa using hKind, index, by simpa using hLength, by simp, fun k hk => ?_⟩
    have hOther := hBefore k _ hk (List.getElem?_eq_getElem (Nat.lt_trans hk hLength))
    simpa [List.getElem_zipIdx] using hOther

theorem Node.hasDefault_eq_false_iff {node : Node} :
    node.hasDefault = false ↔ ∀ part ∈ node.children, part.kind ≠ .defaultValue := by
  rw [hasDefault, defaultPart?, firstOfKind?, Option.isSome_eq_false_iff, Option.isNone_iff_eq_none,
    List.find?_eq_none]
  constructor
  · intro hNone part hPart
    obtain ⟨index, hIndex⟩ := List.getElem?_of_mem hPart
    have hEntry : (part, index) ∈ node.children.zipIdx := List.mk_mem_zipIdx_iff_getElem?.mpr hIndex
    simpa using hNone _ hEntry
  · intro hParts entry hEntry
    simpa using hParts entry.1 (List.fst_mem_of_mem_zipIdx hEntry)

theorem Node.shape_defaultValue (expression : String) :
    (defaultValue expression).shape = defaultValue expression := rfl

/-- Giving a default value commutes with forgetting the layout. -/
theorem Node.shape_setDefault? (node : Node) (expression : String) :
    (node.setDefault? expression).map shape = node.shape.setDefault? expression := by
  have hFind : (node.children.map shape).findIdx? (·.kind == .defaultValue) =
      node.children.findIdx? (·.kind == .defaultValue) := by
    rw [List.findIdx?_map]
    simp [Function.comp_def]
  simp only [setDefault?, kind_shape, children_shape, hFind]
  split
  · split
    · rw [Option.map_some, shape_eq, List.map_set, shape_defaultValue]
      simp only [shape_eq node]
    · rw [Option.map_some, shape_eq, List.map_append]
      simp only [shape_eq node, List.map_cons, List.map_nil, shape_defaultValue]
  · rfl

theorem Node.mem_partsWith {Header : Type} {header? : Payload → Option Header} {node : Node}
    {part : Placed Header} :
    part ∈ node.partsWith header? ↔
      ∃ index, part.path = [index] ∧ node.children[index]? = some part.node ∧
        part.node.kind ≠ .token ∧ header? part.node.payload = some part.header := by
  rw [partsWith, List.mem_filterMap]
  constructor
  · rintro ⟨⟨child, index⟩, hEntry, hPart⟩
    obtain ⟨hMem, hKind⟩ := List.mem_filter.mp hEntry
    obtain ⟨header, hHeader, rfl⟩ := Option.map_eq_some_iff.mp hPart
    exact ⟨index, rfl, List.mk_mem_zipIdx_iff_getElem?.mp hMem, by simpa using hKind, hHeader⟩
  · rintro ⟨index, hPath, hChild, hKind, hHeader⟩
    refine ⟨(part.node, index), List.mem_filter.mpr ⟨?_, by simpa using hKind⟩, ?_⟩
    · exact List.mk_mem_zipIdx_iff_getElem?.mpr hChild
    · rw [hHeader, Option.map_some, ← hPath]

namespace HandleDefault

theorem Undefaulted.descendant? {aliases : NameSet} {function : Node} {i j : Nat}
    {list parameter : Node} (hLacks : Undefaulted aliases function i j list parameter) :
    function.descendant? [i, j] = some parameter := by
  rw [Node.descendant?_cons, hLacks.listed.1, Option.bind_some, Node.descendant?_cons, hLacks.found]
  rfl

theorem Undefaulted.kind_eq {aliases : NameSet} {function : Node} {i j : Nat}
    {list parameter : Node} (h : function.WellFormed)
    (hLacks : Undefaulted aliases function i j list parameter) : parameter.kind = .parameter := by
  obtain ⟨header, hPayload, -⟩ := hLacks.handle
  have hFits := (h.descendant hLacks.descendant?).fits
  rw [hPayload] at hFits
  simpa [Payload.fits] using hFits

/-- A function is not exempt exactly if it meets the conditions on where it is declared, its modifiers and
its visibility. -/
theorem isExempt_eq_false_iff {settings : Settings} {header : FunctionHeader} {root function : Node}
    {path : Path} (hFound : root.descendant? path = some function) :
    isExempt settings header ⟨root, path, function⟩ = false ↔
      ¬ root.IsInInterface path ∧ "actual" ∉ header.modifiers ∧ "override" ∉ header.modifiers ∧
        "abstract" ∉ header.modifiers ∧ settings.scope.includes header.visibility = true := by
  simp only [isExempt, Bool.or_eq_false_iff, Bool.not_eq_false', FunctionHeader.isActual,
    FunctionHeader.isOverride, FunctionHeader.isAbstract, and_assoc]
  simp only [Bool.eq_false_iff, ne_eq, Site.isInInterface_iff hFound, FunctionHeader.hasKeyword_iff]

/-- What the rule checks before it looks at parameters. -/
theorem inspects_iff {settings : Settings} {root function : Node} {path : Path}
    {header : FunctionHeader} :
    Inspects settings root path function header ↔
      root.descendant? path = some function ∧ function.payload = .function header ∧
        header.isComposable = true ∧ isExempt settings header ⟨root, path, function⟩ = false ∧
        rule.name ∉ root.suppressedAt path := by
  rw [FunctionHeader.isComposable_iff, Node.mem_suppressedAt]
  constructor
  · intro h
    exact ⟨h.found, h.payload, h.composable, (isExempt_eq_false_iff h.found).mpr
      ⟨h.outside, h.common, h.original, h.concrete, h.visible⟩, h.unsuppressed⟩
  · rintro ⟨hFound, hPayload, hMark, hExempt, hFree⟩
    obtain ⟨hOutside, hCommon, hOriginal, hConcrete, hVisible⟩ :=
      (isExempt_eq_false_iff hFound).mp hExempt
    exact ⟨hFound, hPayload, hMark, hFree, hOutside, hCommon, hOriginal, hConcrete, hVisible⟩

/-- Whether the rule inspects the function at a path. -/
def inspects (settings : Settings) (root : Node) (path : Path) (function : Node) : Bool :=
  (function.payload.functionHeader?.any fun header =>
    header.isComposable && !isExempt settings header ⟨root, path, function⟩) &&
      !(root.suppressedAt path).contains rule.name

/-- Whether the parameter at `[i, j]` below a function is a styling handle without default. -/
def undefaulted (aliases : NameSet) (function : Node) (i j : Nat) : Bool :=
  (function.firstOfKind? .parameterList).any fun entry =>
    entry.2 == i && entry.1.children[j]?.any fun parameter =>
      parameter.payload.parameterHeader?.any (·.isStylingHandle aliases) && !parameter.hasDefault

/-- Whether the rule asks for a default value of the parameter at a path. -/
def asksAt (settings : Settings) (root : Node) (place : Path) : Bool :=
  match place.reverse with
  | j :: i :: above =>
      (root.descendant? above.reverse).any fun function =>
        inspects settings root above.reverse function && undefaulted settings.aliases function i j
  | _ => false

theorem inspects_eq_true_iff {settings : Settings} {root function : Node} {path : Path}
    (hFound : root.descendant? path = some function) :
    inspects settings root path function = true ↔
      ∃ header, Inspects settings root path function header := by
  have hHeader : ∀ header, function.payload.functionHeader? = some header ↔
      function.payload = .function header := by
    cases function.payload <;> simp [Payload.functionHeader?]
  simp only [inspects, Bool.and_eq_true, Option.any_eq_true, hHeader, Bool.not_eq_true',
    List.contains_eq_mem, decide_eq_false_iff_not, inspects_iff, hFound, true_and]
  constructor
  · rintro ⟨⟨header, hPayload, hMark, hExempt⟩, hFree⟩
    exact ⟨header, hPayload, hMark, hExempt, hFree⟩
  · rintro ⟨header, hPayload, hMark, hExempt, hFree⟩
    exact ⟨⟨header, hPayload, hMark, hExempt⟩, hFree⟩

theorem undefaulted_eq_true_iff {aliases : NameSet} {function : Node} {i j : Nat} :
    undefaulted aliases function i j = true ↔
      ∃ list parameter, Undefaulted aliases function i j list parameter := by
  have hHeader : ∀ (parameter : Node) header, parameter.payload.parameterHeader? = some header ↔
      parameter.payload = .parameter header := by
    intro parameter
    cases parameter.payload <;> simp [Payload.parameterHeader?]
  simp only [undefaulted, Option.any_eq_true, Bool.and_eq_true, beq_iff_eq, hHeader,
    Bool.not_eq_true', Node.hasDefault_eq_false_iff]
  constructor
  · rintro ⟨⟨list, index⟩, hFirst, rfl, parameter, hFound, hHandle, hNone⟩
    obtain ⟨hList, hKind, hBefore⟩ := Node.firstOfKind?_eq_some_iff.mp hFirst
    exact ⟨list, parameter, ⟨hList, hKind⟩, hBefore, hFound, hHandle, hNone⟩
  · rintro ⟨list, parameter, ⟨hList, hKind⟩, hBefore, hFound, hHandle, hNone⟩
    exact ⟨(list, i), Node.firstOfKind?_eq_some_iff.mpr ⟨hList, hKind, hBefore⟩, rfl, parameter,
      hFound, hHandle, hNone⟩

theorem asksAt_eq_true_iff {settings : Settings} {root : Node} {place : Path} :
    asksAt settings root place = true ↔ ∃ path, Asks settings root path place := by
  unfold asksAt
  split
  · rename_i j i above hReverse
    have hPlace : place = above.reverse ++ [i, j] := by
      rw [← List.reverse_reverse place, hReverse]
      simp
    simp only [Option.any_eq_true, Bool.and_eq_true, undefaulted_eq_true_iff]
    constructor
    · rintro ⟨function, hFound, hInspects, list, parameter, hLacks⟩
      obtain ⟨header, hInspects⟩ := (inspects_eq_true_iff hFound).mp hInspects
      exact ⟨above.reverse, function, header, i, j, list, parameter, hInspects, hLacks, hPlace⟩
    · rintro ⟨path, function, header, i', j', list, parameter, hInspects, hLacks, hSame⟩
      rw [hPlace] at hSame
      obtain ⟨rfl, hEnd⟩ := List.append_inj' hSame rfl
      obtain ⟨rfl, rfl⟩ : i = i' ∧ j = j' := by simpa using hEnd
      exact ⟨function, hInspects.found,
        (inspects_eq_true_iff hInspects.found).mpr ⟨header, hInspects⟩, list, parameter, hLacks⟩
  · rename_i hShort
    constructor
    · intro h
      cases h
    · rintro ⟨path, function, header, i, j, list, parameter, -, -, rfl⟩
      exact absurd (by simp) (hShort j i path.reverse)

/-- The parameter at a path is to be given a default value: the rule is at work, with the given
settings, and asks for it. -/
def Gains (settings? : Option Settings) (root : Node) (place : Path) : Prop :=
  ∃ settings, settings? = some settings ∧ ∃ path, Asks settings root path place

instance (settings? : Option Settings) (root : Node) (place : Path) :
    Decidable (Gains settings? root place) :=
  decidable_of_iff (settings?.any (asksAt · root place) = true) (by
    simp only [Gains, Option.any_eq_true, asksAt_eq_true_iff])

/-- What gains a default value is a parameter. -/
theorem kind_of_gains {settings? : Option Settings} {root below : Node} {place : Path}
    (h : root.WellFormed) (hGains : Gains settings? root place)
    (hBelow : root.descendant? place = some below) : below.kind = .parameter := by
  obtain ⟨settings, -, path, function, header, i, j, list, parameter, hInspects, hLacks, rfl⟩ := hGains
  rw [Node.descendant?_append, hInspects.found, Option.bind_some, hLacks.descendant?,
    Option.some.injEq] at hBelow
  rw [← hBelow]
  exact hLacks.kind_eq (h.descendant hInspects.found)

/-- The rule finds exactly the handles that it asks to be given a default value. -/
theorem mem_missing_iff {settings : Settings} {function : Node} (h : function.WellFormed)
    {target : Path} :
    (∃ found ∈ missing settings function, found.path = target) ↔
      ∃ i j list parameter, Undefaulted settings.aliases function i j list parameter ∧
        target = [i, j] := by
  constructor
  · rintro ⟨found, hFound, rfl⟩
    obtain ⟨hMem, hWanted⟩ := List.mem_filter.mp hFound
    rw [Bool.and_eq_true, Bool.not_eq_true', Node.hasDefault_eq_false_iff] at hWanted
    rw [Node.parameters] at hMem
    split at hMem
    · cases hMem
    · rename_i list i hList
      obtain ⟨part, hPart, rfl⟩ := List.mem_map.mp hMem
      obtain ⟨j, hPath, hChild, -, hHeader⟩ := Node.mem_partsWith.mp hPart
      obtain ⟨hAt, hKind, hFirst⟩ := Node.firstOfKind?_eq_some_iff.mp hList
      refine ⟨i, j, list, part.node, ⟨⟨hAt, hKind⟩, hFirst, hChild, ⟨part.header, ?_, hWanted.1⟩,
        hWanted.2⟩, by rw [hPath]⟩
      cases hPayload : part.node.payload <;> simp_all [Payload.parameterHeader?]
  · rintro ⟨i, j, list, parameter, hLacks, rfl⟩
    obtain ⟨header, hPayload, hHandle⟩ := hLacks.handle
    have hWell := (h.parts list (List.mem_of_getElem? hLacks.listed.1)).parts parameter
      (List.mem_of_getElem? hLacks.found)
    have hKind : parameter.kind ≠ .token := by
      rw [Ne, hWell.kind_eq_token_iff, hPayload]
      simp
    refine ⟨⟨[i, j], parameter, header⟩, List.mem_filter.mpr ⟨?_, ?_⟩, rfl⟩
    · have hList : function.parameterList? = some (list, i) :=
        Node.firstOfKind?_eq_some_iff.mpr ⟨hLacks.listed.1, hLacks.listed.2, hLacks.first⟩
      rw [Node.parameters, hList]
      refine List.mem_map.mpr ⟨⟨[j], parameter, header⟩, Node.mem_partsWith.mpr ?_, rfl⟩
      exact ⟨j, rfl, hLacks.found, hKind, by rw [hPayload]; rfl⟩
    · rw [Bool.and_eq_true, Bool.not_eq_true', Node.hasDefault_eq_false_iff]
      exact ⟨hHandle, hLacks.undefaulted⟩

/-- What the rule appends to a parameter. -/
def emptyHandle : Node :=
  Node.defaultValue stylingHandleName

theorem wellFormed_emptyHandle : emptyHandle.WellFormed :=
  Node.wellFormed_defaultValue stylingHandleName

/-- A default value has no parts other than tokens. -/
theorem descendant?_emptyHandle {path : Path} {inner : Node}
    (hInner : emptyHandle.descendant? path = some inner) :
    inner = emptyHandle ∨ ∃ text, inner = Node.leaf text := by
  cases path with
  | nil => exact .inl (Option.some.inj hInner).symm
  | cons index path =>
      obtain ⟨child, hChild, hRest⟩ := Node.descendant?_cons_eq_some_iff.mp hInner
      have hLeaf : ∃ text, child = Node.leaf text := by
        have hMem := List.mem_of_getElem? hChild
        simp only [emptyHandle, Node.defaultValue, List.mem_cons, List.not_mem_nil, or_false] at hMem
        rcases hMem with rfl | rfl | rfl | rfl <;> exact ⟨_, rfl⟩
      obtain ⟨text, rfl⟩ := hLeaf
      cases path with
      | nil => exact .inr ⟨text, (Option.some.inj hRest).symm⟩
      | cons next path => simp [Node.descendant?_cons, Node.leaf, Node.bare] at hRest

theorem payload_of_emptyHandle {path : Path} {inner : Node}
    (hInner : emptyHandle.descendant? path = some inner) (header : FunctionHeader) :
    inner.payload ≠ .function header := by
  rcases descendant?_emptyHandle hInner with rfl | ⟨text, rfl⟩ <;>
    simp [emptyHandle, Node.defaultValue, Node.leaf, Node.bare]

theorem defaultValue_stylingHandle : Node.defaultValue stylingHandleName = emptyHandle := rfl

/-- A parameter that had no default value before it was chosen, or chosen once more, ends up
with the same one. -/
theorem setDefault?_appendAt {parameter : Node} (hKind : parameter.kind = .parameter)
    (hNone : ∀ part ∈ parameter.children, part.kind ≠ .defaultValue) (chosen : Path → Bool) :
    (parameter.appendAt emptyHandle chosen).setDefault? stylingHandleName =
      some (parameter.appendAt emptyHandle fun rest => rest == [] || chosen rest) := by
  have hOld : (Node.appendAtAll parameter.children emptyHandle chosen 0).findIdx?
      (·.kind == .defaultValue) = none := by
    rw [List.findIdx?_eq_none_iff]
    intro part hPart
    obtain ⟨index, hIndex⟩ := List.getElem?_of_mem hPart
    rw [Node.getElem?_appendAtAll] at hIndex
    obtain ⟨old, hThere, rfl⟩ := Option.map_eq_some_iff.mp hIndex
    simpa using hNone old (List.mem_of_getElem? hThere)
  rw [Node.setDefault?, if_pos (by simpa using hKind), Node.children_appendAt, List.findIdx?_append,
    hOld]
  have hBelow : Node.appendAtAll parameter.children emptyHandle
      (fun rest => rest == [] || chosen rest) 0 =
      Node.appendAtAll parameter.children emptyHandle chosen 0 := by
    apply List.ext_getElem?
    intro place
    simp [Node.getElem?_appendAtAll]
  rw [Node.appendAt_eq, Node.appendAt_eq, hBelow]
  rw [defaultValue_stylingHandle]
  cases hChosen : chosen [] with
  | false => simp
  | true =>
      have hHere : [emptyHandle].findIdx? (·.kind == .defaultValue) = some 0 := rfl
      simp [hHere]

/-- The first answer depends on the keys only, if each answer does. -/
theorem findSome?_of_map_eq {α β γ : Type} {key : α → β} {look : α → Option γ}
    (hLook : ∀ first second, key first = key second → look first = look second)
    {first second : List α} (hKeys : first.map key = second.map key) :
    first.findSome? look = second.findSome? look := by
  induction first generalizing second with
  | nil =>
      obtain rfl : second = [] := by simpa using hKeys.symm
      rfl
  | cons entry first ih =>
      cases second with
      | nil => cases hKeys
      | cons other second =>
          obtain ⟨hHead, hTail⟩ := List.cons.inj hKeys
          rw [List.findSome?_cons, List.findSome?_cons, hLook entry other hHead, ih hTail]

section Growth

variable {node grown : Node} {chosen : Path → Bool} (h : Node.GrownTo emptyHandle node chosen grown)
include h

/-- A handle without default is an old one that was not chosen. -/
theorem Undefaulted.of_grown {aliases : NameSet} {i j : Nat} {list parameter : Node}
    (hLacks : Undefaulted aliases grown i j list parameter) :
    ∃ oldList old, Undefaulted aliases node i j oldList old ∧ chosen [i, j] = false := by
  obtain ⟨⟨hList, hKind⟩, hFirst, hFound, ⟨header, hPayload, hHandle⟩, hNone⟩ := hLacks
  rcases h.child_cases hList with ⟨oldList, hOldList, hGrownList⟩ | ⟨-, hExtra⟩
  · rcases hGrownList.child_cases hFound with ⟨old, hOld, hGrown⟩ | ⟨-, hExtra⟩
    · refine ⟨oldList, old, ⟨⟨hOldList, by rw [← hGrownList.kind, hKind]⟩, ?_, hOld,
        ⟨header, by rw [← hGrown.payload, hPayload], hHandle⟩, ?_⟩, ?_⟩
      · intro k other hk hOther
        obtain ⟨found, hThere, hSame⟩ := h.child hOther
        rw [← hSame.kind]
        exact hFirst k found hk hThere
      · intro part hPart
        obtain ⟨index, hIndex⟩ := List.getElem?_of_mem hPart
        obtain ⟨found, hThere, hSame⟩ := hGrown.child hIndex
        rw [← hSame.kind]
        exact hNone found (List.mem_of_getElem? hThere)
      · cases hChosen : chosen [i, j] with
        | false => rfl
        | true =>
            obtain ⟨part, hPart, hDefault⟩ := hGrown.exists_extra hChosen
            exact absurd hDefault (hNone part hPart)
    · rw [← Node.payload_shape, hExtra] at hPayload
      cases hPayload
  · rw [← Node.kind_shape, hExtra] at hKind
    cases hKind

/-- An old handle without default that was not chosen still has none. -/
theorem Undefaulted.after {aliases : NameSet} {i j : Nat} {list parameter : Node}
    (hLacks : Undefaulted aliases node i j list parameter) (hChosen : chosen [i, j] = false) :
    ∃ newList new, Undefaulted aliases grown i j newList new := by
  obtain ⟨⟨hList, hKind⟩, hFirst, hFound, ⟨header, hPayload, hHandle⟩, hNone⟩ := hLacks
  obtain ⟨newList, hNewList, hGrownList⟩ := h.child hList
  obtain ⟨new, hNew, hGrown⟩ := hGrownList.child hFound
  refine ⟨newList, new, ⟨hNewList, by rw [hGrownList.kind, hKind]⟩, ?_, hNew,
    ⟨header, by rw [hGrown.payload, hPayload], hHandle⟩, ?_⟩
  · intro k other hk hOther
    rcases h.child_cases hOther with ⟨old, hOld, hSame⟩ | ⟨-, hExtra⟩
    · rw [hSame.kind]
      exact hFirst k old hk hOld
    · rw [← Node.kind_shape, hExtra]
      decide
  · intro part hPart
    obtain ⟨index, hIndex⟩ := List.getElem?_of_mem hPart
    rcases hGrown.child_cases hIndex with ⟨old, hOld, hSame⟩ | ⟨hHere, -⟩
    · rw [hSame.kind]
      exact hNone old (List.mem_of_getElem? hOld)
    · rw [hChosen] at hHere
      cases hHere

theorem marksAt_grown {path : Path} (hPath : (node.descendant? path).isSome = true) :
    grown.marksAt path = node.marksAt path := by
  obtain ⟨old, hOld⟩ := Option.isSome_iff_exists.mp hPath
  obtain ⟨found, hFound, hSame⟩ := h.descendant hOld
  rw [Node.marksAt, Node.marksAt, hFound, hOld]
  simp only [hSame.kind, hSame.payload]

/-- Growth does not change what is suppressed. -/
theorem suppressedAt_grown {path : Path} (hPath : (node.descendant? path).isSome = true) :
    grown.suppressedAt path = node.suppressedAt path := by
  rw [Node.suppressedAt, Node.suppressedAt, List.flatMap_cons, List.flatMap_cons,
    marksAt_grown h hPath]
  congr 1
  apply List.flatMap_congr
  intro above hAbove
  exact marksAt_grown h (Node.isSome_of_mem_ancestors hPath hAbove)

/-- Growth does not move a function into an interface or out of one. -/
theorem isInInterface_grown {path : Path} (hPath : (node.descendant? path).isSome = true)
    (first second : Node) :
    Site.isInInterface ⟨grown, path, first⟩ = Site.isInInterface ⟨node, path, second⟩ := by
  have hPayloads : ((⟨grown, path, first⟩ : Site).ancestors.map (·.node.payload)) =
      (⟨node, path, second⟩ : Site).ancestors.map (·.node.payload) := by
    simp only [Site.ancestors, List.map_filterMap]
    apply List.filterMap_congr
    intro above hAbove
    obtain ⟨old, hOld⟩ := Option.isSome_iff_exists.mp (Node.isSome_of_mem_ancestors hPath hAbove)
    obtain ⟨found, hFound, hSame⟩ := h.descendant hOld
    simp [Site.at?, hFound, hOld, hSame.payload]
  refine congrArg (·.getD false) (findSome?_of_map_eq (fun above other hSame => ?_) hPayloads)
  rw [hSame]

theorem isExempt_grown (settings : Settings) (header : FunctionHeader) {path : Path}
    (hPath : (node.descendant? path).isSome = true) (first second : Node) :
    isExempt settings header ⟨grown, path, first⟩ =
      isExempt settings header ⟨node, path, second⟩ := by
  rw [isExempt, isExempt, isInInterface_grown h hPath first second]

/-- The functions that the rule inspects are the old ones that it inspected. -/
theorem Inspects.of_grown {settings : Settings} {path : Path} {function : Node}
    {header : FunctionHeader} (hInspects : Inspects settings grown path function header) :
    ∃ old, Inspects settings node path old header ∧
      Node.GrownTo emptyHandle old (fun rest => chosen (path ++ rest)) function := by
  obtain ⟨hFound, hPayload, hMark, hExempt, hFree⟩ := inspects_iff.mp hInspects
  rcases h.descendant_cases hFound with ⟨old, hOld, hSame⟩ | ⟨-, rest, inner, hInner, hExtra⟩
  · have hPath : (node.descendant? path).isSome = true := by simp [hOld]
    rw [isExempt_grown h settings header hPath function old] at hExempt
    rw [suppressedAt_grown h hPath] at hFree
    exact ⟨old, inspects_iff.mpr ⟨hOld, by rw [← hSame.payload, hPayload], hMark, hExempt, hFree⟩,
      hSame⟩
  · have hNone := payload_of_emptyHandle hInner
    rw [← Node.payload_shape, hExtra, Node.payload_shape] at hPayload
    exact absurd hPayload (hNone header)

/-- A function that the rule inspected is still inspected. -/
theorem Inspects.after {settings : Settings} {path : Path} {function : Node}
    {header : FunctionHeader} (hInspects : Inspects settings node path function header) :
    ∃ new, Inspects settings grown path new header ∧
      Node.GrownTo emptyHandle function (fun rest => chosen (path ++ rest)) new := by
  obtain ⟨hFound, hPayload, hMark, hExempt, hFree⟩ := inspects_iff.mp hInspects
  obtain ⟨new, hNew, hSame⟩ := h.descendant hFound
  have hPath : (node.descendant? path).isSome = true := by simp [hFound]
  rw [← isExempt_grown h settings header hPath new function] at hExempt
  rw [← suppressedAt_grown h hPath] at hFree
  exact ⟨new, inspects_iff.mpr ⟨hNew, by rw [hSame.payload, hPayload], hMark, hExempt, hFree⟩, hSame⟩

/-- In a tree that has grown the rule asks for what it asked for, less what was chosen. -/
theorem asks_grown_iff {settings : Settings} {path place : Path} :
    Asks settings grown path place ↔ Asks settings node path place ∧ chosen place = false := by
  constructor
  · rintro ⟨function, header, i, j, list, parameter, hInspects, hLacks, rfl⟩
    obtain ⟨old, hOld, hSame⟩ := hInspects.of_grown h
    obtain ⟨oldList, oldParameter, hOldLacks, hChosen⟩ := hLacks.of_grown hSame
    exact ⟨⟨old, header, i, j, oldList, oldParameter, hOld, hOldLacks, rfl⟩, hChosen⟩
  · rintro ⟨⟨function, header, i, j, list, parameter, hInspects, hLacks, rfl⟩, hChosen⟩
    obtain ⟨new, hNew, hSame⟩ := hInspects.after h
    obtain ⟨newList, newParameter, hNewLacks⟩ := hLacks.after hSame hChosen
    exact ⟨new, header, i, j, newList, newParameter, hNew, hNewLacks, rfl⟩

/-- In a function that has grown the rule finds what it found, less what was chosen. -/
theorem mem_missing_grown_iff {settings : Settings} (hWell : grown.WellFormed) {target : Path} :
    target ∈ (missing settings grown).map (·.path) ↔
      ∃ i j list parameter, Undefaulted settings.aliases node i j list parameter ∧
        target = [i, j] ∧ chosen target = false := by
  rw [List.mem_map, mem_missing_iff hWell]
  constructor
  · rintro ⟨i, j, list, parameter, hLacks, rfl⟩
    obtain ⟨oldList, old, hOld, hChosen⟩ := hLacks.of_grown h
    exact ⟨i, j, oldList, old, hOld, rfl, hChosen⟩
  · rintro ⟨i, j, list, parameter, hLacks, rfl, hChosen⟩
    obtain ⟨newList, new, hNew⟩ := hLacks.after h hChosen
    exact ⟨i, j, newList, new, hNew, rfl⟩

theorem setDefault?_grown (hKind : node.kind = .parameter)
    (hNone : ∀ part ∈ node.children, part.kind ≠ .defaultValue) :
    ∃ changed, grown.setDefault? stylingHandleName = some changed ∧
      Node.GrownTo emptyHandle node (fun rest => rest == [] || chosen rest) changed := by
  have hShape := Node.shape_setDefault? grown stylingHandleName
  rw [h, ← Node.shape_setDefault?, setDefault?_appendAt hKind hNone] at hShape
  exact Option.map_eq_some_iff.mp hShape

/-- The edit that gives the parameter at a path the empty handle as default. -/
def giveDefault (target : Path) : Edit :=
  ⟨target, .defaultValue stylingHandleName⟩

/-- An old parameter that had no default value can be given one, whether or not it has been
chosen before. -/
theorem redraft?_giveDefault {target : Path} {parameter : Node}
    (hFound : node.descendant? target = some parameter) (hKind : parameter.kind = .parameter)
    (hNone : ∀ part ∈ parameter.children, part.kind ≠ .defaultValue) :
    ∃ next, (giveDefault target).redraft? grown = some next ∧
      Node.GrownTo emptyHandle node (fun place => place == target || chosen place) next := by
  obtain ⟨found, hThere, hSame⟩ := h.descendant hFound
  obtain ⟨changed, hChanged, hGrown⟩ := setDefault?_grown hSame hKind hNone
  have hOneMore : target.choose chosen (fun rest => rest == [] || chosen (target ++ rest)) =
      fun place => place == target || chosen place := by
    rw [Path.choose_or]
    funext place
    congr 1
    rw [Bool.eq_iff_iff, Option.any_eq_true]
    simp [Path.relativeTo?_eq_some_iff]
  refine ⟨(grown.replaceAt target changed).layout grown.span.start, ?_, ?_⟩
  · simp only [Edit.redraft?, giveDefault, hThere, Change.result?, hChanged, Option.map_some]
  · rw [← hOneMore]
    exact (h.replaceAt hFound hGrown).layout _

end Growth

/-- Giving several parameters a default value chooses all of them, and passes only through
trees in which some of them are chosen. -/
theorem redraftAll?_giveDefault {node grown : Node} {chosen : Path → Bool} {targets : List Path}
    (h : Node.GrownTo emptyHandle node chosen grown)
    (hTargets : ∀ target ∈ targets, ∃ parameter, node.descendant? target = some parameter ∧
      parameter.kind = .parameter ∧ ∀ part ∈ parameter.children, part.kind ≠ .defaultValue) :
    (∃ next, Edit.redraftAll? grown (targets.map giveDefault) = some next ∧
      Node.GrownTo emptyHandle node (fun place => decide (place ∈ targets) || chosen place) next) ∧
    ∀ draft ∈ Edit.drafts grown (targets.map giveDefault), ∃ some : Path → Bool,
      (∀ place, some place = true → place ∈ targets ∨ chosen place = true) ∧
      Node.GrownTo emptyHandle node some draft := by
  induction targets generalizing grown chosen with
  | nil => exact ⟨⟨grown, rfl, by simpa using h⟩, by simp [Edit.drafts]⟩
  | cons target targets ih =>
      obtain ⟨parameter, hFound, hKind, hNone⟩ := hTargets target (by simp)
      obtain ⟨next, hNext, hGrown⟩ := redraft?_giveDefault h hFound hKind hNone
      obtain ⟨⟨last, hLast, hAll⟩, hDrafts⟩ := ih hGrown fun other hOther =>
        hTargets other (List.mem_cons_of_mem _ hOther)
      refine ⟨⟨last, ?_, ?_⟩, ?_⟩
      · rw [List.map_cons, Edit.redraftAll?, hNext, Option.bind_some, hLast]
      · have hSame : (fun place => decide (place ∈ target :: targets) || chosen place) =
            fun place => decide (place ∈ targets) || (place == target || chosen place) := by
          funext place
          rw [Bool.eq_iff_iff]
          simp only [Bool.or_eq_true, decide_eq_true_eq, beq_iff_eq, List.mem_cons]
          rw [or_assoc, or_left_comm]
        rwa [hSame]
      · rw [List.map_cons, Edit.drafts, hNext]
        simp only [List.forall_mem_cons]
        refine ⟨⟨_, fun place hPlace => ?_, hGrown⟩, fun draft hDraft => ?_⟩
        · rw [Bool.or_eq_true, beq_iff_eq] at hPlace
          rw [List.mem_cons]
          exact hPlace.imp_left .inl
        · obtain ⟨some, hSome, hDraftGrown⟩ := hDrafts draft hDraft
          refine ⟨some, fun place hPlace => ?_, hDraftGrown⟩
          have hEither := hSome place hPlace
          rw [Bool.or_eq_true, beq_iff_eq, ← or_assoc, or_comm (b := place = target)] at hEither
          rw [List.mem_cons]
          exact hEither

end HandleDefault

end UiLint
