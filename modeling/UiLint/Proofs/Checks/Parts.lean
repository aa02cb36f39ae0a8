import UiLint.Proofs.Checks.HandleDefault

/-! The parts of declarations in a tree whose parameters have been given default values. Lists of
parts are compared by what is read of them; as only parameters grow, all else is read as before. -/
namespace UiLint

open HandleDefault

/-- Only parameters are chosen. -/
def ChoosesParameters (root : Node) (chosen : Path → Bool) : Prop :=
  ∀ place below, chosen place = true → root.descendant? place = some below →
    below.kind = .parameter

namespace ChoosesParameters

variable {root : Node} {chosen : Path → Bool}

theorem descendant (h : ChoosesParameters root chosen) {path : Path} {node : Node}
    (hNode : root.descendant? path = some node) :
    ChoosesParameters node fun rest => chosen (path ++ rest) := by
  intro place below hPlace hBelow
  apply h (path ++ place) below hPlace
  rw [Node.descendant?_append, hNode]
  exact hBelow

theorem not_chosen (h : ChoosesParameters root chosen) (hKind : root.kind ≠ .parameter) :
    chosen [] = false := by
  rw [Bool.eq_false_iff]
  intro hChosen
  exact hKind (h [] root hChosen rfl)

theorem child (h : ChoosesParameters root chosen) {index : Nat} {part : Node}
    (hPart : root.children[index]? = some part) :
    ChoosesParameters part fun rest => chosen (index :: rest) := by
  have hBelow : root.descendant? [index] = some part := by
    rw [Node.descendant?_cons, hPart]
    rfl
  exact h.descendant hBelow

end ChoosesParameters

section Children

variable {node grown : Node} {chosen : Path → Bool} (h : Node.GrownTo emptyHandle node chosen grown)
include h

/-- What is read of the children is as before where no child has been appended, if it is so for
each child. -/
theorem map_children_grown {β : Type} {read : Node → β} (hNot : chosen [] = false)
    (hRead : ∀ index part found, node.children[index]? = some part →
      Node.GrownTo emptyHandle part (fun rest => chosen (index :: rest)) found →
      read found = read part) :
    grown.children.map read = node.children.map read := by
  apply List.ext_getElem?
  intro index
  rw [List.getElem?_map, List.getElem?_map]
  cases hPart : node.children[index]? with
  | some part =>
      obtain ⟨found, hFound, hGrown⟩ := h.child hPart
      rw [hFound, Option.map_some, Option.map_some, hRead index part found hPart hGrown]
  | none =>
      cases hFound : grown.children[index]? with
      | none => rfl
      | some found =>
          rcases h.child_cases hFound with ⟨part, hThere, -⟩ | ⟨hChosen, -⟩
          · rw [hPart] at hThere
            cases hThere
          · rw [hNot] at hChosen
            cases hChosen

/-- The first child of a kind stays the first, unless default values are looked for. -/
theorem firstOfKind?_grown {kind : Kind} (hKind : kind ≠ .defaultValue) :
    (∃ part found index, node.firstOfKind? kind = some (part, index) ∧
        grown.firstOfKind? kind = some (found, index) ∧ node.children[index]? = some part ∧
        part.kind = kind ∧ Node.GrownTo emptyHandle part (fun rest => chosen (index :: rest)) found) ∨
      (node.firstOfKind? kind = none ∧ grown.firstOfKind? kind = none) := by
  cases hFirst : node.firstOfKind? kind with
  | some entry =>
      obtain ⟨part, index⟩ := entry
      obtain ⟨hPart, hSame, hBefore⟩ := Node.firstOfKind?_eq_some_iff.mp hFirst
      obtain ⟨found, hFound, hGrown⟩ := h.child hPart
      refine .inl ⟨part, found, index, rfl, Node.firstOfKind?_eq_some_iff.mpr ⟨hFound, ?_, ?_⟩,
        hPart, hSame, hGrown⟩
      · rw [hGrown.kind, hSame]
      · intro k other hLess hOther
        rcases h.child_cases hOther with ⟨old, hOld, hOldGrown⟩ | ⟨-, hExtra⟩
        · rw [hOldGrown.kind]
          exact hBefore k old hLess hOld
        · rw [← Node.kind_shape, hExtra]
          exact hKind.symm
  | none =>
      refine .inr ⟨rfl, ?_⟩
      rw [Node.firstOfKind?, List.find?_eq_none] at hFirst ⊢
      rintro ⟨found, index⟩ hEntry
      rcases h.child_cases (List.mk_mem_zipIdx_iff_getElem?.mp hEntry) with
        ⟨old, hOld, hOldGrown⟩ | ⟨-, hExtra⟩
      · rw [hOldGrown.kind]
        exact hFirst (old, index) (List.mk_mem_zipIdx_iff_getElem?.mpr hOld)
      · rw [← Node.kind_shape, hExtra, Node.kind_shape]
        exact fun hSame => hKind (eq_of_beq hSame).symm

theorem hasDefault_grown (hNot : chosen [] = false) : grown.hasDefault = node.hasDefault := by
  have hKinds : grown.children.map Node.kind = node.children.map Node.kind :=
    map_children_grown h hNot fun _ _ _ _ hGrown => hGrown.kind
  have hIff : ∀ other : Node, other.hasDefault = false ↔
      ∀ kind ∈ other.children.map Node.kind, kind ≠ .defaultValue := by
    intro other
    rw [Node.hasDefault_eq_false_iff, List.forall_mem_map]
  rw [Bool.eq_iff_iff, ← not_iff_not, Bool.not_eq_true, Bool.not_eq_true, hIff, hIff, hKinds]

end Children

/-- The parts of a node depend on the kinds and payloads of its children, with whatever else is read
of them. -/
theorem Node.map_partsWith {Header β : Type} (header? : Payload → Option Header) (read : Node → β)
    (node : Node) :
    (node.partsWith header?).map (fun part => (part.path, part.header, read part.node)) =
      (node.children.map fun child => (child.kind, child.payload, read child)).zipIdx.filterMap
        fun entry => if entry.1.1 != .token then
          (header? entry.1.2.1).map fun header => ([entry.2], header, entry.1.2.2) else none := by
  rw [List.zipIdx_map, List.filterMap_map, partsWith, nonTokens, List.filterMap_filter,
    List.map_filterMap]
  congr 1
  funext entry
  simp only [Function.comp_apply, Prod.map_fst, Prod.map_snd, id_eq]
  split
  · rw [Option.map_map]
    rfl
  · rfl

section Parts

variable {node grown : Node} {chosen : Path → Bool} (h : Node.GrownTo emptyHandle node chosen grown)
  (hOn : ChoosesParameters node chosen)
include h

theorem map_partsWith_grown {Header β : Type} (header? : Payload → Option Header) (read : Node → β)
    (hNot : chosen [] = false)
    (hRead : ∀ index part found, node.children[index]? = some part →
      Node.GrownTo emptyHandle part (fun rest => chosen (index :: rest)) found →
      read found = read part) :
    (grown.partsWith header?).map (fun part => (part.path, part.header, read part.node)) =
      (node.partsWith header?).map fun part => (part.path, part.header, read part.node) := by
  rw [Node.map_partsWith, Node.map_partsWith, map_children_grown h hNot]
  intro index part found hPart hGrown
  rw [hGrown.kind, hGrown.payload, hRead index part found hPart hGrown]

include hOn

/-- The parameters of a function are as before, with whatever else is read of them. -/
theorem map_parameters_grown {β : Type} (read : Node → β)
    (hRead : ∀ i j part found,
      Node.GrownTo emptyHandle part (fun rest => chosen (i :: j :: rest)) found →
      read found = read part) :
    grown.parameters.map (fun part => (part.path, part.header, read part.node)) =
      node.parameters.map fun part => (part.path, part.header, read part.node) := by
  unfold Node.parameters Node.parameterList?
  rcases firstOfKind?_grown h (show Kind.parameterList ≠ .defaultValue by decide) with
    ⟨list, found, i, hOld, hNew, hList, hKind, hGrown⟩ | ⟨hOld, hNew⟩
  · have hNot : chosen [i] = false :=
      (hOn.child hList).not_chosen (by simp [hKind])
    have hParts := map_partsWith_grown hGrown Payload.parameterHeader? read hNot
      fun j part found _ hPart => hRead i j part found hPart
    have hBelow := congrArg (List.map fun entry => (i :: entry.1, entry.2)) hParts
    rw [hOld, hNew]
    simpa only [List.map_map, Function.comp_def] using hBelow
  · rw [hOld, hNew]

/-- The calls among the statements of a function are as before. -/
theorem map_statementCalls_grown :
    grown.statementCalls.map (·.header) = node.statementCalls.map (·.header) := by
  have hCalls : ∀ other : Node, other.statementCalls.map (·.header) =
      (other.firstOfKind? .body).elim [] fun entry =>
        (entry.1.partsWith Payload.callHeader?).map (·.header) := by
    intro other
    rw [Node.statementCalls, Node.statements]
    cases other.firstOfKind? .body with
    | none => rfl
    | some entry =>
        simp only [Node.partsWith, List.filterMap_map, List.map_filterMap, Function.comp_def,
          Option.map_map, Option.elim_some]
  rw [hCalls, hCalls]
  rcases firstOfKind?_grown h (show Kind.body ≠ .defaultValue by decide) with
    ⟨body, found, i, hOld, hNew, hBody, hKind, hGrown⟩ | ⟨hOld, hNew⟩
  · have hNot : chosen [i] = false := (hOn.child hBody).not_chosen (by simp [hKind])
    have hParts := map_partsWith_grown hGrown Payload.callHeader? (fun _ => ()) hNot
      fun _ _ _ _ _ => rfl
    have hHeaders := congrArg (List.map fun entry => entry.2.1) hParts
    rw [hOld, hNew, Option.elim_some, Option.elim_some]
    simpa only [List.map_map, Function.comp_def] using hHeaders
  · rw [hOld, hNew]

end Parts

/-- The first of the items that is a name, among the tokens after the keyword if there is one. -/
def searchName {α : Type} (isToken isKeyword isName : α → Bool) (items : List α) : Option α :=
  let tokens := items.filter isToken
  let candidates := if tokens.any isKeyword then (tokens.dropWhile (!isKeyword ·)).drop 1 else tokens
  candidates.find? isName

theorem searchName_map {α β : Type} (read : α → β) (isToken isKeyword isName : β → Bool)
    (items : List α) :
    searchName isToken isKeyword isName (items.map read) =
      (searchName (isToken ∘ read) (isKeyword ∘ read) (isName ∘ read) items).map read := by
  have hSkip : ∀ tokens : List α, (tokens.map read).dropWhile (!isKeyword ·) =
      (tokens.dropWhile (!(isKeyword ∘ read) ·)).map read := by
    intro tokens
    induction tokens with
    | nil => rfl
    | cons token tokens ih =>
        rw [List.map_cons, List.dropWhile_cons, List.dropWhile_cons, ih]
        simp only [Function.comp_apply]
        split <;> rfl
  unfold searchName
  simp only [List.filter_map, List.any_map, hSkip]
  split <;> simp only [← List.map_drop, List.find?_map]

theorem mem_of_searchName {α : Type} {isToken isKeyword isName : α → Bool} {items : List α} {found : α}
    (hFound : searchName isToken isKeyword isName items = some found) : found ∈ items := by
  unfold searchName at hFound
  have hMember := List.mem_of_find?_eq_some hFound
  split at hMember
  · exact List.mem_of_mem_filter ((List.dropWhile_sublist _).mem (List.mem_of_mem_drop hMember))
  · exact List.mem_of_mem_filter hMember

namespace Node

/-- The way from a function to where its name stands: to the token with the name, or nowhere when
there is none. -/
def namePath (node : Node) (name : String) : Path :=
  (searchName (·.1.kind == .token) (·.1.tokenText? == some "fun") (·.1.tokenText? == some name)
    node.children.zipIdx).elim [] fun entry => [entry.2]

/-- The name of a function stands where the way to it leads. -/
theorem nameOffset_eq (node : Node) (name : String) :
    ∃ below, node.descendant? (node.namePath name) = some below ∧
      node.nameOffset name = below.span.start := by
  have hOffset : node.nameOffset name =
      (searchName (·.kind == .token) (·.tokenText? == some "fun") (·.tokenText? == some name)
        node.children).elim node.span.start (·.span.start) := by
    simp only [nameOffset, searchName]
    generalize List.find? _ _ = token?
    cases token? <;> rfl
  have hSearch := searchName_map Prod.fst (·.kind == .token) (·.tokenText? == some "fun")
    (·.tokenText? == some name) node.children.zipIdx
  rw [List.zipIdx_map_fst] at hSearch
  rw [hOffset, hSearch, namePath]
  simp only [Function.comp_def]
  cases hFound : searchName (·.1.kind == .token) (·.1.tokenText? == some "fun")
    (·.1.tokenText? == some name) node.children.zipIdx with
  | none => exact ⟨node, rfl, rfl⟩
  | some entry =>
      have hEntry := List.mem_zipIdx_iff_getElem?.mp (mem_of_searchName hFound)
      refine ⟨entry.1, ?_, rfl⟩
      rw [Option.elim_some, descendant?_cons, hEntry]
      rfl

/-- The way to a name depends on the kinds and payloads of the children. -/
theorem namePath_congr {node other : Node} (name : String)
    (hChildren : node.children.map (fun child => (child.kind, child.payload)) =
      other.children.map fun child => (child.kind, child.payload)) :
    node.namePath name = other.namePath name := by
  have hSearch : ∀ node : Node, node.namePath name =
      (searchName (·.1.1 == .token) (·.1.2.tokenText? == some "fun")
        (·.1.2.tokenText? == some name)
        (node.children.map fun child => (child.kind, child.payload)).zipIdx).elim []
        fun entry => [entry.2] := by
    intro node
    rw [List.zipIdx_map, searchName_map, Option.elim_map]
    rfl
  rw [hSearch, hSearch, hChildren]

theorem length_namePath_le (node : Node) (name : String) : (node.namePath name).length ≤ 1 := by
  unfold namePath
  generalize searchName _ _ _ node.children.zipIdx = found
  cases found with
  | none => exact Nat.zero_le 1
  | some entry => exact Nat.le_refl 1

end Node

end UiLint
