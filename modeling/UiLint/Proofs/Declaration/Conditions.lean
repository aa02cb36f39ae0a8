import Mathlib.Data.List.Basic
import Mathlib.Data.List.Induction
import UiLint.Proofs.Engine.Suppression

/-! Conditions on declarations that checks have in common: the marks and modifiers that they carry, the
marks around them that suppress a rule, and the interface that they may be a member of. -/
namespace UiLint

theorem FunctionHeader.isComposable_iff {header : FunctionHeader} :
    header.isComposable = true ↔ ∃ mark ∈ header.annotations, mark.simpleName = "Composable" := by
  have hName : Text.simpleName composableName = "Composable" := by decide
  simp [isComposable, isMarked, findMark?, hName]

theorem FunctionHeader.hasKeyword_iff {header : FunctionHeader} {keyword : String} :
    header.hasKeyword keyword = true ↔ keyword ∈ header.modifiers := by
  simp [hasKeyword]

theorem Path.mem_cons_ancestors {path above : Path} :
    above ∈ path :: path.ancestors ↔ above <+: path := by
  rw [List.mem_cons, ancestors, List.mem_map]
  constructor
  · rintro (rfl | ⟨k, -, rfl⟩)
    · exact List.prefix_rfl
    · exact List.take_prefix k path
  · intro hPrefix
    rcases Nat.lt_or_eq_of_le hPrefix.length_le with hShorter | hSame
    · refine .inr ⟨above.length, by simpa using hShorter, ?_⟩
      exact (List.prefix_iff_eq_take.mp hPrefix).symm
    · exact .inl (hPrefix.eq_of_length hSame)

namespace Node

/-- The rule is named in a mark that suppresses rules at a path: one on the node there, on a
declaration around it, or on the file. -/
def Suppresses (root : Node) (place : Path) (rule : String) : Prop :=
  ∃ above node, above <+: place ∧ root.descendant? above = some node ∧
    (above = [] ∨ node.kind = .typeDeclaration ∨ node.kind = .functionDeclaration) ∧
    ∃ mark ∈ node.payload.annotations, mark.simpleName = "Suppress" ∧ rule ∈ mark.arguments

theorem mem_suppressedAt {root : Node} {place : Path} {rule : String} :
    rule ∈ root.suppressedAt place ↔ root.Suppresses place rule := by
  have hMarks : ∀ entries : List AnnotationEntry, rule ∈ suppressedBy entries ↔
      ∃ mark ∈ entries, mark.simpleName = "Suppress" ∧ rule ∈ mark.arguments := by
    intro entries
    simp [suppressedBy, and_assoc]
  rw [suppressedAt, List.mem_flatMap]
  constructor
  · rintro ⟨above, hAbove, hRule⟩
    unfold marksAt at hRule
    split at hRule
    · rename_i node hNode
      split at hRule
      · rename_i hKind
        refine ⟨above, node, Path.mem_cons_ancestors.mp hAbove, hNode, ?_, (hMarks _).mp hRule⟩
        simpa [Run.isDeclaration] using hKind
      · cases hRule
    · cases hRule
  · rintro ⟨above, node, hAbove, hNode, hKind, hRule⟩
    refine ⟨above, Path.mem_cons_ancestors.mpr hAbove, ?_⟩
    rw [marksAt, hNode]
    simp only
    rw [if_pos (by simpa [Run.isDeclaration] using hKind)]
    exact (hMarks _).mpr hRule

/-- The node declares a type or a function. -/
def IsOwner (node : Node) : Prop :=
  (∃ header, node.payload = .type header) ∨ ∃ header, node.payload = .function header

/-- The nearest type or function around a path is an interface. -/
def IsInInterface (root : Node) (place : Path) : Prop :=
  ∃ above owner header, above <+: place ∧ above ≠ place ∧ root.descendant? above = some owner ∧
    owner.payload = .type header ∧ header.isInterface = true ∧
    ∀ between node, above <+: between → between ≠ above → between <+: place → between ≠ place →
      root.descendant? between = some node → ¬ node.IsOwner

end Node

/-- Whether a declaration is inside an interface is told from its parent, or from what its parent is
inside if the parent declares nothing. -/
theorem Site.isInInterface_child {root parent : Node} {path : Path}
    (hParent : root.descendant? path = some parent) (index : Nat) (node : Node) :
    Site.isInInterface ⟨root, path.child index, node⟩ =
      match parent.payload with
      | .type header => header.isInterface
      | .function _ => false
      | _ => Site.isInInterface ⟨root, path, parent⟩ := by
  simp only [isInInterface, ancestors, Path.ancestors_child]
  rw [List.filterMap_cons_some (Site.at?_eq_some hParent), List.findSome?_cons]
  cases parent.payload <;> rfl

theorem Node.isInInterface_child_iff {root parent : Node} {path : Path}
    (hParent : root.descendant? path = some parent) (index : Nat) :
    root.IsInInterface (path.child index) ↔
      (∃ header, parent.payload = .type header ∧ header.isInterface = true) ∨
        ¬ parent.IsOwner ∧ root.IsInInterface path := by
  have hBelow : ∀ {above : Path}, above <+: path.child index ∧ above ≠ path.child index ↔
      above <+: path := by
    intro above
    rw [Path.child, List.prefix_concat_iff]
    constructor
    · rintro ⟨rfl | hPrefix, hNe⟩
      · exact absurd rfl hNe
      · exact hPrefix
    · intro hPrefix
      refine ⟨.inr hPrefix, ?_⟩
      rintro rfl
      exact absurd hPrefix.length_le (by simp)
  constructor
  · rintro ⟨above, owner, header, hAbove, hNe, hOwner, hType, hInterface, hNone⟩
    have hPrefix := hBelow.mp ⟨hAbove, hNe⟩
    by_cases hHere : above = path
    · obtain rfl := hHere
      rw [hParent] at hOwner
      cases hOwner
      exact .inl ⟨header, hType, hInterface⟩
    · have hInner := hBelow.mpr (List.prefix_rfl : path <+: path)
      refine .inr ⟨hNone path parent hPrefix (Ne.symm hHere) hInner.1 hInner.2 hParent, above, owner,
        header, hPrefix, hHere, hOwner, hType, hInterface, ?_⟩
      intro between node hFrom hOther hTo _ hNode
      exact hNone between node hFrom hOther (hBelow.mpr hTo).1 (hBelow.mpr hTo).2 hNode
  · rintro (⟨header, hType, hInterface⟩ | ⟨hParentNone, above, owner, header, hAbove, hNe, hOwner,
      hType, hInterface, hNone⟩)
    · have hInner := hBelow.mpr (List.prefix_rfl : path <+: path)
      refine ⟨path, parent, header, hInner.1, hInner.2, hParent, hType, hInterface, ?_⟩
      intro between node hFrom hOther hTo hLast
      exact absurd ((hBelow.mp ⟨hTo, hLast⟩).eq_of_length_le hFrom.length_le) hOther
    · have hInner := hBelow.mpr hAbove
      refine ⟨above, owner, header, hInner.1, hInner.2, hOwner, hType, hInterface, ?_⟩
      intro between node hFrom hOther hTo hLast hNode
      by_cases hHere : between = path
      · obtain rfl := hHere
        rw [hParent] at hNode
        cases hNode
        exact hParentNone
      · exact hNone between node hFrom hOther (hBelow.mp ⟨hTo, hLast⟩) hHere hNode

theorem Site.isInInterface_iff {root node : Node} {path : Path}
    (hNode : root.descendant? path = some node) :
    Site.isInInterface ⟨root, path, node⟩ = true ↔ root.IsInInterface path := by
  induction path using List.reverseRecOn generalizing node with
  | nil =>
      constructor
      · intro hInside
        cases hInside
      · rintro ⟨above, -, -, hAbove, hNe, -⟩
        exact absurd (List.prefix_nil.mp hAbove) hNe
  | append_singleton path index ih =>
      obtain ⟨parent, hParent⟩ : ∃ parent, root.descendant? path = some parent := by
        rw [Node.descendant?_append] at hNode
        obtain ⟨parent, hParent, -⟩ := Option.bind_eq_some_iff.mp hNode
        exact ⟨parent, hParent⟩
      have hSite := isInInterface_child hParent index node
      have hRoot := Node.isInInterface_child_iff hParent index
      rw [Path.child] at hSite hRoot
      rw [hSite, hRoot]
      cases hPayload : parent.payload <;> simp [hPayload, Node.IsOwner, ih hParent]

end UiLint
