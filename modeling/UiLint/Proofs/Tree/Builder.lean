import UiLint.Proofs.Tree.Layout
import UiLint.Tree.Event

/-! What the builder guarantees: whatever the events are, a tree that comes out is well-formed
and laid out from the start of the file. -/
namespace UiLint

/-- A source tree whose spans are those of its layout from zero on. -/
structure SourceTree.Canonical (tree : SourceTree) : Prop where
  wellFormed : tree.root.WellFormed
  laid : tree.root.layout 0 = tree.root

theorem SourceTree.Canonical.root {tree : SourceTree} (h : tree.Canonical) :
    tree.root.Canonical ∧ tree.root.span.start = 0 := by
  have hStart := Node.start_of_layout_eq h.laid
  exact ⟨⟨h.wellFormed, by rw [hStart, h.laid]⟩, hStart⟩

/-- An open node can be closed to a well-formed one at any time. -/
structure OpenNode.Sound (opened : OpenNode) : Prop where
  kind : opened.kind ≠ .token
  fits : opened.payload.fits opened.kind = true
  children : ∀ child ∈ opened.reversedChildren, child.WellFormed

theorem OpenNode.Sound.close {opened : OpenNode} (h : opened.Sound) : opened.close.WellFormed :=
  .intro h.fits (fun hKind => absurd hKind h.kind) (by simpa [OpenNode.close] using h.children)

theorem OpenNode.Sound.add {opened : OpenNode} (h : opened.Sound) {child : Node}
    (hChild : child.WellFormed) : (opened.add child).Sound :=
  ⟨h.kind, h.fits, by simpa [OpenNode.add] using ⟨hChild, h.children⟩⟩

namespace Assembly

/-- What an event does that is accepted. -/
inductive Takes : Assembly → Event → Assembly → Prop where
  | start {assembly : Assembly} {kind : Kind} {payload : Payload} (hKind : kind ≠ .token)
      (hFits : payload.fits kind = true) (hFirst : assembly.opened = [] → assembly.root = none) :
      Takes assembly (.start kind payload)
        { assembly with opened := ⟨kind, payload, []⟩ :: assembly.opened }
  | token {inner : OpenNode} {outer : List OpenNode} {root : Option Node} (text : String) :
      Takes ⟨inner :: outer, root⟩ (.token text) ⟨inner.add (.leaf text) :: outer, root⟩
  | finishLast {last : OpenNode} {root : Option Node} :
      Takes ⟨[last], root⟩ .finish ⟨[], some last.close⟩
  | finish {inner outer : OpenNode} {rest : List OpenNode} {root : Option Node} :
      Takes ⟨inner :: outer :: rest, root⟩ .finish ⟨outer.add inner.close :: rest, root⟩

theorem takes_of_step {assembly next : Assembly} {event : Event}
    (h : assembly.step event = .ok next) : Takes assembly event next := by
  obtain ⟨opened, root⟩ := assembly
  cases event with
  | start kind payload =>
      simp only [step] at h
      split at h
      · cases h
      · rename_i hFits
        rw [not_or, Bool.not_eq_false] at hFits
        split at h
        · cases h
        · rename_i hFirst
          cases h
          exact .start hFits.1 hFits.2 (by simpa using hFirst)
  | token text =>
      cases opened <;> cases h
      exact .token text
  | finish =>
      match opened with
      | [] => cases h
      | [last] =>
          cases h
          exact .finishLast
      | inner :: outer :: rest =>
          cases h
          exact .finish

theorem steps_cons_eq_ok_iff {assembly last : Assembly} {event : Event} {events : List Event} :
    assembly.steps (event :: events) = .ok last ↔
      ∃ next, assembly.step event = .ok next ∧ next.steps events = .ok last := by
  rw [steps]
  cases assembly.step event <;> simp

/-- Everything that has been put together so far is well-formed. -/
structure Sound (assembly : Assembly) : Prop where
  opened : ∀ opened ∈ assembly.opened, opened.Sound
  root : ∀ root, assembly.root = some root → root.WellFormed

/-- One event keeps an assembly sound. -/
theorem Sound.step {assembly next : Assembly} {event : Event} (h : assembly.Sound)
    (hStep : assembly.step event = .ok next) : next.Sound := by
  have hAll := h.opened
  cases takes_of_step hStep with
  | start hKind hFits hFirst =>
      exact ⟨List.forall_mem_cons.mpr ⟨⟨hKind, hFits, by simp⟩, hAll⟩, h.root⟩
  | token text =>
      rw [List.forall_mem_cons] at hAll
      exact ⟨List.forall_mem_cons.mpr ⟨hAll.1.add (Node.wellFormed_leaf text), hAll.2⟩, h.root⟩
  | finishLast =>
      rw [List.forall_mem_cons] at hAll
      refine ⟨by simp, fun root hRoot => ?_⟩
      cases hRoot
      exact hAll.1.close
  | finish =>
      rw [List.forall_mem_cons, List.forall_mem_cons] at hAll
      obtain ⟨hInner, hOuter, hRest⟩ := hAll
      exact ⟨List.forall_mem_cons.mpr ⟨hOuter.add hInner.close, hRest⟩, h.root⟩

theorem Sound.steps {events : List Event} {assembly last : Assembly} (h : assembly.Sound)
    (hSteps : assembly.steps events = .ok last) : last.Sound := by
  induction events generalizing assembly with
  | nil =>
      cases hSteps
      exact h
  | cons event events ih =>
      obtain ⟨next, hStep, hRest⟩ := steps_cons_eq_ok_iff.mp hSteps
      exact ih (h.step hStep) hRest

end Assembly

/-- A tree that events spell out is a file, well-formed and laid out from zero on. -/
theorem SourceTree.canonical_of_ofEvents {events : List Event} {tree : SourceTree}
    (hTree : SourceTree.ofEvents events = .ok tree) :
    tree.Canonical ∧ tree.root.kind = .file := by
  unfold SourceTree.ofEvents at hTree
  split at hTree
  · cases hTree
  · rename_i assembly hSteps
    have hSound : assembly.Sound := Assembly.Sound.steps ⟨by simp, by simp⟩ hSteps
    unfold Assembly.complete at hTree
    split at hTree
    · cases hTree
    · split at hTree
      · cases hTree
      · rename_i root hRoot
        unfold SourceTree.ofRoot at hTree
        split at hTree
        · rename_i hKind
          cases hTree
          have hWell := hSound.root root hRoot
          exact ⟨⟨hWell.layout 0, Node.layout_layout 0 0 root⟩, by simpa using hKind⟩
        · cases hTree

end UiLint
