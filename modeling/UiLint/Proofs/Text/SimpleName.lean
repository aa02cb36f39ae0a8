import Mathlib.Data.List.DropRight
import UiLint.Text.SimpleName

/-! Trimmed texts and simple names, told by how a text is put together: padding around what is
trimmed, and a qualifier before the simple name. -/
namespace UiLint.Text

/-- There is nothing but blanks. -/
def Blank (cs : List Char) : Prop :=
  ∀ c ∈ cs, isBlank c = true

instance (cs : List Char) : Decidable (Blank cs) :=
  List.decidableBAll (isBlank · = true) cs

/-- There are no blanks. -/
def Solid (cs : List Char) : Prop :=
  ∀ c ∈ cs, isBlank c = false

instance (cs : List Char) : Decidable (Solid cs) :=
  List.decidableBAll (isBlank · = false) cs

theorem Blank.append {first second : List Char} (hFirst : Blank first) (hSecond : Blank second) :
    Blank (first ++ second) :=
  List.forall_mem_append.mpr ⟨hFirst, hSecond⟩

theorem Blank.not_mem {cs : List Char} (h : Blank cs) {c : Char} (hc : isBlank c = false) :
    c ∉ cs := by
  intro hMember
  rw [h c hMember] at hc
  cases hc

section Ends

variable {α : Type} {p : α → Bool}

theorem dropWhile_append_of_head {front back : List α} (hBack : ∀ a ∈ back.head?, p a = false) :
    (front ++ back).dropWhile p = front.dropWhile p ++ back := by
  have hKeeps : back.dropWhile p = back := by
    cases back with
    | nil => rfl
    | cons a back => exact List.dropWhile_cons_of_neg (by simp [hBack a rfl])
  rw [List.dropWhile_append, hKeeps]
  split
  · rename_i hEmpty
    rw [List.isEmpty_iff.mp hEmpty, List.nil_append]
  · rfl

theorem dropEndWhile_append_of_last {front back : List α}
    (hFront : ∀ a ∈ front.getLast?, p a = false) :
    dropEndWhile p (front ++ back) = front ++ dropEndWhile p back := by
  have hHead : ∀ a ∈ front.reverse.head?, p a = false := by rwa [List.head?_reverse]
  rw [dropEndWhile, List.reverse_append, dropWhile_append_of_head hHead, List.reverse_append,
    List.reverse_reverse, dropEndWhile]

theorem dropEndWhile_eq_nil {items : List α} (h : ∀ a ∈ items, p a = true) :
    dropEndWhile p items = [] :=
  List.rdropWhile_eq_nil_iff.mpr h

/-- What is dropped at the end. -/
theorem exists_dropEndWhile (p : α → Bool) (items : List α) :
    ∃ back, (∀ a ∈ back, p a = true) ∧ items = dropEndWhile p items ++ back :=
  ⟨items.rtakeWhile p, fun _ hMember => List.mem_rtakeWhile_imp hMember,
    List.rdropWhile_append_rtakeWhile.symm⟩

end Ends

/-- The padding that trimming takes away. -/
theorem exists_padding (cs : List Char) :
    ∃ left right, Blank left ∧ Blank right ∧ cs = left ++ trimmed cs ++ right := by
  obtain ⟨right, hRight, hSplit⟩ := exists_dropEndWhile isBlank (cs.dropWhile isBlank)
  refine ⟨cs.takeWhile isBlank, right, fun c hc => List.mem_takeWhile_imp hc, hRight, ?_⟩
  rw [List.append_assoc, trimmed, ← hSplit, List.takeWhile_append_dropWhile]

/-- Padding makes no difference to what is left after trimming. -/
theorem trimmed_padded {left right : List Char} (hLeft : Blank left) (hRight : Blank right)
    (cs : List Char) : trimmed (left ++ cs ++ right) = trimmed cs := by
  rw [trimmed, List.append_assoc, List.dropWhile_append_of_pos hLeft, List.dropWhile_append, trimmed]
  split
  · rename_i hEmpty
    rw [List.isEmpty_iff.mp hEmpty, List.dropWhile_eq_nil_iff.mpr hRight]
  · have hEnd : ∀ c ∈ right.reverse, isBlank c = true := fun c hc =>
      hRight c (List.mem_reverse.mp hc)
    rw [dropEndWhile, List.reverse_append, List.dropWhile_append_of_pos hEnd, dropEndWhile]

/-- Neither the first nor the last character is a blank. -/
structure IsTrim (cs : List Char) : Prop where
  first : ∀ c ∈ cs.head?, isBlank c = false
  last : ∀ c ∈ cs.getLast?, isBlank c = false

theorem isTrim_trimmed (cs : List Char) : IsTrim (trimmed cs) := by
  obtain ⟨back, -, hSplit⟩ := exists_dropEndWhile isBlank (cs.dropWhile isBlank)
  refine ⟨fun c hc => ?_, fun c hc => ?_⟩
  · have hFirst : (cs.dropWhile isBlank).head? = some c := by
      rw [hSplit, List.head?_append, ← trimmed, hc]
      rfl
    have hSolid := List.head?_dropWhile_not isBlank cs
    rwa [hFirst] at hSolid
  · have hSolid := List.head?_dropWhile_not isBlank (cs.dropWhile isBlank).reverse
    rw [trimmed, dropEndWhile, List.getLast?_reverse] at hc
    rwa [hc] at hSolid

/-- Trimming stops on both sides at a text without blanks. -/
theorem trimmed_append (front tail : List Char) {base : List Char} (hNonempty : base ≠ [])
    (hBase : Solid base) :
    trimmed (front ++ base ++ tail) =
      front.dropWhile isBlank ++ base ++ dropEndWhile isBlank tail := by
  have hFirst : ∀ c ∈ (base ++ tail).head?, isBlank c = false := by
    intro c hc
    rw [List.head?_append_of_ne_nil _ hNonempty] at hc
    exact hBase c (List.mem_of_mem_head? hc)
  have hLast : ∀ c ∈ (front.dropWhile isBlank ++ base).getLast?, isBlank c = false := by
    intro c hc
    rw [List.getLast?_append_of_ne_nil _ hNonempty] at hc
    exact hBase c (List.mem_of_mem_getLast? hc)
  rw [trimmed, List.append_assoc, dropWhile_append_of_head hFirst, ← List.append_assoc,
    dropEndWhile_append_of_last hLast]

section AfterLast

variable {α : Type} [BEq α] [LawfulBEq α] {mark : α}

theorem not_mem_afterLast {items : List α} : mark ∉ afterLast mark items := by
  intro hMember
  simpa using List.mem_rtakeWhile_imp hMember

theorem afterLast_append {front back : List α} (hBack : mark ∉ back) :
    afterLast mark (front ++ back) = afterLast mark front ++ back := by
  have hAll : ∀ a ∈ back.reverse, (a != mark) = true := by
    intro a hMember
    have hNe : a ≠ mark := fun hSame => hBack (hSame ▸ List.mem_reverse.mp hMember)
    simpa using hNe
  rw [afterLast, List.reverse_append, List.takeWhile_append_of_pos hAll, List.reverse_append,
    List.reverse_reverse, afterLast]

theorem afterLast_concat (front : List α) : afterLast mark (front ++ [mark]) = [] :=
  List.rtakeWhile_concat_neg _ _ _ (by simp)

/-- If anything is before the part after the last mark, it ends in the mark. -/
theorem exists_afterLast (mark : α) (items : List α) :
    items = afterLast mark items ∨ ∃ front, items = front ++ [mark] ++ afterLast mark items := by
  have hSplit : items.rdropWhile (· != mark) ++ afterLast mark items = items :=
    List.rdropWhile_append_rtakeWhile
  by_cases hNone : items.rdropWhile (· != mark) = []
  · rw [hNone, List.nil_append] at hSplit
    exact .inl hSplit.symm
  · have hLast : (items.rdropWhile (· != mark)).getLast hNone = mark := by
      simpa using List.rdropWhile_last_not (· != mark) items hNone
    have hEnd := List.dropLast_append_getLast hNone
    rw [hLast] at hEnd
    exact .inr ⟨_, by rw [hEnd, hSplit]⟩

end AfterLast

/-- What may stand before a simple name: padding, or a qualifier, which ends in a dot. -/
def IsLead (cs : List Char) : Prop :=
  Blank cs ∨ ∃ front, cs = front ++ ['.']

theorem IsLead.append_left {front : List Char} (h : IsLead front) {left : List Char}
    (hLeft : Blank left) : IsLead (left ++ front) := by
  rcases h with hBlank | ⟨more, rfl⟩
  · exact .inl (hLeft.append hBlank)
  · exact .inr ⟨left ++ more, (List.append_assoc ..).symm⟩

/-- Without the blanks that it starts with, it is nothing or ends in a dot. -/
theorem IsLead.dropWhile_eq {front : List Char} (h : IsLead front) :
    front.dropWhile isBlank = [] ∨ ∃ more, front.dropWhile isBlank = more ++ ['.'] := by
  rcases h with hBlank | ⟨more, rfl⟩
  · exact .inl (List.dropWhile_eq_nil_iff.mpr hBlank)
  · exact .inr ⟨_, dropWhile_append_of_head (by simp; decide)⟩

theorem IsLead.dropWhile {front : List Char} (h : IsLead front) :
    IsLead (front.dropWhile isBlank) := by
  rcases h.dropWhile_eq with hNone | hDotted
  · rw [hNone]
    exact .inl nofun
  · exact .inr hDotted

theorem IsLead.afterLast_dropWhile {front : List Char} (h : IsLead front) :
    afterLast '.' (front.dropWhile isBlank) = [] := by
  rcases h.dropWhile_eq with hNone | ⟨more, hDotted⟩
  · rw [hNone]
    rfl
  · rw [hDotted, afterLast_concat]

/-- A part of a name: it has characters, but neither dots nor blanks. -/
structure IsPart (base : List Char) : Prop where
  nonempty : base ≠ []
  undotted : '.' ∉ base
  solid : Solid base

/-- A part is the simple name of exactly those texts that it ends, padding aside, and in which nothing
but padding or a qualifier is before it. -/
theorem simpleName_eq_iff {name : String} {base : String} (h : IsPart base.toList) :
    simpleName name = base ↔ ∃ front tail, name.toList = front ++ base.toList ++ tail ∧
      IsLead front ∧ Blank tail := by
  rw [← String.toList_inj, toList_simpleName]
  constructor
  · intro hSimple
    obtain ⟨left, right, hLeft, hRight, hName⟩ := exists_padding name.toList
    rcases exists_afterLast '.' (trimmed name.toList) with hWhole | ⟨front, hFront⟩
    · refine ⟨left, right, ?_, .inl hLeft, hRight⟩
      rwa [hWhole, hSimple] at hName
    · refine ⟨left ++ (front ++ ['.']), right, ?_, .append_left (.inr ⟨front, rfl⟩) hLeft, hRight⟩
      rw [hFront, hSimple] at hName
      rw [hName]
      simp
  · rintro ⟨front, tail, hName, hFront, hTail⟩
    rw [hName, trimmed_append _ _ h.nonempty h.solid, dropEndWhile_eq_nil hTail, List.append_nil,
      afterLast_append h.undotted, hFront.afterLast_dropWhile, List.nil_append]

end UiLint.Text
