/-! Finite sets of names. A set is kept as its members in ascending order of code
points, so that two sets with the same members are equal. -/
namespace UiLint

/-- The members of a set of names, in ascending order and each once. -/
structure NameSet where
  names : List String
  ascending : names.Pairwise (· < ·)

namespace NameSet

/-- Put a name at its place among ascending names, unless it is there already. -/
def place (name : String) : List String → List String
  | [] => [name]
  | first :: rest =>
    if name < first then name :: first :: rest
    else if first < name then first :: place name rest
    else first :: rest

theorem mem_place {name x : String} {names : List String} :
    x ∈ place name names ↔ x = name ∨ x ∈ names := by
  induction names with
  | nil => simp [place]
  | cons first rest ih =>
    unfold place
    split
    · simp
    · split
      · simp only [List.mem_cons, ih]
        exact or_left_comm
      · have same : name = first := by grind
        simp [same]

theorem pairwise_place (name : String) {names : List String} (h : names.Pairwise (· < ·)) :
    (place name names).Pairwise (· < ·) := by
  induction names with
  | nil => simp [place]
  | cons first rest ih =>
    obtain ⟨hFirst, hRest⟩ := List.pairwise_cons.1 h
    unfold place
    split
    · rename_i hLess
      refine List.pairwise_cons.2 ⟨?_, h⟩
      intro x hx
      rcases List.mem_cons.1 hx with rfl | hx
      · exact hLess
      · exact String.lt_trans hLess (hFirst x hx)
    · split
      · rename_i hGreater
        refine List.pairwise_cons.2 ⟨?_, ih hRest⟩
        intro x hx
        rcases mem_place.1 hx with rfl | hx
        · exact hGreater
        · exact hFirst x hx
      · exact h

/-- The set without members. -/
def empty : NameSet := ⟨[], List.Pairwise.nil⟩

instance : Inhabited NameSet := ⟨empty⟩

/-- The set with one more member. -/
def insert (set : NameSet) (name : String) : NameSet :=
  ⟨place name set.names, pairwise_place name set.ascending⟩

/-- The set of the listed names. -/
def ofList (names : List String) : NameSet :=
  names.foldr (fun name set => set.insert name) empty

instance : Membership String NameSet := ⟨fun set name => name ∈ set.names⟩

theorem mem_iff {set : NameSet} {name : String} : name ∈ set ↔ name ∈ set.names := Iff.rfl

instance (name : String) (set : NameSet) : Decidable (name ∈ set) :=
  inferInstanceAs (Decidable (name ∈ set.names))

@[simp]
theorem mem_insert {set : NameSet} {name x : String} :
    x ∈ set.insert name ↔ x = name ∨ x ∈ set :=
  mem_place

@[simp]
theorem not_mem_empty {x : String} : ¬ x ∈ empty := by
  simp [mem_iff, empty]

@[simp]
theorem mem_ofList {names : List String} {x : String} : x ∈ ofList names ↔ x ∈ names := by
  induction names with
  | nil => simp [ofList]
  | cons name names ih =>
    have step : ofList (name :: names) = (ofList names).insert name := rfl
    rw [step, mem_insert, ih, List.mem_cons]

/-- Ascending lists with the same members are the same list. -/
theorem eq_of_pairwise_of_mem_iff {xs ys : List String} (hx : xs.Pairwise (· < ·))
    (hy : ys.Pairwise (· < ·)) (h : ∀ a, a ∈ xs ↔ a ∈ ys) : xs = ys := by
  induction xs generalizing ys with
  | nil =>
    cases ys with
    | nil => rfl
    | cons y ys => exact absurd ((h y).2 List.mem_cons_self) (by simp)
  | cons x xs ih =>
    cases ys with
    | nil => exact absurd ((h x).1 List.mem_cons_self) (by simp)
    | cons y ys =>
      obtain ⟨hx₁, hx₂⟩ := List.pairwise_cons.1 hx
      obtain ⟨hy₁, hy₂⟩ := List.pairwise_cons.1 hy
      have same : x = y := by
        have h₁ := List.mem_cons.1 ((h x).1 List.mem_cons_self)
        have h₂ := List.mem_cons.1 ((h y).2 List.mem_cons_self)
        grind
      subst same
      congr 1
      refine ih hx₂ hy₂ fun a => ?_
      constructor
      · intro ha
        have := (h a).1 (List.mem_cons_of_mem _ ha)
        have := hx₁ a ha
        grind
      · intro ha
        have := (h a).2 (List.mem_cons_of_mem _ ha)
        have := hy₁ a ha
        grind

/-- A set is determined by its members. -/
theorem ext_of_mem_iff {s t : NameSet} (h : ∀ a, a ∈ s ↔ a ∈ t) : s = t := by
  obtain ⟨xs, hx⟩ := s
  obtain ⟨ys, hy⟩ := t
  have same : xs = ys := eq_of_pairwise_of_mem_iff hx hy h
  subst same
  rfl

end NameSet

end UiLint
