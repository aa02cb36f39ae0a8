/-! Finite maps from names to values, kept in ascending order of the names. -/
namespace UiLint

/-- The entries of a map, in ascending order of their names and each name once. -/
structure NameMap (α : Type) where
  entries : List (String × α)
  ascending : entries.Pairwise (fun a b => a.1 < b.1)

namespace NameMap

variable {α : Type}

/-- Put a value at the place of its name, in place of an earlier value of that name. -/
def place (name : String) (value : α) : List (String × α) → List (String × α)
  | [] => [(name, value)]
  | first :: rest =>
    if name < first.1 then (name, value) :: first :: rest
    else if first.1 < name then first :: place name value rest
    else (name, value) :: rest

theorem fst_mem_place {name : String} {value : α} {entries : List (String × α)}
    {entry : String × α} (h : entry ∈ place name value entries) :
    entry = (name, value) ∨ entry ∈ entries := by
  induction entries with
  | nil => simpa [place] using h
  | cons first rest ih =>
    unfold place at h
    split at h
    · simpa using h
    · split at h
      · rcases List.mem_cons.1 h with rfl | h
        · simp
        · rcases ih h with h | h
          · exact Or.inl h
          · exact Or.inr (List.mem_cons_of_mem _ h)
      · rcases List.mem_cons.1 h with rfl | h
        · simp
        · exact Or.inr (List.mem_cons_of_mem _ h)

theorem pairwise_place (name : String) (value : α) {entries : List (String × α)}
    (h : entries.Pairwise (fun a b => a.1 < b.1)) :
    (place name value entries).Pairwise (fun a b => a.1 < b.1) := by
  induction entries with
  | nil => simp [place]
  | cons first rest ih =>
    obtain ⟨hFirst, hRest⟩ := List.pairwise_cons.1 h
    unfold place
    split
    · rename_i hLess
      refine List.pairwise_cons.2 ⟨?_, h⟩
      intro x hx
      rcases List.mem_cons.1 hx with rfl | hx
      · exact hLess
      · exact String.lt_trans hLess (hFirst x hx)
    · split
      · rename_i hGreater
        refine List.pairwise_cons.2 ⟨?_, ih hRest⟩
        intro x hx
        rcases fst_mem_place hx with rfl | hx
        · exact hGreater
        · exact hFirst x hx
      · have same : name = first.1 := by grind
        subst same
        exact List.pairwise_cons.2 ⟨hFirst, hRest⟩

/-- The map without entries. -/
def empty : NameMap α := ⟨[], List.Pairwise.nil⟩

instance : Inhabited (NameMap α) := ⟨empty⟩

/-- The map with `value` for `name`; the last write wins. -/
def insert (map : NameMap α) (name : String) (value : α) : NameMap α :=
  ⟨place name value map.entries, pairwise_place name value map.ascending⟩

/-- The value of a name. -/
def get? (map : NameMap α) (name : String) : Option α :=
  map.entries.lookup name

/-- Whether no name has a value. -/
def isEmpty (map : NameMap α) : Bool :=
  map.entries.isEmpty

/-- The map of the listed entries, of which a later one wins over an earlier one. -/
def ofList (entries : List (String × α)) : NameMap α :=
  entries.foldl (fun map entry => map.insert entry.1 entry.2) empty

theorem lookup_cons_eq_ite (other : String) (first : String × α) (rest : List (String × α)) :
    (first :: rest).lookup other = if other = first.1 then some first.2 else rest.lookup other := by
  obtain ⟨name, value⟩ := first
  rw [List.lookup_cons]
  by_cases h : other = name
  · simp [h]
  · have differ : (other == name) = false := by simpa using h
    simp [h, differ]

theorem lookup_place (name other : String) (value : α) (entries : List (String × α)) :
    (place name value entries).lookup other =
      if other = name then some value else entries.lookup other := by
  induction entries with
  | nil => exact lookup_cons_eq_ite other (name, value) []
  | cons first rest ih =>
    unfold place
    split
    · exact lookup_cons_eq_ite other (name, value) (first :: rest)
    · split
      · rw [lookup_cons_eq_ite, lookup_cons_eq_ite, ih]
        grind
      · have same : name = first.1 := by grind
        rw [lookup_cons_eq_ite, lookup_cons_eq_ite, ← same]
        grind

@[simp]
theorem get?_insert (map : NameMap α) (name other : String) (value : α) :
    (map.insert name value).get? other = if other = name then some value else map.get? other :=
  lookup_place name other value map.entries

@[simp]
theorem get?_empty (name : String) : (empty : NameMap α).get? name = none := rfl

end NameMap

end UiLint
