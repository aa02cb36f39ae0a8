import Mathlib.Data.List.Nodup
import UiLint.Proofs.Checks.Notes

/-! The order that is suggested for parameters. It is the declared one with the groups put in a row,
and a function that follows it is not reported, although the group of a parameter depends on whether
it is the last one. -/
namespace UiLint.ParameterOrder

/-- The groups of the parameters never go down from one to a later one. -/
def InOrder (aliases : NameSet) (parameters : List (Placed ParameterHeader)) : Prop :=
  ((grouped aliases parameters).map (·.1)).Pairwise fun first second => first.rank ≤ second.rank

instance (aliases : NameSet) (parameters : List (Placed ParameterHeader)) :
    Decidable (InOrder aliases parameters) :=
  inferInstanceAs (Decidable (List.Pairwise _ _))

variable (aliases : NameSet) (parameters : List (Placed ParameterHeader))

theorem map_snd_grouped : (grouped aliases parameters).map (·.2) = parameters := by
  rw [grouped, List.map_map]
  exact List.zipIdx_map_fst 0 parameters

/-- Only the last parameter is looked at as a possible trailing lambda. -/
theorem grouped_concat (before : List (Placed ParameterHeader)) (last : Placed ParameterHeader) :
    grouped aliases (before ++ [last]) =
      before.map (fun parameter => (group aliases parameter false, parameter)) ++
        [(group aliases last true, last)] := by
  have hBefore : ∀ entry ∈ before.zipIdx, (entry.2 + 1 == (before ++ [last]).length) = false := by
    intro entry hEntry
    have hIndex := List.snd_lt_of_mem_zipIdx hEntry
    simp only [List.length_append, List.length_singleton, beq_eq_false_iff_ne]
    omega
  rw [grouped, List.zipIdx_append, List.map_append]
  congr 1
  · calc
      _ = before.zipIdx.map fun entry => (group aliases entry.1 false, entry.1) :=
        List.map_congr_left fun entry hEntry => by rw [hBefore entry hEntry]
      _ = _ := by
        conv_rhs => rw [← List.zipIdx_map_fst 0 before, List.map_map]
        rfl
  · simp

/-- What is not the last parameter is no trailing lambda. -/
theorem rank_group_false (parameter : Placed ParameterHeader) :
    (group aliases parameter false).rank < Group.trailingLambda.rank := by
  simp only [group, Bool.false_and, Bool.false_eq_true, if_false]
  split
  · decide
  · split <;> decide

/-- Being the last makes a trailing lambda of a parameter, or leaves it in its group. -/
theorem group_true (parameter : Placed ParameterHeader) :
    group aliases parameter true = .trailingLambda ∨
      group aliases parameter true = group aliases parameter false := by
  simp only [group, Bool.true_and, Bool.false_and, Bool.false_eq_true, if_false]
  split
  · exact .inl rfl
  · exact .inr rfl

/-- The groups depend on the headers, and on which parameters have a default value. -/
theorem map_fst_grouped_congr {first second : List (Placed ParameterHeader)}
    (hSame : first.map (·.reading.2) = second.map (·.reading.2)) :
    (grouped aliases first).map (·.1) = (grouped aliases second).map (·.1) := by
  have hLength : first.length = second.length := by simpa using congrArg List.length hSame
  rw [grouped, grouped, List.map_map, List.map_map, hLength]
  apply List.ext_getElem?
  intro index
  have hHere := congrArg (·[index]?) hSame
  simp only [List.getElem?_map] at hHere
  rw [List.getElem?_map, List.getElem?_map, List.getElem?_zipIdx, List.getElem?_zipIdx]
  cases hFirst : first[index]? with
  | none =>
      rw [hFirst, Option.map_none] at hHere
      rw [Option.map_eq_none_iff.mp hHere.symm]
  | some parameter =>
      rw [hFirst, Option.map_some] at hHere
      obtain ⟨other, hOther, hReading⟩ := Option.map_eq_some_iff.mp hHere.symm
      obtain ⟨hHeader, hDefault⟩ := Prod.mk.inj hReading
      rw [hOther]
      simp only [Option.map_some, Function.comp_apply, group, hHeader, hDefault]

/-- Parameters with their groups, sorted by group. -/
def sorted : List (Group × Placed ParameterHeader) :=
  (grouped aliases parameters).mergeSort fun first second => decide (first.1.rank ≤ second.1.rank)

theorem rankLe_trans (first second third : Group × Placed ParameterHeader)
    (hFirst : decide (first.1.rank ≤ second.1.rank) = true)
    (hSecond : decide (second.1.rank ≤ third.1.rank) = true) :
    decide (first.1.rank ≤ third.1.rank) = true := by
  simp only [decide_eq_true_eq] at hFirst hSecond ⊢
  omega

theorem rankLe_total (first second : Group × Placed ParameterHeader) :
    (decide (first.1.rank ≤ second.1.rank) || decide (second.1.rank ≤ first.1.rank)) = true := by
  simp only [Bool.or_eq_true, decide_eq_true_eq]
  omega

theorem sorted_perm : (sorted aliases parameters).Perm (grouped aliases parameters) :=
  List.mergeSort_perm ..

theorem pairwise_sorted :
    (sorted aliases parameters).Pairwise fun first second => first.1.rank ≤ second.1.rank :=
  (List.pairwise_mergeSort rankLe_trans rankLe_total _).imp of_decide_eq_true

/-- Inside a group the declared order stays. -/
theorem filter_sorted (chosen : Group) :
    (sorted aliases parameters).filter (·.1 == chosen) =
      (grouped aliases parameters).filter (·.1 == chosen) := by
  have hEqual : ((grouped aliases parameters).filter (·.1 == chosen)).Pairwise
      fun first second => decide (first.1.rank ≤ second.1.rank) = true := by
    rw [List.pairwise_filter]
    refine List.pairwise_of_forall fun first second hFirst hSecond => ?_
    rw [eq_of_beq hFirst, eq_of_beq hSecond]
    exact decide_eq_true (Nat.le_refl _)
  have hSublist : ((grouped aliases parameters).filter (·.1 == chosen)).Sublist
      (sorted aliases parameters) :=
    List.sublist_mergeSort rankLe_trans rankLe_total hEqual List.filter_sublist
  have hChosen := hSublist.filter (·.1 == chosen)
  rw [List.filter_filter] at hChosen
  simp only [Bool.and_self] at hChosen
  exact (hChosen.eq_of_length ((sorted_perm aliases parameters).filter _).length_eq.symm).symm

/-- Every group, in the order in which they should stand. -/
def Group.all : List Group :=
  [required, stylingHandle, defaulted, trailingLambda]

/-- Entries in the order of their groups are the groups in a row. -/
theorem eq_flatMap_of_pairwise {entries : List (Group × Placed ParameterHeader)}
    (hOrder : entries.Pairwise fun first second => first.1.rank ≤ second.1.rank) :
    entries = Group.all.flatMap fun chosen => entries.filter (·.1 == chosen) := by
  induction entries with
  | nil => rfl
  | cons entry entries ih =>
      obtain ⟨chosen, parameter⟩ := entry
      rw [List.pairwise_cons] at hOrder
      -- The groups before that of the first entry are empty.
      have hNone : ∀ lower : Group, lower.rank < chosen.rank →
          entries.filter (·.1 == lower) = [] := by
        intro lower hBelow
        rw [List.filter_eq_nil_iff]
        intro other hOther hSame
        have hAbove : chosen.rank ≤ other.1.rank := hOrder.1 other hOther
        rw [eq_of_beq hSame] at hAbove
        omega
      have hRest := ih hOrder.2
      simp only [Group.all, List.flatMap_cons, List.flatMap_nil, List.append_nil, List.filter_cons]
        at hRest ⊢
      cases chosen with
      | required => exact congrArg _ hRest
      | stylingHandle =>
          rw [hNone .required (by decide)] at hRest ⊢
          exact congrArg _ hRest
      | defaulted =>
          rw [hNone .required (by decide), hNone .stylingHandle (by decide)] at hRest ⊢
          exact congrArg _ hRest
      | trailingLambda =>
          rw [hNone .required (by decide), hNone .stylingHandle (by decide),
            hNone .defaulted (by decide)] at hRest ⊢
          exact congrArg _ hRest

/-- The suggested order is that of the groups, one after the other. -/
theorem expected_eq_flatMap :
    expected aliases parameters = (Group.all.flatMap fun chosen =>
      (grouped aliases parameters).filter (·.1 == chosen)).map (·.2) := by
  have hRow := eq_flatMap_of_pairwise (pairwise_sorted aliases parameters)
  simp only [filter_sorted] at hRow
  rw [← hRow]
  rfl

/-- The suggested order is the declared one exactly if the groups are in order. Parameters are told
apart by their paths. -/
theorem map_path_expected_eq_iff (hPaths : (parameters.map (·.path)).Nodup) :
    parameters.map (·.path) = (expected aliases parameters).map (·.path) ↔
      InOrder aliases parameters := by
  have hDeclared : (grouped aliases parameters).map (·.2.path) = parameters.map (·.path) := by
    conv_rhs => rw [← map_snd_grouped aliases parameters, List.map_map]
    rfl
  have hSuggested : (sorted aliases parameters).map (·.2.path) =
      (expected aliases parameters).map (·.path) := by
    rw [expected, List.map_map]
    rfl
  rw [InOrder, List.pairwise_map, ← hDeclared, ← hSuggested]
  constructor
  · intro hSame
    have hKept : grouped aliases parameters = sorted aliases parameters := by
      rw [← hDeclared] at hPaths
      apply List.ext_getElem?
      intro index
      have hHere := congrArg (·[index]?) hSame
      simp only [List.getElem?_map] at hHere
      cases hEntry : (grouped aliases parameters)[index]? with
      | none =>
          rw [hEntry, Option.map_none] at hHere
          exact (Option.map_eq_none_iff.mp hHere.symm).symm
      | some entry =>
          rw [hEntry, Option.map_some] at hHere
          obtain ⟨other, hOther, hPath⟩ := Option.map_eq_some_iff.mp hHere.symm
          have hMember := (sorted_perm aliases parameters).subset (List.mem_of_getElem? hOther)
          rw [hOther, List.inj_on_of_nodup_map hPaths (List.mem_of_getElem? hEntry) hMember hPath.symm]
    rw [hKept]
    exact pairwise_sorted aliases parameters
  · intro hOrder
    rw [sorted, List.mergeSort_of_pairwise (hOrder.imp decide_eq_true)]

theorem mem_grouped {entry : Group × Placed ParameterHeader}
    (hEntry : entry ∈ grouped aliases parameters) :
    ∃ isLast, entry.1 = group aliases entry.2 isLast := by
  obtain ⟨place, -, rfl⟩ := List.mem_map.mp hEntry
  exact ⟨_, rfl⟩

/-- A parameter is in the highest group that it can be in if it is the last. -/
theorem rank_le_group_true {entry : Group × Placed ParameterHeader}
    (hEntry : entry ∈ grouped aliases parameters) :
    entry.1.rank ≤ (group aliases entry.2 true).rank := by
  obtain ⟨isLast, hGroup⟩ := mem_grouped aliases parameters hEntry
  rw [hGroup]
  cases isLast with
  | true => exact Nat.le_refl _
  | false =>
      rcases group_true aliases entry.2 with hLambda | hSame
      · rw [hLambda]
        exact Nat.le_of_lt (rank_group_false aliases entry.2)
      · exact Nat.le_of_eq (by rw [hSame])

theorem Group.eq_trailingLambda {chosen : Group} (hTop : trailingLambda.rank ≤ chosen.rank) :
    chosen = trailingLambda := by
  cases chosen <;> simp [rank] at hTop ⊢

/-- At most one parameter is a trailing lambda. -/
theorem countP_trailingLambda_le :
    (grouped aliases parameters).countP (·.1 == .trailingLambda) ≤ 1 := by
  rcases List.eq_nil_or_concat parameters with rfl | ⟨before, last, rfl⟩
  · exact Nat.zero_le 1
  · have hNone : (before.map fun parameter => (group aliases parameter false, parameter)).countP
        (·.1 == .trailingLambda) = 0 := by
      rw [List.countP_eq_zero, List.forall_mem_map]
      intro parameter _ hLambda
      have hBelow := rank_group_false aliases parameter
      rw [show group aliases parameter false = .trailingLambda from eq_of_beq hLambda] at hBelow
      exact Nat.lt_irrefl _ hBelow
    rw [List.concat_eq_append, grouped_concat, List.countP_append, hNone, Nat.zero_add]
    exact List.countP_le_length

/-- The suggested order is in order itself. Where it ends in another parameter than the declared
order, this one may become a trailing lambda, which is where it belongs. -/
theorem inOrder_expected : InOrder aliases (expected aliases parameters) := by
  have hPerm := sorted_perm aliases parameters
  have hOrder := pairwise_sorted aliases parameters
  have hCount := countP_trailingLambda_le aliases parameters
  have hExpected : expected aliases parameters = (sorted aliases parameters).map (·.2) := rfl
  rw [← hPerm.countP_eq] at hCount
  rw [hExpected, InOrder]
  rcases List.eq_nil_or_concat (sorted aliases parameters) with hNil | ⟨before, last, hSplit⟩
  · rw [hNil]
    exact .nil
  · rw [List.concat_eq_append] at hSplit
    rw [hSplit] at hPerm hOrder hCount ⊢
    rw [List.pairwise_append] at hOrder
    obtain ⟨hBefore, -, hLast⟩ := hOrder
    have hStill : ∀ entry ∈ before, group aliases entry.2 false = entry.1 := by
      intro entry hEntry
      obtain ⟨isLast, hGroup⟩ := mem_grouped aliases parameters
        (hPerm.subset (List.mem_append_left [last] hEntry))
      cases isLast with
      | false => exact hGroup.symm
      | true =>
          rcases group_true aliases entry.2 with hLambda | hSame
          · -- A trailing lambda before the last entry would be one of two.
            have hRank := hLast entry hEntry last (List.mem_singleton.mpr rfl)
            rw [hGroup, hLambda] at hRank
            have hFirst : 0 < before.countP (·.1 == .trailingLambda) :=
              List.countP_pos_iff.mpr ⟨entry, hEntry, by rw [hGroup, hLambda]; rfl⟩
            have hSecond : [last].countP (·.1 == .trailingLambda) = 1 := by
              rw [List.countP_singleton, Group.eq_trailingLambda hRank]
              rfl
            rw [List.countP_append] at hCount
            omega
          · rw [hGroup, hSame]
    have hGroups : (grouped aliases ((before ++ [last]).map (·.2))).map (·.1) =
        before.map (·.1) ++ [group aliases last.2 true] := by
      rw [List.map_append, List.map_singleton, grouped_concat, List.map_append, List.map_map,
        List.map_map, List.map_singleton]
      exact congrArg (· ++ _) (List.map_congr_left hStill)
    rw [hGroups, List.pairwise_append, List.pairwise_map]
    refine ⟨hBefore, List.pairwise_singleton .., ?_⟩
    intro first hFirst second hSecond
    obtain ⟨entry, hEntry, rfl⟩ := List.mem_map.mp hFirst
    rw [List.mem_singleton.mp hSecond]
    calc
      entry.1.rank ≤ last.1.rank := hLast entry hEntry last (List.mem_singleton.mpr rfl)
      _ ≤ (group aliases last.2 true).rank :=
        rank_le_group_true aliases parameters (hPerm.subset (by simp))

theorem remarks_check_eq_nil_iff (header : FunctionHeader) (site : Site) (fixing : Bool) :
    (check aliases ⟨.function header, site, fixing⟩).remarks = [] ↔
      InOrder aliases site.node.parameters := by
  rw [← map_path_expected_eq_iff aliases _ site.node.nodup_map_path_parameters]
  simp only [check]
  split
  · exact iff_of_true rfl ‹_›
  · exact iff_of_false (List.cons_ne_nil _ _) ‹_›

/-- The entries are the declared ones sorted by group: none is added or lost, the groups never go
down, and inside each group the declared order stays. -/
structure Sorts (declared entries : List (Group × Placed ParameterHeader)) : Prop where
  perm : entries.Perm declared
  ordered : (entries.map (·.1)).Pairwise fun first second => first.rank ≤ second.rank
  stable : ∀ chosen, entries.filter (·.1 == chosen) = declared.filter (·.1 == chosen)

/-- A function is reported exactly if the groups of its parameters are not in order, and then with
the names of its parameters as they are declared and as they are suggested. The suggested order is a
rearrangement of the parameters, sorted by group and otherwise as declared; and no function is reported
whose parameters are the same in the suggested order, in their headers and in which of them have a
default value. -/
theorem suggestion_sorts_and_settles (header : FunctionHeader) (site : Site) (fixing : Bool) :
    ((check aliases ⟨.function header, site, fixing⟩).remarks ≠ [] ↔
        ¬ InOrder aliases site.node.parameters) ∧
      (∀ remark ∈ (check aliases ⟨.function header, site, fixing⟩).remarks, remark.message =
          message site.node.parameters (expected aliases site.node.parameters) ∧
        ∃ lead, remark.message = lead ++ "Current order is (" ++
          String.intercalate ", " (site.node.parameters.map (·.header.name)) ++
          ") but should be (" ++ String.intercalate ", "
            ((expected aliases site.node.parameters).map (·.header.name)) ++ ").") ∧
      (expected aliases site.node.parameters).Perm site.node.parameters ∧
      (∃ entries, Sorts (grouped aliases site.node.parameters) entries ∧
        entries.map (·.2) = expected aliases site.node.parameters) ∧
      ∀ (other : Site) (otherHeader : FunctionHeader) (otherFixing : Bool),
        other.node.parameters.map (·.reading.2) =
            (expected aliases site.node.parameters).map (·.reading.2) →
          (check aliases ⟨.function otherHeader, other, otherFixing⟩).remarks = [] := by
  have hPerm := sorted_perm aliases site.node.parameters
  refine ⟨not_congr (remarks_check_eq_nil_iff ..), ?_, ?_, ⟨sorted aliases site.node.parameters,
    ⟨hPerm, ?_, filter_sorted aliases _⟩, rfl⟩, ?_⟩
  · intro remark hRemark
    simp only [check] at hRemark
    split at hRemark
    · cases hRemark
    · rw [List.mem_singleton.mp hRemark]
      exact ⟨rfl, _, rfl⟩
  · have hParameters := hPerm.map (·.2)
    rwa [map_snd_grouped] at hParameters
  · rw [List.pairwise_map]
    exact pairwise_sorted aliases _
  · intro other otherHeader otherFixing hSame
    rw [remarks_check_eq_nil_iff, InOrder, map_fst_grouped_congr aliases hSame]
    exact inOrder_expected aliases site.node.parameters

namespace Card

/-- A parameter with its type and default value. -/
def parameter (name typeName : String) (default? : Option String) : Node :=
  ⟨.parameter, ⟨0, 0⟩, .parameter ⟨name, typeName⟩,
    .leaf (name ++ ": " ++ typeName) :: (default?.map Node.defaultValue).toList⟩

/-- A function with two parameters. -/
def function (first second : Node) : Site :=
  let root : Node := ⟨.functionDeclaration, ⟨0, 0⟩, .function { name := "Card" },
    [.leaf "fun Card", ⟨.parameterList, ⟨0, 0⟩, .plain,
      [.leaf "(", first, .leaf ", ", second, .leaf ")"]⟩]⟩
  ⟨root, [], root⟩

/-- The lambda with a default value is not the last parameter. -/
def declared : Site :=
  function (parameter "onClick" "() -> Unit" (some "\x7b\x7d")) (parameter "title" "String" none)

/-- The same parameters the other way round. -/
def suggested : Site :=
  function (parameter "title" "String" none) (parameter "onClick" "() -> Unit" (some "\x7b\x7d"))

end Card

/-- In the suggested order the defaulted lambda becomes a trailing one. -/
theorem suggestion_sorts_and_settles_lambda :
    (check .empty ⟨.function { name := "Card" }, Card.declared, false⟩).remarks ≠ [] ∧
      (grouped .empty Card.declared.node.parameters).map (·.1) = [.defaulted, .required] ∧
      (grouped .empty Card.suggested.node.parameters).map (·.1) = [.required, .trailingLambda] ∧
      (check .empty ⟨.function { name := "Card" }, Card.suggested, false⟩).remarks = [] := by
  obtain ⟨hReported, -, -, -, hSettled⟩ :=
    suggestion_sorts_and_settles .empty { name := "Card" } Card.declared false
  refine ⟨hReported.mpr (by decide +kernel), by decide +kernel, by decide +kernel,
    hSettled Card.suggested { name := "Card" } false ?_⟩
  rw [expected_eq_flatMap]
  decide +kernel

end UiLint.ParameterOrder
