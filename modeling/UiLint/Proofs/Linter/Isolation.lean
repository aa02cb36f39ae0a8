import UiLint.Proofs.Engine.Thinning

/-! Rules do not notice one another unless they edit. The report of a run in which some rules edit
nothing is, for the other rules, the report of the run without them: the findings are numbered and
sorted otherwise, but in the same order. -/
namespace UiLint

theorem countP_take_lt {α : Type} {keep : α → Bool} {items : List α} {item : α} {i j : Nat}
    (hItem : items[i]? = some item) (hKeep : keep item = true) (hLess : i < j) :
    (items.take i).countP keep < (items.take j).countP keep := by
  obtain ⟨hIndex, rfl⟩ := List.getElem?_eq_some_iff.mp hItem
  have hMore := (List.take_sublist_take_left (l := items) (Nat.succ_le_of_lt hLess)).countP_le (p := keep)
  rw [List.take_succ_eq_append_getElem hIndex, List.countP_append, List.countP_singleton,
    if_pos hKeep] at hMore
  omega

/-- What increases at two places compares as the places do. -/
theorem order_iff_of_increasing {f : Nat → Nat} {i j : Nat} (hLess : i < j → f i < f j)
    (hMore : j < i → f j < f i) : (i < j ↔ f i < f j) ∧ (i = j ↔ f i = f j) := by
  rcases Nat.lt_trichotomy i j with hOrder | rfl | hOrder
  · have hImage := hLess hOrder
    omega
  · simp
  · have hImage := hMore hOrder
    omega

theorem rankIn_lt {keep : Nat → Bool} {i j : Nat} (hKeep : keep i = true) (hLess : i < j) :
    rankIn keep i < rankIn keep j := by
  have hItem : (List.range j)[i]? = some i := by simp [hLess]
  have hCount := countP_take_lt hItem hKeep hLess
  rwa [List.take_range, List.take_range, Nat.min_eq_left (Nat.le_of_lt hLess), Nat.min_self]
    at hCount

theorem rankIn_le (keep : Nat → Bool) (index more : Nat) :
    rankIn keep index ≤ rankIn keep (index + more) := by
  induction more with
  | zero => exact Nat.le_refl _
  | succ more ih =>
      refine Nat.le_trans ih ?_
      rw [← Nat.add_assoc]
      cases hKeep : keep (index + more) with
      | true => exact Nat.le_of_lt (rankIn_lt hKeep (Nat.lt_succ_self _))
      | false => exact Nat.le_of_eq (rankIn_succ_of_dropped hKeep).symm

namespace Finding

/-- Each finding bears the number of its place. -/
def Numbered (findings : List Finding) : Prop :=
  findings.map (·.sequence) = List.range findings.length

variable {findings : List Finding}

theorem Numbered.sequence_eq (h : Numbered findings) {place : Nat} {finding : Finding}
    (hFinding : findings[place]? = some finding) : finding.sequence = place := by
  obtain ⟨hPlace, rfl⟩ := List.getElem?_eq_some_iff.mp hFinding
  have hSequence := congrArg (·[place]?) h
  simpa [hPlace] using hSequence

theorem Numbered.push (h : Numbered findings) (rule : Nat) (remark : Remark) :
    Numbered (push findings rule remark) := by
  rw [Numbered] at h ⊢
  simp [Finding.push, h, List.range_succ]

theorem Numbered.pushAll (h : Numbered findings) (rule : Nat) (remarks : List Remark) :
    Numbered (pushAll findings rule remarks) := by
  induction remarks generalizing findings with
  | nil => exact h
  | cons remark remarks ih => exact ih (h.push rule remark)

theorem Numbered.fixFrom_moveAll (h : Numbered findings) (shifts : List Shift) (place : Nat) :
    Numbered (fixFrom (moveAll findings shifts) place) := by
  have hSame : (fixFrom (moveAll findings shifts) place).map (·.sequence) =
      findings.map (·.sequence) := by
    have hFix : ∀ findings : List Finding, (findings.map fix).map (·.sequence) =
        findings.map (·.sequence) := fun findings => by simp [fix, Function.comp_def]
    rw [fixFrom, List.map_append, hFix, ← List.map_append, List.take_append_drop, moveAll_eq]
    simp [moveThrough, Function.comp_def]
  have hLength : (fixFrom (moveAll findings shifts) place).length = findings.length := by
    simpa using congrArg List.length hSame
  rw [Numbered, hSame, h, hLength]

end Finding

/-- The findings of a run are numbered. -/
theorem Progress.numbered_runRules (rules : List ActiveRule) (tree : SourceTree) (fixing : Bool) :
    Finding.Numbered (runRules rules tree fixing).findings := by
  refine runRules_induction (P := fun progress => Finding.Numbered progress.findings) fixing ?_ rules
    (fun rule => List.mem_map_of_mem) tree rfl
  intro progress call hBefore _ _ _ _
  have hTold : Finding.Numbered (progress.tell call).findings := hBefore.pushAll _ _
  unfold take
  split
  · exact hTold.push _ _
  · split
    · exact hTold
    · unfold edit
      split
      · exact hTold.push _ _
      · exact hTold
      · split
        · exact hTold
        · exact hTold.fixFrom_moveAll _ _

namespace Linter

theorem keyLe_total (first second : List Nat) : (keyLe first second || keyLe second first) = true := by
  fun_induction keyLe first second with
  | case1 second => rfl
  | case2 i first => simp [keyLe]
  | case3 i first j second ih =>
      simp only [keyLe, Bool.or_eq_true, Bool.and_eq_true, decide_eq_true_eq, beq_iff_eq] at ih ⊢
      rcases Nat.lt_trichotomy i j with hLess | rfl | hMore
      · exact .inl (.inl hLess)
      · exact ih.imp (fun hLe => .inr ⟨rfl, hLe⟩) fun hLe => .inr ⟨rfl, hLe⟩
      · exact .inr (.inl hMore)

theorem keyLe_trans {first second third : List Nat} (hFirst : keyLe first second = true)
    (hSecond : keyLe second third = true) : keyLe first third = true := by
  induction first generalizing second third with
  | nil => rfl
  | cons i first ih =>
      cases second with
      | nil => cases hFirst
      | cons j second =>
          cases third with
          | nil => cases hSecond
          | cons k third =>
              simp only [keyLe, Bool.or_eq_true, Bool.and_eq_true, decide_eq_true_eq, beq_iff_eq]
                at hFirst hSecond ⊢
              rcases hFirst with hLess | ⟨rfl, hMore⟩
              · exact .inl (by omega)
              · exact hSecond.imp id fun hStill => ⟨hStill.1, ih hMore hStill.2⟩

theorem keyLe_antisymm {first second : List Nat} (hFirst : keyLe first second = true)
    (hSecond : keyLe second first = true) : first = second := by
  induction first generalizing second with
  | nil =>
      cases second with
      | nil => rfl
      | cons j second => cases hSecond
  | cons i first ih =>
      cases second with
      | nil => cases hFirst
      | cons j second =>
          simp only [keyLe, Bool.or_eq_true, Bool.and_eq_true, decide_eq_true_eq, beq_iff_eq]
            at hFirst hSecond
          obtain rfl : i = j := by omega
          rw [ih (by simpa using hFirst) (by simpa using hSecond)]

theorem pairwise_mergeSort (located : List (Text.Position × Finding)) :
    (located.mergeSort fun first second => keyLe (sortKey first) (sortKey second)).Pairwise
      fun first second => keyLe (sortKey first) (sortKey second) := by
  apply List.pairwise_mergeSort
  · exact fun _ _ _ => keyLe_trans
  · exact fun _ _ => keyLe_total _ _

/-- If no two items have one key, there is only one way to sort them. -/
theorem mergeSort_eq_of_perm {located : List (Text.Position × Finding)}
    (sorted : List (Text.Position × Finding))
    (hKeys : ∀ first ∈ located, ∀ second ∈ located, sortKey first = sortKey second → first = second)
    (hSorted : sorted.Pairwise fun first second => keyLe (sortKey first) (sortKey second) = true)
    (hPerm : sorted.Perm located) :
    located.mergeSort (fun first second => keyLe (sortKey first) (sortKey second)) = sorted := by
  refine List.Perm.eq_of_pairwise ?_ (pairwise_mergeSort located) hSorted
    ((List.mergeSort_perm ..).trans hPerm.symm)
  intro first second hFirst hSecond hLe hGe
  exact hKeys first (List.mem_mergeSort.mp hFirst) second (hPerm.subset hSecond)
    (keyLe_antisymm hLe hGe)

/-- Leaving out items and then sorting is the same as sorting first, if no two items have one
key. -/
theorem mergeSort_filter {located : List (Text.Position × Finding)}
    (hKeys : ∀ first ∈ located, ∀ second ∈ located, sortKey first = sortKey second → first = second)
    (keep : Text.Position × Finding → Bool) :
    (located.filter keep).mergeSort (fun first second => keyLe (sortKey first) (sortKey second)) =
      (located.mergeSort fun first second => keyLe (sortKey first) (sortKey second)).filter keep := by
  apply mergeSort_eq_of_perm
  · intro first hFirst second hSecond
    exact hKeys first (List.mem_filter.mp hFirst).1 second (List.mem_filter.mp hSecond).1
  · exact (pairwise_mergeSort located).filter keep
  · exact (List.mergeSort_perm ..).filter keep

end Linter

/-- The located finding under the numbers that it has where some rules are left out. -/
def Linter.renumber (keep : Nat → Bool) (findings : List Finding)
    (located : Text.Position × Finding) : Text.Position × Finding :=
  (located.1, located.2.renumber (rankIn keep located.2.rule)
    ((findings.take located.2.sequence).countP fun finding => keep finding.rule))

namespace Finding

variable {findings : List Finding} (keep : Nat → Bool)

/-- With numbered findings, the new number of a finding is told from its old one. -/
theorem thinFrom_eq_map (h : Numbered findings) :
    thinFrom keep 0 findings = (findings.filter fun finding => keep finding.rule).map fun finding =>
      finding.renumber (rankIn keep finding.rule)
        ((findings.take finding.sequence).countP fun finding => keep finding.rule) := by
  -- Along the findings, those done so far are counted.
  have hAll : ∀ done rest : List Finding, done ++ rest = findings →
      thinFrom keep (done.countP fun finding => keep finding.rule) rest =
        (rest.filter fun finding => keep finding.rule).map fun finding =>
          finding.renumber (rankIn keep finding.rule)
            ((findings.take finding.sequence).countP fun finding => keep finding.rule) := by
    intro done rest
    induction rest generalizing done with
    | nil => exact fun _ => rfl
    | cons finding rest ih =>
        intro hWhole
        have hFinding : findings[done.length]? = some finding := by rw [← hWhole]; simp
        have hSequence := h.sequence_eq hFinding
        have hTake : findings.take finding.sequence = done := by
          rw [hSequence, ← hWhole, List.take_left']
          rfl
        have hRest := ih (done ++ [finding]) (by rw [List.append_assoc]; exact hWhole)
        rw [List.countP_append, List.countP_singleton] at hRest
        cases hKeep : keep finding.rule with
        | true =>
            rw [hKeep, if_pos rfl] at hRest
            rw [List.filter_cons_of_pos (by exact hKeep), List.map_cons, hTake, ← hRest, thinFrom,
              List.filter_cons_of_pos (by exact hKeep), List.zipIdx_cons, List.map_cons, thinFrom]
        | false =>
            rw [hKeep] at hRest
            rw [List.filter_cons_of_neg (by simp [hKeep]), ← hRest, thinFrom,
              List.filter_cons_of_neg (by simp [hKeep]), thinFrom]
            rfl
  exact hAll [] findings rfl

end Finding

namespace Linter

variable {findings : List Finding} (keep : Nat → Bool)

/-- The new numbers sort as the old ones did. -/
theorem keyLe_renumber (h : Finding.Numbered findings) {first second : Text.Position × Finding}
    (hFirst : first.2 ∈ findings) (hKeepFirst : keep first.2.rule = true)
    (hSecond : second.2 ∈ findings) (hKeepSecond : keep second.2.rule = true) :
    keyLe (sortKey first) (sortKey second) =
      keyLe (sortKey (renumber keep findings first)) (sortKey (renumber keep findings second)) := by
  obtain ⟨i, hI⟩ := List.getElem?_of_mem hFirst
  obtain ⟨j, hJ⟩ := List.getElem?_of_mem hSecond
  have hRules := order_iff_of_increasing (f := rankIn keep)
    (rankIn_lt hKeepFirst (j := second.2.rule)) (rankIn_lt hKeepSecond (j := first.2.rule))
  have hSequences := order_iff_of_increasing
    (f := fun i => (findings.take i).countP fun finding => keep finding.rule)
    (i := i) (j := j) (countP_take_lt hI hKeepFirst) (countP_take_lt hJ hKeepSecond)
  simp only [sortKey, renumber, Finding.renumber, keyLe, h.sequence_eq hI, h.sequence_eq hJ]
  simp [hRules, hSequences, Bool.beq_eq_decide_eq]

/-- The findings of the rules that are kept are sorted as they are among all findings. -/
theorem locate_thinFrom (h : Finding.Numbered findings) (text : String) :
    locate text (Finding.thinFrom keep 0 findings) =
      ((locate text findings).filter fun located => keep located.2.rule).map
        (renumber keep findings) := by
  have hKeys : ∀ first ∈ findings.map fun finding =>
      ((Text.LineIndex.ofText text).position finding.offset, finding),
      ∀ second ∈ findings.map fun finding =>
        ((Text.LineIndex.ofText text).position finding.offset, finding),
      sortKey first = sortKey second → first = second := by
    intro first hFirst second hSecond hKey
    obtain ⟨one, hOne, rfl⟩ := List.mem_map.mp hFirst
    obtain ⟨two, hTwo, rfl⟩ := List.mem_map.mp hSecond
    obtain ⟨i, hI⟩ := List.getElem?_of_mem hOne
    obtain ⟨j, hJ⟩ := List.getElem?_of_mem hTwo
    have hSame : one.sequence = two.sequence := by
      simp only [sortKey, List.cons.injEq] at hKey
      exact hKey.2.2.2.1
    rw [h.sequence_eq hI, h.sequence_eq hJ] at hSame
    rw [hSame, hJ] at hI
    cases hI
    rfl
  rw [locate, locate, ← mergeSort_filter hKeys, List.map_mergeSort, List.filter_map, List.map_map,
    Finding.thinFrom_eq_map keep h, List.map_map]
  · rfl
  · intro first hFirst second hSecond
    obtain ⟨hFirst, hKeepFirst⟩ := List.mem_filter.mp hFirst
    obtain ⟨hSecond, hKeepSecond⟩ := List.mem_filter.mp hSecond
    obtain ⟨one, hOne, rfl⟩ := List.mem_map.mp hFirst
    obtain ⟨two, hTwo, rfl⟩ := List.mem_map.mp hSecond
    exact keyLe_renumber keep h hOne hKeepFirst hTwo hKeepSecond

end Linter

/-- The rules that are kept, of which the first has the given index. -/
def keptFrom (keep : Nat → Bool) (index : Nat) (rules : List Rule) : List Rule :=
  ((rules.zipIdx index).filter fun entry => keep entry.2).map (·.1)

theorem keptFrom_cons (keep : Nat → Bool) (index : Nat) (rule : Rule) (rules : List Rule) :
    keptFrom keep index (rule :: rules) =
      if keep index then rule :: keptFrom keep (index + 1) rules
      else keptFrom keep (index + 1) rules := by
  rw [keptFrom, List.zipIdx_cons, List.filter_cons]
  split <;> rfl

theorem keptFrom_append (keep : Nat → Bool) (index : Nat) (first second : List Rule) :
    keptFrom keep index (first ++ second) =
      keptFrom keep index first ++ keptFrom keep (index + first.length) second := by
  simp [keptFrom, List.zipIdx_append]

theorem keptFrom_of_kept {keep : Nat → Bool} {index : Nat} {rules : List Rule}
    (hKeep : ∀ place < rules.length, keep (index + place) = true) :
    keptFrom keep index rules = rules := by
  induction rules generalizing index with
  | nil => rfl
  | cons rule rules ih =>
      have hHere := hKeep 0 (Nat.succ_pos _)
      rw [keptFrom_cons, if_pos (by simpa using hHere), ih]
      intro place hPlace
      have hLater := hKeep (place + 1) (Nat.succ_lt_succ hPlace)
      rwa [Nat.add_assoc, Nat.add_comm 1]

theorem keptFrom_of_dropped {keep : Nat → Bool} {index : Nat} {rules : List Rule}
    (hDrop : ∀ place < rules.length, keep (index + place) = false) :
    keptFrom keep index rules = [] := by
  induction rules generalizing index with
  | nil => rfl
  | cons rule rules ih =>
      have hHere := hDrop 0 (Nat.succ_pos _)
      rw [keptFrom_cons, if_neg (by simpa using hHere), ih]
      intro place hPlace
      have hLater := hDrop (place + 1) (Nat.succ_lt_succ hPlace)
      rwa [Nat.add_assoc, Nat.add_comm 1]

/-- A rule that is kept is found under its place among those that are kept. -/
theorem getElem?_keptFrom {keep : Nat → Bool} {index place : Nat}
    (hKeep : keep (index + place) = true) (rules : List Rule) :
    (keptFrom keep index rules)[rankIn keep (index + place) - rankIn keep index]? = rules[place]? := by
  induction rules generalizing index place with
  | nil => rfl
  | cons rule rules ih =>
      rw [keptFrom_cons]
      cases place with
      | zero =>
          rw [if_pos (by exact hKeep), show rankIn keep (index + 0) - rankIn keep index = 0 from
            Nat.sub_self _]
          rfl
      | succ place =>
          have hNext : index + (place + 1) = index + 1 + place := by omega
          rw [hNext] at hKeep ⊢
          have hRest := ih hKeep
          rw [List.getElem?_cons_succ, ← hRest]
          cases hHere : keep index with
          | true =>
              have hLe := rankIn_le keep (index + 1) place
              rw [rankIn_succ_of_kept hHere] at hLe ⊢
              rw [if_pos rfl, show rankIn keep (index + 1 + place) - rankIn keep index =
                rankIn keep (index + 1 + place) - (rankIn keep index + 1) + 1 by omega,
                List.getElem?_cons_succ]
          | false =>
              rw [rankIn_succ_of_dropped hHere]
              rfl

namespace Linter

variable {findings : List Finding} {keep : Nat → Bool}

/-- A rule starts in the same way whatever its place is. -/
theorem startRule_of_index {config : Config} {rule : Rule} {index : Nat} {active : ActiveRule}
    (hActive : startRule config rule index = .ok active) (other : Nat) :
    startRule config rule other = .ok { active with index := other } ∧ active.index = index := by
  obtain ⟨options, visitor, hOptions, hVisitor, rfl⟩ := startRule_eq_ok hActive
  exact ⟨by simp only [startRule, hOptions, hVisitor], rfl⟩

/-- If all rules can be started, so can those that are kept. -/
theorem startFrom_keptFrom {config : Config} {index : Nat} {rules : List Rule}
    {active : List ActiveRule} (hActive : startFrom config index rules = .ok active) :
    startFrom config (rankIn keep index) (keptFrom keep index rules) =
      .ok (ActiveRule.thin keep active) := by
  induction rules generalizing index active with
  | nil =>
      cases hActive
      rfl
  | cons rule rules ih =>
      rw [keptFrom_cons]
      rcases startFrom_cons hActive with
        ⟨hDisabled, hRest⟩ | ⟨first, others, hEnabled, hFirst, hRest, rfl⟩
      · have hOthers := ih hRest
        cases hKeep : keep index with
        | true =>
            rw [rankIn_succ_of_kept hKeep] at hOthers
            rw [if_pos rfl, startFrom, if_neg (by simp [hDisabled]), hOthers]
        | false =>
            rw [rankIn_succ_of_dropped hKeep] at hOthers
            exact hOthers
      · have hOthers := ih hRest
        obtain ⟨hStart, hIndex⟩ := startRule_of_index hFirst (rankIn keep index)
        cases hKeep : keep index with
        | true =>
            rw [rankIn_succ_of_kept hKeep] at hOthers
            rw [if_pos rfl, startFrom, if_pos hEnabled, hStart, hOthers,
              ActiveRule.thin_cons_of_kept (by rwa [hIndex]), hIndex]
        | false =>
            rw [rankIn_succ_of_dropped hKeep] at hOthers
            rw [ActiveRule.thin_cons_of_dropped (by rwa [hIndex])]
            exact hOthers

/-- The violations that findings in a text amount to, in order, each with the place of the rule
that found it. -/
def attributed (linter : Linter) (text : String) (findings : List Finding) : List (Nat × Violation) :=
  (locate text findings).filterMap fun located =>
    linter.rules[located.2.rule]?.map fun rule =>
      (located.2.rule, violation linter.config rule located)

theorem violations_eq_map (linter : Linter) (text : String) (findings : List Finding) :
    linter.violations text findings = (linter.attributed text findings).map (·.2) := by
  simp [violations, attributed, List.map_filterMap, Function.comp_def]

/-- The linter with the rules that are kept. -/
def thin (keep : Nat → Bool) (linter : Linter) : Linter :=
  { linter with rules := keptFrom keep 0 linter.rules }

/-- What findings amount to for the rules that are kept, whether or not the others are there. -/
theorem violations_thin (h : Finding.Numbered findings) (linter : Linter) (text : String) :
    (linter.thin keep).violations text (Finding.thinFrom keep 0 findings) =
      ((linter.attributed text findings).filter fun entry => keep entry.1).map (·.2) := by
  rw [violations, locate_thinFrom keep h, List.filterMap_map, attributed]
  generalize locate text findings = items
  induction items with
  | nil => rfl
  | cons located items ih =>
      cases hKeep : keep located.2.rule with
      | true =>
          have hRule : (keptFrom keep 0 linter.rules)[rankIn keep located.2.rule]? =
              linter.rules[located.2.rule]? := by
            have hHere : keep (0 + located.2.rule) = true := by rwa [Nat.zero_add]
            have hAll := getElem?_keptFrom hHere linter.rules
            rwa [Nat.zero_add] at hAll
          rw [List.filter_cons_of_pos (by exact hKeep), List.filterMap_cons, List.filterMap_cons, ih]
          simp only [Function.comp_apply, renumber, Finding.renumber, thin, hRule]
          cases linter.rules[located.2.rule]? with
          | none => rfl
          | some rule =>
              rw [Option.map_some, Option.map_some, List.filter_cons_of_pos (by exact hKeep),
                List.map_cons]
              rfl
      | false =>
          rw [List.filter_cons_of_neg (by simp [hKeep]), ih, List.filterMap_cons]
          cases linter.rules[located.2.rule]? with
          | none => rfl
          | some rule => simp [hKeep]

/-- The violations of a run over a file in the order of the report, each with the place of the rule
that found it. -/
def byRule (linter : Linter) (file : SourceFile) (fixing : Bool) : List (Nat × Violation) :=
  match linter.start with
  | .error _ => []
  | .ok rules =>
      let progress := runRules rules file.tree fixing
      linter.attributed progress.tree.text progress.findings

theorem byRule_eq {linter : Linter} {rules : List ActiveRule} (hRules : linter.start = .ok rules)
    (file : SourceFile) (fixing : Bool) :
    linter.byRule file fixing = linter.attributed (runRules rules file.tree fixing).tree.text
      (runRules rules file.tree fixing).findings := by
  rw [byRule, hRules]

/-- A violation bears the name of the rule that found it. -/
theorem exists_rule_of_mem_byRule {linter : Linter} {file : SourceFile} {fixing : Bool}
    {entry : Nat × Violation} (hEntry : entry ∈ linter.byRule file fixing) :
    ∃ rule, linter.rules[entry.1]? = some rule ∧ entry.2.rule = rule.name := by
  unfold byRule at hEntry
  split at hEntry
  · cases hEntry
  · obtain ⟨located, -, hFound⟩ := List.mem_filterMap.mp hEntry
    obtain ⟨rule, hRule, rfl⟩ := Option.map_eq_some_iff.mp hFound
    exact ⟨rule, hRule, rfl⟩

/-- Where no other rule has the name of a rule, its violations are those with that name. -/
theorem index_ne_iff_name_ne {before after : List Rule} {rule : Rule} {config : Config}
    {workers : Option Nat} (hNames : ∀ other ∈ before ++ after, other.name ≠ rule.name)
    {file : SourceFile} {fixing : Bool} {entry : Nat × Violation}
    (hEntry : entry ∈ byRule ⟨before ++ rule :: after, config, workers⟩ file fixing) :
    (entry.1 != before.length) = (entry.2.rule != rule.name) := by
  obtain ⟨found, hFound, hName⟩ := exists_rule_of_mem_byRule hEntry
  rw [hName]
  by_cases hHere : entry.1 = before.length
  · obtain rfl : found = rule := by simpa [hHere] using hFound.symm
    simp [hHere]
  · have hOther : found ∈ before ++ after := by
      rw [List.getElem?_append] at hFound
      split at hFound
      · exact List.mem_append_left _ (List.mem_of_getElem? hFound)
      · obtain ⟨later, hLater⟩ : ∃ later, entry.1 - before.length = later + 1 :=
          ⟨entry.1 - before.length - 1, by omega⟩
        rw [hLater, List.getElem?_cons_succ] at hFound
        exact List.mem_append_right _ (List.mem_of_getElem? hFound)
    rw [bne_iff_ne.mpr hHere, bne_iff_ne.mpr (hNames found hOther)]

/-- A run with some of the rules, told from the run with all of them, if the others edit nothing. -/
theorem run_thin (keep : Nat → Bool) {linter : Linter} {rules : List ActiveRule}
    (hRules : linter.start = .ok rules) (file : SourceFile) {fixing : Bool}
    (hNothing : ∀ call ∈ (runRules rules file.tree fixing).calls,
      keep call.rule = false → call.EditsNothing) :
    (linter.thin keep).run file fixing =
      .ok ⟨⟨file.path, ((linter.byRule file fixing).filter fun entry => keep entry.1).map (·.2),
        (runRules rules file.tree fixing).aborted⟩, (runRules rules file.tree fixing).tree⟩ := by
  have hStart : (linter.thin keep).start = .ok (ActiveRule.thin keep rules) :=
    startFrom_keptFrom hRules
  rw [run_eq_ok hStart, runRules_thin hNothing, byRule_eq hRules,
    ← violations_thin (Progress.numbered_runRules rules file.tree fixing)]
  rfl

/-- A run that does not fix edits nothing. -/
theorem editsNothing_of_lint (rules : List ActiveRule) (tree : SourceTree) :
    ∀ call ∈ (runRules rules tree false).calls, call.EditsNothing := by
  refine runRules_induction (P := fun progress => ∀ call ∈ progress.calls, call.EditsNothing) false ?_
    rules (fun rule => List.mem_map_of_mem) tree (by simp)
  intro progress call hBefore _ hFixing _ _
  rw [Progress.calls_take, List.forall_mem_append, List.forall_mem_singleton]
  exact ⟨hBefore, .inr (.inl (by rw [Call.edits, hFixing]; rfl))⟩

/-- The linter without one of its rules. -/
theorem thin_without (before : List Rule) (rule : Rule) (after : List Rule) (config : Config)
    (workers : Option Nat) :
    thin (· != before.length) ⟨before ++ rule :: after, config, workers⟩ =
      ⟨before ++ after, config, workers⟩ := by
  have hRules : keptFrom (· != before.length) 0 (before ++ rule :: after) = before ++ after := by
    rw [keptFrom_append, keptFrom_cons, Nat.zero_add, if_neg (by simp), keptFrom_of_kept,
      keptFrom_of_kept]
    · intro place _
      simp only [bne_iff_ne]
      omega
    · intro place hPlace
      simp only [bne_iff_ne]
      omega
  rw [thin, hRules]

/-- The linter with one of its rules only. -/
theorem thin_only {linter : Linter} {place : Nat} {rule : Rule}
    (hRule : linter.rules[place]? = some rule) :
    linter.thin (· == place) = { linter with rules := [rule] } := by
  obtain ⟨hPlace, rfl⟩ := List.getElem?_eq_some_iff.mp hRule
  have hSplit : linter.rules = linter.rules.take place ++
      linter.rules[place] :: linter.rules.drop (place + 1) := by simp
  have hLength : (linter.rules.take place).length = place := List.length_take_of_le (Nat.le_of_lt hPlace)
  have hRules : keptFrom (· == place) 0 linter.rules = [linter.rules[place]] := by
    refine (congrArg (keptFrom _ 0) hSplit).trans ?_
    rw [keptFrom_append, keptFrom_cons, Nat.zero_add, hLength, if_pos (by simp),
      keptFrom_of_dropped, keptFrom_of_dropped, List.nil_append]
    · intro later _
      simp only [beq_eq_false_iff_ne]
      omega
    · intro earlier hEarlier
      simp only [beq_eq_false_iff_ne]
      omega
  rw [thin, hRules]

/-- A rule that makes no edit in a run, wherever it is registered and whatever else it does, is not
noticed by the other rules: the run without it ends in the same tree, and reports their violations
as they are reported with it, in the same order. So in a run that does not fix, where no rule makes
an edit, the violations of each rule are those that it reports on its own. -/
theorem run_without_idle {before after : List Rule} {idle : Rule} {config : Config}
    {workers : Option Nat} {active : List ActiveRule}
    (hStart : start ⟨before ++ idle :: after, config, workers⟩ = .ok active) (file : SourceFile)
    (fixing : Bool) (hIdle : ∀ call ∈ (runRules active file.tree fixing).calls,
      call.rule = before.length → call.EditsNothing) :
    (∃ joint rest, run ⟨before ++ idle :: after, config, workers⟩ file fixing = .ok joint ∧
      run ⟨before ++ after, config, workers⟩ file fixing = .ok rest ∧
      rest.tree = joint.tree ∧ rest.report.aborted = joint.report.aborted ∧
      joint.report.violations =
        (byRule ⟨before ++ idle :: after, config, workers⟩ file fixing).map (·.2) ∧
      rest.report.violations =
        ((byRule ⟨before ++ idle :: after, config, workers⟩ file fixing).filter
          (·.1 != before.length)).map (·.2) ∧
      ((∀ rule ∈ before ++ after, rule.name ≠ idle.name) →
        rest.report.violations = joint.report.violations.filter (·.rule != idle.name))) ∧
    ∃ joint, lint ⟨before ++ idle :: after, config, workers⟩ file = .ok joint ∧
      joint.violations = (byRule ⟨before ++ idle :: after, config, workers⟩ file false).map (·.2) ∧
      ∀ place rule, (before ++ idle :: after)[place]? = some rule →
        ∃ alone, lint ⟨[rule], config, workers⟩ file = .ok alone ∧
          alone.violations =
            ((byRule ⟨before ++ idle :: after, config, workers⟩ file false).filter
              (·.1 == place)).map (·.2) := by
  constructor
  · have hRest := run_thin (· != before.length) hStart file
      fun call hCall hDrop => hIdle call hCall (by simpa using hDrop)
    rw [thin_without] at hRest
    refine ⟨_, _, run_eq_ok hStart file fixing, hRest, rfl, rfl, ?_, rfl, fun hNames => ?_⟩
    · rw [byRule_eq hStart, ← violations_eq_map]
    · rw [violations_eq_map, ← byRule_eq hStart, List.filter_map]
      exact congrArg (List.map (·.2)) (List.filter_congr fun entry hEntry =>
        index_ne_iff_name_ne hNames hEntry)
  · refine ⟨_, by rw [lint, run_eq_ok hStart]; rfl, ?_, fun place rule hRule => ?_⟩
    · rw [byRule_eq hStart, ← violations_eq_map]
    · have hAlone := run_thin (· == place) hStart file
        fun call hCall _ => editsNothing_of_lint active file.tree call hCall
      rw [thin_only hRule] at hAlone
      exact ⟨_, by rw [lint, hAlone]; rfl, rfl⟩

end Linter

namespace Noisy

/-- The tree of `fun f(a: A)class T`, with a body in which there is nothing. -/
def tree : SourceTree :=
  ⟨Node.layout 0 ⟨.file, ⟨0, 0⟩, .file {},
    [⟨.functionDeclaration, ⟨0, 0⟩, .function { name := "f" },
      [.leaf "fun f", ⟨.parameterList, ⟨0, 0⟩, .plain,
        [.leaf "(", ⟨.parameter, ⟨0, 0⟩, .parameter ⟨"a", "A"⟩, [.leaf "a: A"]⟩, .leaf ")"]⟩,
        .bare .body .plain]⟩,
      ⟨.typeDeclaration, ⟨0, 0⟩, .type { name := "T" }, [.leaf "class T"]⟩]⟩⟩

/-- A rule that gives the first parameter a default value. -/
def complete : Rule := Script.RuleScript.rule
  { name := "complete", code := "C"
    entries := [{ hook := .function, actions := [.report "lacks" (.node (.parameter 0)) true,
      .setDefault "A()" (.parameter 0)] }] }

/-- A rule that crashes for files, asks for the impossible for functions and fails for types. -/
def noisy : Rule := Script.RuleScript.rule
  { name := "noisy", code := "N"
    entries := [{ hook := .file, actions := [.report "file" (.offset 0) false, .crash none] },
      { hook := .function, actions := [.report "function" (.node .self) true,
        .replaceLastToken "x" (.below [2])] },
      { hook := .type, actions := [.fail "type"] }] }

/-- A rule that counts its calls. -/
def count : Rule := Script.RuleScript.rule
  { name := "count", code := "K"
    entries := [{ hook := .function, actions := [.report "\x7bn\x7d" (.node .self) false] },
      { hook := .type, actions := [.report "\x7bn\x7d" (.node .self) false] }] }

end Noisy

/-- A rule that fails in three ways, between two others of which the first edits. -/
theorem Linter.run_without_idle_noisy :
    ∃ joint rest,
      Linter.run ⟨[Noisy.complete, Noisy.noisy, Noisy.count], {}, none⟩ ⟨"f", Noisy.tree⟩ true =
        .ok joint ∧
      Linter.run ⟨[Noisy.complete, Noisy.count], {}, none⟩ ⟨"f", Noisy.tree⟩ true = .ok rest ∧
      rest.tree = joint.tree ∧ joint.source = "fun f(a: A = A())class T" ∧
      rest.report.violations = joint.report.violations.filter (·.rule != "noisy") ∧
      rest.report.violations.map (fun found => (found.rule, found.message, found.location.offset,
        found.autoFixed)) =
          [("count", "2", 0, false), ("complete", "lacks", 6, true), ("count", "3", 17, false)] ∧
      ∃ found ∈ joint.report.violations, found.rule = "noisy" ∧ found.message = "function" := by
  have hStart : Linter.start ⟨[Noisy.complete] ++ Noisy.noisy :: [Noisy.count], {}, none⟩ = .ok _ :=
    rfl
  obtain ⟨⟨joint, rest, hJoint, hRest, hSame, -, -, -, hNames⟩, -⟩ :=
    Linter.run_without_idle hStart ⟨"f", Noisy.tree⟩ true (by decide +kernel)
  refine ⟨joint, rest, hJoint, hRest, hSame, ?_, hNames (by decide), ?_, ?_⟩
  · cases hJoint
    decide +kernel
  · cases hRest
    change List.map _ (List.filterMap _ (List.mergeSort _ _)) = _
    rw [Linter.mergeSort_eq_of_perm
      [(⟨1, 1⟩, ⟨0, 1, 1, "2", false, false⟩), (⟨1, 7⟩, ⟨6, 0, 0, "lacks", true, true⟩),
        (⟨1, 18⟩, ⟨17, 1, 2, "3", false, false⟩)]]
    · rfl
    all_goals decide +kernel
  · cases hJoint
    refine ⟨_, Linter.mem_violations.mpr ⟨⟨0, 1, 3, "function", true, false⟩, ?_, Noisy.noisy, rfl,
      rfl⟩, rfl, rfl⟩
    decide +kernel

end UiLint
