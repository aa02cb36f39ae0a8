import UiLint.Proofs.Engine.RunLayout

/-! What a call does to the findings of a run: the old ones are moved and otherwise kept, the
new ones follow them in order, and are fixed if the call changed anything. -/
namespace UiLint

namespace Shift

/-- Where a shift takes an offset. -/
def carry (shift : Shift) (offset : Nat) : Nat :=
  if shift.start ≤ offset then moveOffsetWithin offset shift.distance else offset

/-- Where several shifts take an offset, one after the other. -/
def carryAll (shifts : List Shift) (offset : Nat) : Nat :=
  shifts.foldl (fun offset shift => shift.carry offset) offset

theorem carryAll_append (first second : List Shift) (offset : Nat) :
    carryAll (first ++ second) offset = carryAll second (carryAll first offset) :=
  List.foldl_append

end Shift

namespace Finding

/-- The finding after several shifts. -/
def moveThrough (shifts : List Shift) (finding : Finding) : Finding :=
  { finding with offset := Shift.carryAll shifts finding.offset }

/-- The findings that the remarks of a rule become, of which the first has the given place. -/
def ofRemarks (rule place : Nat) (remarks : List Remark) : List Finding :=
  (remarks.zipIdx place).map fun entry =>
    ⟨entry.1.offset, rule, entry.2, entry.1.message, entry.1.fixable, false⟩

theorem pushAll_eq (findings : List Finding) (rule : Nat) (remarks : List Remark) :
    pushAll findings rule remarks = findings ++ ofRemarks rule findings.length remarks := by
  induction remarks generalizing findings with
  | nil => simp [pushAll, ofRemarks]
  | cons remark remarks ih =>
      have hStep := ih (push findings rule remark)
      simp only [pushAll, List.foldl_cons] at hStep ⊢
      rw [hStep]
      simp [push, ofRemarks]

theorem moveAll_eq (findings : List Finding) (shifts : List Shift) :
    moveAll findings shifts = findings.map (moveThrough shifts) := by
  induction shifts generalizing findings with
  | nil => exact (List.map_id findings).symm
  | cons shift shifts ih =>
      have hMove : ∀ finding, moveThrough shifts (move shift finding) =
          moveThrough (shift :: shifts) finding := by
        intro finding
        have hCarry : move shift finding = { finding with offset := shift.carry finding.offset } := by
          unfold move Shift.carry
          split <;> rfl
        rw [hCarry]
        rfl
      have hStep := ih (findings.map (move shift))
      simp only [moveAll, List.foldl_cons] at hStep ⊢
      rw [hStep, List.map_map]
      exact List.map_congr_left fun finding _ => hMove finding

theorem fixFrom_append (first second : List Finding) :
    fixFrom (first ++ second) first.length = first ++ second.map fix := by
  simp [fixFrom]

theorem fixable_of_mem_ofRemarks {rule place : Nat} {remarks : List Remark} {finding : Finding}
    (hFinding : finding ∈ ofRemarks rule place remarks) :
    ∃ remark ∈ remarks, finding.fixable = remark.fixable := by
  obtain ⟨entry, hEntry, rfl⟩ := List.mem_map.mp hFinding
  exact ⟨entry.1, List.fst_mem_of_mem_zipIdx hEntry, rfl⟩

end Finding

namespace Progress

variable {progress : Progress} {call : Call}

theorem findings_tell (progress : Progress) (call : Call) :
    (progress.tell call).findings = progress.findings ++
      Finding.ofRemarks call.rule progress.findings.length call.response.remarks :=
  Finding.pushAll_eq ..

/-- A call that changes its node moves all findings and fixes its own. -/
theorem Sound.findings_take_of_draft {next : Node} (h : progress.Sound) (hAt : call.IsAt progress)
    (hFits : call.Fits) (hNext : call.draft? = some next) :
    (progress.take call).findings =
      progress.findings.map (Finding.moveThrough (Edit.shifts call.site.node call.edits)) ++
        ((Finding.ofRemarks call.rule progress.findings.length call.response.remarks).map
          (Finding.moveThrough (Edit.shifts call.site.node call.edits))).map Finding.fix := by
  have hLength : (progress.findings.map (Finding.moveThrough
      (Edit.shifts call.site.node call.edits))).length = progress.findings.length := by simp
  rw [h.take_of_draft hAt hFits hNext]
  simp only [findings_tell, Finding.moveAll_eq, List.map_append]
  rw [← Finding.fixFrom_append, hLength]

/-- A call that does not change its node keeps all findings, and may add that it failed. -/
theorem Sound.findings_take_of_no_draft (h : progress.Sound) (hAt : call.IsAt progress)
    (hFits : call.Fits) (hNone : call.draft? = none) :
    ∃ failures : List Finding, (∀ failure ∈ failures, failure.fixable = false) ∧
      (progress.take call).findings = progress.findings ++
        Finding.ofRemarks call.rule progress.findings.length call.response.remarks ++ failures := by
  rcases h.take_of_no_draft hAt hFits hNone with hTake | ⟨detail, hTake⟩
  · refine ⟨[], by simp, ?_⟩
    rw [hTake, findings_tell, List.append_nil]
  · rw [hTake]
    simp only [fail, Finding.push, findings_tell]
    exact ⟨_, by simp, rfl⟩

/-- Every finding so far is that of one of the rules. -/
def OfRules (indices : List Nat) (progress : Progress) : Prop :=
  ∀ finding ∈ progress.findings, finding.rule ∈ indices

namespace OfRules

variable {indices : List Nat} (h : progress.OfRules indices)
include h

theorem fail {rule : Nat} (hRule : rule ∈ indices) (offset : Nat) (detail : String) :
    (progress.fail rule offset detail).OfRules indices := by
  intro finding hFinding
  rcases List.mem_append.mp hFinding with hOld | hNew
  · exact h finding hOld
  · rw [List.mem_singleton.mp hNew]
    exact hRule

theorem tell (hRule : call.rule ∈ indices) : (progress.tell call).OfRules indices := by
  intro finding hFinding
  rw [findings_tell, List.mem_append] at hFinding
  rcases hFinding with hOld | hNew
  · exact h finding hOld
  · obtain ⟨entry, -, rfl⟩ := List.mem_map.mp hNew
    exact hRule

theorem edit {rule : Nat} (hRule : rule ∈ indices) (site : Site) (edits : List Edit)
    (place : Nat) : (progress.edit rule site edits place).OfRules indices := by
  unfold Progress.edit
  split
  · exact h.fail hRule _ _
  · exact h
  · split
    · exact h
    · intro finding hFinding
      simp only [Finding.fixFrom, Finding.moveAll_eq, List.mem_append] at hFinding
      rcases hFinding with hOld | hNew
      · obtain ⟨old, hMember, rfl⟩ := List.mem_map.mp (List.mem_of_mem_take hOld)
        exact h old hMember
      · obtain ⟨moved, hMoved, rfl⟩ := List.mem_map.mp hNew
        obtain ⟨old, hMember, rfl⟩ := List.mem_map.mp (List.mem_of_mem_drop hMoved)
        exact h old hMember

theorem take (hRule : call.rule ∈ indices) : (progress.take call).OfRules indices := by
  unfold Progress.take
  split
  · exact (h.tell hRule).fail hRule _ _
  · split
    · exact h.tell hRule
    · exact (h.tell hRule).edit hRule _ _ _

end OfRules

theorem ofRules_runRules (rules : List ActiveRule) (tree : SourceTree) (fixing : Bool) :
    (runRules rules tree fixing).OfRules (rules.map (·.index)) := by
  refine runRules_induction (P := OfRules (rules.map (·.index))) fixing ?_ rules
    (fun rule => List.mem_map_of_mem) tree (by simp [OfRules])
  intro progress call hBefore _ _ hRule _
  exact hBefore.take hRule

end Progress

end UiLint
