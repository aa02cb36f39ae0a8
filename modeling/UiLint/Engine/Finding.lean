import UiLint.Tree.Splice

/-! Findings of a run in the order in which they are made. -/
namespace UiLint

/-- Something that a rule reports: where, what, and whether the rule can fix it. -/
structure Remark where
  offset : Nat
  message : String
  fixable : Bool
  deriving DecidableEq, Repr

/-- A remark as the run keeps it: with the place of its rule among the rules, and its own
place among the findings. -/
structure Finding where
  offset : Nat
  rule : Nat
  sequence : Nat
  message : String
  fixable : Bool
  autoFixed : Bool
  deriving DecidableEq, Repr

namespace Finding

/-- Add a remark of a rule. -/
def push (findings : List Finding) (rule : Nat) (remark : Remark) : List Finding :=
  findings ++ [⟨remark.offset, rule, findings.length, remark.message, remark.fixable, false⟩]

/-- Add the remarks of a rule in order. -/
def pushAll (findings : List Finding) (rule : Nat) (remarks : List Remark) : List Finding :=
  remarks.foldl (fun findings remark => push findings rule remark) findings

/-- The finding after a shift: it moves if it is at or after the place of the shift. -/
def move (shift : Shift) (finding : Finding) : Finding :=
  if shift.start ≤ finding.offset then
    { finding with offset := moveOffsetWithin finding.offset shift.distance }
  else finding

/-- The findings after several shifts, one after the other. -/
def moveAll (findings : List Finding) (shifts : List Shift) : List Finding :=
  shifts.foldl (fun findings shift => findings.map (move shift)) findings

/-- The finding, fixed if it can be. -/
def fix (finding : Finding) : Finding :=
  { finding with autoFixed := finding.autoFixed || finding.fixable }

/-- The findings, with those from the given place on fixed where they can be. -/
def fixFrom (findings : List Finding) (place : Nat) : List Finding :=
  findings.take place ++ (findings.drop place).map fix

end Finding

end UiLint
