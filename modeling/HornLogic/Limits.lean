import HornLogic.Error

/-!
# Limits on a search

The search tree of a logic program may be infinite. A search is bounded by a limit on its depth,
the number of resolution steps on one branch, and by a limit on the number of clause attempts
altogether. Either may be absent.
-/

namespace HornLogic

/-- The bounds on a search; `none` stands for no bound. -/
structure Limits where
  /-- How many resolution steps a branch may have made when goals are left on it. -/
  maxDepth : Option Nat := none
  /-- How many clause attempts the whole search may make. -/
  maxSteps : Option Nat := none
  deriving DecidableEq

namespace Limits

def unbounded : Limits := {}

def withMaxDepth (limits : Limits) (depth : Nat) : Limits :=
  { limits with maxDepth := some depth }

def withMaxSteps (limits : Limits) (steps : Nat) : Limits :=
  { limits with maxSteps := some steps }

/-- The error of being at a depth, if it is over the limit. -/
def checkDepth (limits : Limits) (depth : Nat) : Option Error :=
  match limits.maxDepth with
  | some limit => if limit < depth then some (.depthLimitExceeded limit) else none
  | none => none

/-- The error of making a number of attempts, if it is over the limit. -/
def checkSteps (limits : Limits) (steps : Nat) : Option Error :=
  match limits.maxSteps with
  | some limit => if limit < steps then some (.stepLimitExceeded limit) else none
  | none => none

def boundText : Option Nat → String
  | none => "None"
  | some bound => "Some(" ++ toString bound ++ ")"

def text (limits : Limits) : String :=
  "SolverConfig \x7b max_depth: " ++ boundText limits.maxDepth ++ ", max_steps: " ++
    boundText limits.maxSteps ++ " \x7d"

instance : ToString Limits := ⟨text⟩

theorem checkDepth_eq_some_iff {limits : Limits} {depth : Nat} {error : Error} :
    limits.checkDepth depth = some error ↔
      ∃ limit, limits.maxDepth = some limit ∧ limit < depth ∧
        error = .depthLimitExceeded limit := by
  unfold checkDepth
  cases limits.maxDepth with
  | none => simp
  | some limit => simp [eq_comm]

theorem checkSteps_eq_some_iff {limits : Limits} {steps : Nat} {error : Error} :
    limits.checkSteps steps = some error ↔
      ∃ limit, limits.maxSteps = some limit ∧ limit < steps ∧
        error = .stepLimitExceeded limit := by
  unfold checkSteps
  cases limits.maxSteps with
  | none => simp
  | some limit => simp [eq_comm]

@[simp] theorem checkDepth_unbounded (depth : Nat) : unbounded.checkDepth depth = none := rfl

@[simp] theorem checkSteps_unbounded (steps : Nat) : unbounded.checkSteps steps = none := rfl

end Limits

end HornLogic
