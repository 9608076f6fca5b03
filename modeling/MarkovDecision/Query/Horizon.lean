/-!
# How far a query looks

Either a number of steps or no bound at all. On the command line and in the
settings a bound is a number, and zero stands for no bound.
-/

namespace MarkovDecision

/-- How far a query looks. -/
inductive Horizon where
  /-- As far as there are steps. -/
  | unbounded
  /-- A number of steps. -/
  | steps (n : Nat)
  deriving DecidableEq

namespace Horizon

/-- The bound a number stands for. -/
def ofSteps (n : Nat) : Horizon := if n = 0 then .unbounded else .steps n

/-- The text of a bound. -/
def text : Horizon → String
  | .unbounded => "unbounded"
  | .steps n => s!"{n} steps"

end Horizon

end MarkovDecision
