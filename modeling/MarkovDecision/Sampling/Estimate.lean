import MarkovDecision.Query.Error
import MarkovDecision.Simulation.Run

/-!
# Estimating a probability by running the model

The chance of reaching a target within a number of steps is estimated by the share
of runs that do. How many runs are made is settled beforehand from the accuracy
asked for: the estimate is to be off by more than `epsilon` with probability at
most `delta`. A run is broken off as soon as it reaches the target, so it draws no
more than it needs, and none at all where it starts there.
-/

namespace MarkovDecision

variable {K : Type} {G : Type} [RandomSource G]

/-- What is asked of an estimate. -/
structure EstimatePlan (K : Type) where
  /-- The number of steps of a run. -/
  horizon : Nat
  /-- The accuracy. -/
  epsilon : K
  /-- The probability of missing it. -/
  delta : K

namespace EstimatePlan

variable [Scalar K]

/-- The plan where nothing else is asked for. -/
def standard : EstimatePlan K := ⟨10, 0.01, 0.05⟩

/-- The accuracy is finite and positive, the probability of missing it neither zero nor one. -/
def checkAccuracy (epsilon delta : K) : Except (QueryError K) Unit := do
  Parameter.tolerance epsilon
  Parameter.properProbability "delta" delta

/-- The accuracy asked for makes sense. -/
def check (plan : EstimatePlan K) : Except (QueryError K) Unit :=
  checkAccuracy plan.epsilon plan.delta

end EstimatePlan

/-- The number of runs that gives an accuracy. -/
def runsNeeded [Analytic K] (epsilon delta : K) : Nat :=
  Analytic.ceilNat
    ((Analytic.log (2.0 : K) - Analytic.log delta) / ((4.0 : K) * epsilon * epsilon))

/-- The number of runs for parameters that have been checked. -/
def sampleCount [Analytic K] (epsilon delta : K) : Except (QueryError K) Nat := do
  EstimatePlan.checkAccuracy epsilon delta
  return runsNeeded epsilon delta

/-- Steps from a state until the target is reached or the steps are used up; whether it was. -/
@[specialize] def hitsFrom [Scalar K] (m : Model K) (target : m.State) :
    Nat → m.State → ExceptT (ModelError K) (StateM G) Bool
  | 0, _ => pure false
  | k + 1, s => do
    let taken ← step m (Policy.uniform m) [s.val]
    if taken.next = target then pure true else hitsFrom m target k taken.next

/-- **Whether one run reaches the target.** -/
@[specialize] def pathHits [Scalar K] (m : Model K) (target : m.State) (horizon : Nat) :
    ExceptT (ModelError K) (StateM G) Bool :=
  if m.initial = target then pure true else hitsFrom m target horizon m.initial

/-- Makes a number of runs and counts those that reach the target. -/
@[specialize] def countHits (sample : ExceptT (ModelError K) (StateM G) Bool) :
    Nat → Nat → ExceptT (ModelError K) (StateM G) Nat
  | 0, hits => pure hits
  | k + 1, hits => do
    let hit ← sample
    countHits sample k (if hit then hits + 1 else hits)

/-- The outcome of an estimate. -/
structure Estimate (K : Type) where
  /-- The share of runs that reached the target. -/
  probability : K
  /-- The number of runs. -/
  samples : Nat
  /-- The number of those that reached the target. -/
  hits : Nat

/-- **The estimated probability of reaching a target.** -/
def Model.estimate [Analytic K] (m : Model K) (target : String) (plan : EstimatePlan K) :
    ExceptT (QueryError K) (StateM G) (Estimate K) := do
  checked plan.check
  let target ← checked (ofModel (m.findState target))
  let samples ← checked (sampleCount plan.epsilon plan.delta)
  let hits ← ExceptT.adapt QueryError.model (countHits (pathHits m target plan.horizon) samples 0)
  return ⟨(hits : K) / (samples : K), samples, hits⟩

end MarkovDecision
