import MarkovDecision.Sampling.Estimate

/-!
# Deciding a bound while running the model

Is the chance of reaching a target at least `theta`, up to a margin `epsilon`?
Runs are made one at a time. After each of them the likelihood of what has been
seen under the probability `theta - epsilon` is compared with its likelihood under
`theta + epsilon`; the test ends as soon as the logarithm of their ratio leaves an
interval that the two admissible error rates determine. Above the interval the
chance is called *below* `theta`, under it *above*; and if neither happens within
the allowed number of runs the question stays open.

The logarithms are computed once. What the loop compares is a `Wald` record of
four numbers and two counts, so the loop can be studied with real logarithms and
any sequence of hits.
-/

namespace MarkovDecision

variable {K : Type} {G : Type} [RandomSource G]

/-- What is asked of a sequential test. -/
structure TestPlan (K : Type) where
  /-- The number of steps of a run. -/
  horizon : Nat
  /-- The admissible rate of wrong answers below. -/
  alpha : K
  /-- The admissible rate of wrong answers above. -/
  beta : K
  /-- The margin around the bound. -/
  epsilon : K
  /-- The bound. -/
  theta : K
  /-- The largest number of runs. -/
  maxRuns : Nat

namespace TestPlan

variable [Scalar K]

/-- The plan where nothing else is asked for. -/
def standard : TestPlan K := ⟨10, 0.01, 0.01, 0.01, 0.5, 10000⟩

/-- The error rates are proper and add up to less than one, the margin is finite and positive,
and the two probabilities that are compared are proper. -/
def check (plan : TestPlan K) : Except (QueryError K) Unit := do
  Parameter.properProbability "alpha" plan.alpha
  Parameter.properProbability "beta" plan.beta
  Parameter.errorRates plan.alpha plan.beta
  Parameter.tolerance plan.epsilon
  Parameter.properProbability "theta - epsilon" (plan.theta - plan.epsilon)
  Parameter.properProbability "theta + epsilon" (plan.theta + plan.epsilon)

end TestPlan

/-- The answer of a test. -/
inductive Verdict where
  /-- The chance is at most the bound. -/
  | below
  /-- The chance is at least the bound. -/
  | above
  /-- It could not be told. -/
  | undecided
  deriving DecidableEq

/-- The numbers a test compares: the two ends of the interval, and what a run adds to the
logarithm of the ratio when it reaches the target and when it does not. -/
structure Wald (K : Type) where
  /-- From here on the chance is called below the bound. -/
  upper : K
  /-- From here downwards the chance is called above the bound. -/
  lower : K
  /-- What a hit adds. -/
  hit : K
  /-- What a miss adds. -/
  miss : K

namespace Wald

/-- The numbers of a plan. -/
def ofPlan [Analytic K] (plan : TestPlan K) : Wald K :=
  let low := plan.theta - plan.epsilon
  let high := plan.theta + plan.epsilon
  { upper := Analytic.log ((1 - plan.beta) / plan.alpha)
    lower := Analytic.log (plan.beta / (1 - plan.alpha))
    hit := Analytic.log (low / high)
    miss := Analytic.log ((1 - low) / (1 - high)) }

variable [Scalar K]

/-- The logarithm of the ratio after a number of runs. -/
def logRatio (w : Wald K) (draws hits : Nat) : K :=
  (hits : K) * w.hit + ((draws - hits : Nat) : K) * w.miss

/-- What the ratio says, if anything. -/
def judge (w : Wald K) (ratio : K) : Option Verdict :=
  if w.upper ≤ ratio then some .below else if ratio ≤ w.lower then some .above else none

end Wald

/-- The outcome of a test. -/
structure TestOutcome (K : Type) where
  /-- The answer. -/
  verdict : Verdict
  /-- The number of runs. -/
  draws : Nat
  /-- The number of those that reached the target. -/
  successes : Nat
  /-- The logarithm of the ratio at the end. -/
  logRatio : K

/-- **The loop of the test**: as many further runs as are left, each judged at once. -/
@[specialize] def Wald.run [Scalar K] {M : Type → Type} [Monad M] (w : Wald K) (sample : M Bool) :
    (left draws hits : Nat) → (ratio : K) → M (TestOutcome K)
  | 0, draws, hits, ratio => pure ⟨.undecided, draws, hits, ratio⟩
  | left + 1, draws, hits, _ => do
    let hits := if ← sample then hits + 1 else hits
    let ratio := w.logRatio (draws + 1) hits
    match w.judge ratio with
    | some verdict => pure ⟨verdict, draws + 1, hits, ratio⟩
    | none => run w sample left (draws + 1) hits ratio

/-- **The sequential test of a bound on reaching a target.** -/
def Model.sequentialTest [Analytic K] (m : Model K) (target : String) (plan : TestPlan K) :
    ExceptT (QueryError K) (StateM G) (TestOutcome K) := do
  checked plan.check
  let target ← checked (ofModel (m.findState target))
  ExceptT.adapt QueryError.model <|
    (Wald.ofPlan plan).run (pathHits m target plan.horizon) plan.maxRuns 0 0 0

end MarkovDecision
