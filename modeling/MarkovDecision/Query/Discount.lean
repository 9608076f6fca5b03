import MarkovDecision.Numeric.LinearSystem
import MarkovDecision.Query.Error
import MarkovDecision.Query.Horizon

/-!
# Discounted reward of a chain

The rewards of the states a run visits, the later ones counting less by a factor
for every step, summed up in expectation. Over a number of steps the sum is
unrolled from its end; without a bound it is the solution of a linear system,
which exists whenever the factor is below one.
-/

namespace MarkovDecision

variable {K : Type} [Scalar K]

/-- The value one step earlier, a number of times over. -/
def unrollReward {n : Nat} (p : Matrix K n n) (rewards : Vector K n) (gamma : K) :
    Nat → Vector K n → Vector K n
  | 0, y => y
  | steps + 1, y =>
    unrollReward p rewards gamma steps
      (Vector.zipWith (fun v r => v * gamma + r) (p.apply y) rewards)

/-- **The discounted reward of every state of a chain.** -/
def Model.discountedReward (m : Model K) (horizon : Horizon) (gamma : K) :
    Except (QueryError K) (Vector K m.size) := do
  Parameter.discount gamma
  unless m.isChain do throw .notAChain
  let p := m.chainMatrix
  match horizon with
  | .steps steps => return unrollReward p m.rewards gamma steps (Vector.replicate _ 0)
  | .unbounded =>
    match (LinearSystem.ofRows (p.identityMinus gamma) m.rewards).solve with
    | some y => return y
    | none => throw (.diverged gamma)

end MarkovDecision
