import MarkovDecision.Query.Error
import MarkovDecision.Synthesis.Greedy

/-!
# Value iteration

The best discounted reward of every state is the fixed point of one sweep: the
reward of the state, and the discounted average of the values after the best
enabled action. Sweeps are made from zero until two successive ones are closer
than a tolerance in the Euclidean distance, or until there have been enough. At
least one is made unless none is allowed, since there is nothing to compare the
zero values with.

The policy is the greedy one for the values of the last sweep.
-/

namespace MarkovDecision

variable {K : Type} [Scalar K]

/-- What is asked of value iteration. -/
structure IterationPlan (K : Type) where
  /-- The discount for every step. -/
  gamma : K
  /-- The distance at which sweeps end. -/
  epsilon : K
  /-- The largest number of sweeps. -/
  maxSweeps : Nat

namespace IterationPlan

/-- The plan where nothing else is asked for. -/
def standard : IterationPlan K := ⟨0.9, 1e-6, 1000⟩

/-- The discount lies in the unit interval and the tolerance is finite and positive. -/
def check (plan : IterationPlan K) : Except (QueryError K) Unit := do
  Parameter.discount plan.gamma
  Parameter.tolerance plan.epsilon

end IterationPlan

/-- The value of an action in a state, given the values after it. -/
def Model.backup (m : Model K) (gamma : K) (v : Vector K m.size) (s : m.State) (a : m.Action) :
    K :=
  m.rewards.get s + gamma * dot (m.row s a) v

/-- **One sweep**: the value of the best action of every state. -/
def Model.sweep (m : Model K) (gamma : K) (v : Vector K m.size) : Vector K m.size :=
  Vector.ofFn fun s => Scalar.maximum ((m.enabled.get s).map (m.backup gamma v s))

/-- The squared Euclidean distance of two vectors. -/
def squaredDistance {n : Nat} (x y : Vector K n) : K :=
  let d := Vector.zipWith (· - ·) x y
  dot d d

/-- The values of two successive sweeps and how many there have been. Before the first sweep
there is nothing to compare with. -/
structure Sweeps (K : Type) (n : Nat) where
  /-- The values before the last sweep. -/
  previous : Option (Vector K n)
  /-- The values after it. -/
  current : Vector K n
  /-- The number of sweeps. -/
  count : Nat

namespace Sweeps

variable {n : Nat}

/-- Whether the last two values are as far apart as the tolerance. -/
def apart (epsilon : K) (w : Sweeps K n) : Bool :=
  match w.previous with
  | none => true
  | some v => Scalar.rootAtLeast (squaredDistance w.current v) epsilon

/-- Whether the last two values are closer than the tolerance. -/
def close (epsilon : K) (w : Sweeps K n) : Bool :=
  match w.previous with
  | none => false
  | some v => Scalar.rootBelow (squaredDistance w.current v) epsilon

/-- Sweeps while the values are apart, `fuel` times at most. -/
def run (sweep : Vector K n → Vector K n) (epsilon : K) : Nat → Sweeps K n → Sweeps K n
  | 0, w => w
  | fuel + 1, w =>
    if w.apart epsilon then run sweep epsilon fuel ⟨some w.current, sweep w.current, w.count + 1⟩
    else w

end Sweeps

/-- The outcome of value iteration. -/
structure Iteration (m : Model K) where
  /-- The value of every state. -/
  values : Vector K m.size
  /-- The action of every state. -/
  policy : Vector m.Action m.size
  /-- The number of sweeps. -/
  sweeps : Nat
  /-- Whether the last two values were closer than the tolerance. -/
  converged : Bool

/-- **Value iteration.** -/
def Model.valueIteration (m : Model K) (plan : IterationPlan K) :
    Except (QueryError K) (Iteration m) := do
  plan.check
  let last := Sweeps.run (m.sweep plan.gamma) plan.epsilon plan.maxSweeps
    ⟨none, Vector.replicate m.size 0, 0⟩
  return {
    values := last.current
    policy := Vector.ofFn fun s => m.greedy s (m.backup plan.gamma last.current s)
    sweeps := last.count
    converged := last.close plan.epsilon }

end MarkovDecision
