import MarkovDecision.Query.Error
import MarkovDecision.Simulation.Run
import MarkovDecision.Synthesis.Greedy

/-!
# Learning from single steps

A table holds a value for every state and action. Again and again a state is drawn
evenly, one step is made from it under the even policy, and the entry of the state
and the action taken is moved towards what the step suggests: the reward of the
state and the discounted best entry of the state reached. The move is the
difference divided by how often the entry has been updated, this time included,
so that an entry is always the mean of what has been suggested to it.
-/

namespace MarkovDecision

variable {K : Type} [Scalar K] {G : Type} [RandomSource G]

/-- What is asked of learning. -/
structure LearningPlan (K : Type) where
  /-- The discount for every step. -/
  gamma : K
  /-- The number of updates. -/
  updates : Nat

namespace LearningPlan

/-- The plan where nothing else is asked for. -/
def standard : LearningPlan K := ⟨0.9, 10000⟩

/-- The discount lies in the unit interval. -/
def check (plan : LearningPlan K) : Except (QueryError K) Unit := Parameter.discount plan.gamma

end LearningPlan

/-- The values learnt so far and the number of updates of each of them. -/
structure Table (m : Model K) where
  /-- The value of every state and action. -/
  q : Vector (Vector K (m.declared + 1)) m.size
  /-- The number of updates of every state and action. -/
  visits : Vector (Vector Nat (m.declared + 1)) m.size

namespace Table

variable {m : Model K}

/-- The table before any update. -/
def zero (m : Model K) : Table m where
  q := Vector.replicate _ (Vector.replicate _ 0)
  visits := Vector.replicate _ (Vector.replicate _ 0)

/-- What a step from `s` to `next` suggests. -/
def suggestion (t : Table m) (gamma : K) (s next : m.State) : K :=
  m.rewards.get s + gamma * Scalar.maximum ((m.enabled.get next).map (t.q.get next).get)

/-- **One update**: the entry moves towards the suggestion by the reciprocal of its count. -/
def update (t : Table m) (gamma : K) (s : m.State) (taken : Step m) : Table m :=
  let a := taken.action
  let count := (t.visits.get s).get a + 1
  let old := (t.q.get s).get a
  let new := old + (t.suggestion gamma s taken.next - old) / (count : K)
  { q := replaceAt t.q s (replaceAt (t.q.get s) a new)
    visits := replaceAt t.visits s (replaceAt (t.visits.get s) a count) }

/-- A number of updates. -/
@[specialize] def learn (gamma : K) : Nat → Table m → ExceptT (ModelError K) (StateM G) (Table m)
  | 0, t => pure t
  | k + 1, t => do
    let index ← (drawBelow m.size : StateM G Nat)
    let s ← checked (m.checkState index)
    let taken ← step m (Policy.uniform m) [s.val]
    learn gamma k (t.update gamma s taken)

end Table

/-- The outcome of learning. -/
structure Learning (m : Model K) where
  /-- The values and their counts. -/
  table : Table m
  /-- The action of every state. -/
  policy : Vector m.Action m.size

/-- **Learning a policy from single steps.** -/
def Model.learnPolicy (m : Model K) (plan : LearningPlan K) :
    ExceptT (QueryError K) (StateM G) (Learning m) := do
  checked plan.check
  let table ← ExceptT.adapt QueryError.model (Table.learn plan.gamma plan.updates (.zero m))
  return ⟨table, Vector.ofFn fun s => m.greedy s (table.q.get s).get⟩

end MarkovDecision
