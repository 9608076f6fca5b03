import MarkovDecision.LinearProgram.Simplex
import MarkovDecision.Query.Closure
import MarkovDecision.Query.Error

/-!
# Best and worst chances of reaching a state

Where actions are chosen, the probability of reaching a target depends on who
chooses. Its largest value over all ways of choosing is the least function that is
at least the one-step average under *every* enabled action, so it is found by
making the values as small as such constraints allow. Its smallest value is the
largest function that is at most the one-step average under every enabled action –
but only once the states that can avoid the target for ever have been set to zero,
for otherwise a loop could vouch for itself. Those states are found in the graph
first: `forced` marks the states from which the target is hit with positive
probability whatever is chosen, and only they get a variable.

The two programs differ in the sign of the cost and the side of the constraints.
-/

namespace MarkovDecision

variable {K : Type} [Scalar K]

namespace Bounds

/-- The constraints of a list of states that have variables: for each state one for every enabled
action, which compares its value with the one-step average, and one that keeps it below one. -/
def constraints (m : Model K) (target : m.State) (states : List m.State) (sense : Sense) :
    List (Constraint K states.length) :=
  (List.finRange states.length).flatMap fun k =>
    ((m.enabled.get (states.get k)).map fun a =>
      { coeffs := Vector.ofFn fun c =>
          (if c = k then 1 else 0) - m.prob (states.get k) a (states.get c)
        sense := sense
        rhs := m.prob (states.get k) a target }) ++
    [{ coeffs := Vector.ofFn fun c => if c = k then 1 else 0
       sense := .le
       rhs := 1 }]

/-- The values of all states, from those of the states with variables: the target has one, and a
state without a variable zero. -/
def assemble (m : Model K) (target : m.State) (states : List m.State)
    (x : Vector K states.length) : Vector K m.size :=
  Vector.ofFn fun s =>
    if s = target then 1
    else
      match (List.finRange states.length).find? fun c => states.get c = s with
      | some c => Scalar.clampUnit (x.get c)
      | none => 0

/-- The states with a variable in the program of the largest value. -/
def others (m : Model K) (target : m.State) : List m.State := m.states.filter (· ≠ target)

/-- The program of the largest value. -/
def maximal (m : Model K) (target : m.State) :
    LinearProgram K (others m target).length
      (constraints m target (others m target) .ge).length :=
  .subjectTo (Vector.replicate _ 1) (constraints m target (others m target) .ge)

/-- The states from which the target is hit with positive probability whatever is chosen. -/
def forced (m : Model K) (target : m.State) : Marks m.size :=
  (Marks.single target).grow fun marks s =>
    (m.enabled.get s).all fun a => m.states.any fun t => decide (0 < m.prob s a t) && marks.get t

/-- The states with a variable in the program of the smallest value. -/
def forcedOthers (m : Model K) (target : m.State) : List m.State :=
  let marks := forced m target
  m.states.filter fun s => s ≠ target && marks.get s

/-- The program of the smallest value. -/
def minimal (m : Model K) (target : m.State) :
    LinearProgram K (forcedOthers m target).length
      (constraints m target (forcedOthers m target) .le).length :=
  .subjectTo (Vector.replicate _ (-1)) (constraints m target (forcedOthers m target) .le)

/-- An answer to a program is one to the query. -/
def ofProgram {α : Type} : Except LinearProgram.Failure α → Except (QueryError K) α
  | .ok a => .ok a
  | .error e => .error (.program e)

end Bounds

/-- **The largest probability of reaching a target**, over all ways of choosing, from every
state. -/
def Model.maxReachability (m : Model K) (target : String) :
    Except (QueryError K) (Vector K m.size) := do
  let target ← ofModel (m.findState target)
  let x ← Bounds.ofProgram (Bounds.maximal m target).solve
  return Bounds.assemble m target _ x

/-- **The smallest probability of reaching a target**, over all ways of choosing, from every
state. -/
def Model.minReachability (m : Model K) (target : String) :
    Except (QueryError K) (Vector K m.size) := do
  let target ← ofModel (m.findState target)
  let x ← Bounds.ofProgram (Bounds.minimal m target).solve
  return Bounds.assemble m target _ x

end MarkovDecision
