import MarkovDecision.Numeric.LinearSystem
import MarkovDecision.Query.Closure
import MarkovDecision.Query.Error
import MarkovDecision.Query.Horizon

/-!
# Reaching a state of a chain

The probability that a run of a Markov chain comes to a target state. Within a
number of steps it is found by iterating the one-step equation from zero. Without
a bound it is the least solution of that equation, and the graph is consulted
first: the states from which every path runs into the target within some number
of steps have probability one, those from which none does have probability zero,
and the equations of the others form a system with a single solution.

The classes of states are `Fate`; the system is over the *undecided* states, in
their order, and its right-hand side is the probability of stepping into a state
that is certain.
-/

namespace MarkovDecision

variable {K : Type} [Scalar K]

/-- What the graph alone says about reaching the target from a state. -/
inductive Fate where
  /-- The target is never reached. -/
  | never
  /-- The target is reached with certainty. -/
  | certain
  /-- Neither is known. -/
  | undecided
  deriving DecidableEq

namespace Reachability

variable {n : Nat}

/-- The states from which no step leads outside the certain states, the target first. -/
def certainSet (p : Matrix K n n) (target : Fin n) : Marks n :=
  (Marks.single target).grow fun marks s =>
    (List.finRange n).all fun t => marks.get t || p.entry s t == 0

/-- The states with a path of positive probability into a set. -/
def reachingSet (p : Matrix K n n) (goal : Marks n) : Marks n :=
  goal.grow fun marks s => (List.finRange n).any fun t => marks.get t && 0 < p.entry s t

/-- **What is decided before any arithmetic.** Within a number of steps only the target is. -/
def classify (p : Matrix K n n) (target : Fin n) : Horizon → Vector Fate n
  | .steps _ => Vector.ofFn fun s => if s = target then .certain else .undecided
  | .unbounded =>
    let sure := certainSet p target
    let reaching := reachingSet p sure
    Vector.ofFn fun s =>
      if !reaching.get s then .never else if sure.get s then .certain else .undecided

/-- The undecided states, in order. -/
def undecided (fates : Vector Fate n) : List (Fin n) :=
  (List.finRange n).filter fun s => fates.get s = .undecided

/-- The matrix over a list of states. -/
def restrict (p : Matrix K n n) (states : List (Fin n)) : Matrix K states.length states.length :=
  Vector.ofFn fun i => Vector.ofFn fun j => p.entry (states.get i) (states.get j)

/-- The probability of stepping from each listed state into a certain one. -/
def intoCertain (p : Matrix K n n) (fates : Vector Fate n) (states : List (Fin n)) :
    Vector K states.length :=
  let sure := (List.finRange n).filter fun t => fates.get t = .certain
  Vector.ofFn fun i => sure.foldl (fun sum t => sum + p.entry (states.get i) t) (-0)

/-- The one-step equation, applied a number of times. -/
def unroll {k : Nat} (a : Matrix K k k) (b : Vector K k) : Nat → Vector K k → Vector K k
  | 0, y => y
  | steps + 1, y => unroll a b steps (Vector.zipWith (· + ·) (a.apply y) b)

/-- The probabilities of the undecided states. -/
def solveUndecided (p : Matrix K n n) (fates : Vector Fate n) (horizon : Horizon) :
    Except (QueryError K) (Vector K (undecided fates).length) :=
  let states := undecided fates
  let a := restrict p states
  let b := intoCertain p fates states
  match horizon with
  | .steps steps => .ok (unroll a b steps (Vector.replicate _ 0))
  | .unbounded =>
    match (LinearSystem.ofRows (a.identityMinus 1) b).solve with
    | some y => .ok y
    | none => .error (.singular states.length)

/-- The value of a state: one, zero, or what was computed for it, within the unit interval. -/
def valueAt (fates : Vector Fate n) (y : Vector K (undecided fates).length) (s : Fin n) : K :=
  match fates.get s with
  | .certain => 1
  | .never => 0
  | .undecided =>
    match (List.finRange (undecided fates).length).find? fun i => (undecided fates).get i = s with
    | some i => Scalar.clampUnit (y.get i)
    | none => 0

/-- The probabilities of reaching a target in a matrix. -/
def values (p : Matrix K n n) (target : Fin n) (horizon : Horizon) :
    Except (QueryError K) (Vector K n) := do
  let fates := classify p target horizon
  let y ← solveUndecided p fates horizon
  return Vector.ofFn (valueAt fates y)

end Reachability

/-- **The probability of reaching a target from every state of a chain.** -/
def Model.reachability (m : Model K) (target : String) (horizon : Horizon) :
    Except (QueryError K) (Vector K m.size) := do
  unless m.isChain do throw .notAChain
  let target ← ofModel (m.findState target)
  Reachability.values m.chainMatrix target horizon

end MarkovDecision
