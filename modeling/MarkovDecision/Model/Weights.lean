import MarkovDecision.Scalar

/-!
# Weighted edges

The weights a description gives to transitions, before they are turned into
probabilities. An edge is a source, an action and a target by index; the store is
the list of weighted edges in the order of the indices, so that two stores with
the same weights are the same store, whatever the order in which they were laid
down.
-/

namespace MarkovDecision

/-- A transition, by the indices of its source, action and target. -/
structure Edge where
  /-- The source state. -/
  source : Nat
  /-- The action, `0` for none. -/
  action : Nat
  /-- The target state. -/
  target : Nat
  deriving DecidableEq

/-- The order of edges: by source, then by action, then by target. -/
def Edge.before (e f : Edge) : Bool :=
  e.source < f.source ||
    (e.source == f.source && (e.action < f.action ||
      (e.action == f.action && e.target < f.target)))

/-- Weighted edges in increasing order, each edge once. -/
abbrev Weights (K : Type) := List (Edge × K)

namespace Weights

variable {K : Type}

/-- The weight of an edge, if one has been given. -/
def get? : Weights K → Edge → Option K
  | [], _ => none
  | (f, w) :: rest, e => if f = e then some w else get? rest e

/-- Gives an edge a weight, in place of the one it may have had. -/
def insert : Weights K → Edge → K → Weights K
  | [], e, w => [(e, w)]
  | (f, v) :: rest, e, w =>
    if e.before f then (e, w) :: (f, v) :: rest
    else if f = e then (e, w) :: rest
    else (f, v) :: insert rest e w

/-- The weight of an edge, zero if none has been given. -/
def weight [Scalar K] (ws : Weights K) (e : Edge) : K := (ws.get? e).getD 0

end Weights

end MarkovDecision
