import MarkovDecision.Simulation.Policy

/-!
# The best action by a score

Both ways of finding a policy end in the same choice: in every state the first
enabled action whose score no other enabled action exceeds. What they find can be
handed to a run as a fixed policy.
-/

namespace MarkovDecision

variable {K : Type} [Scalar K]

/-- The better of the best action so far and another one, with their scores. -/
def better {α : Type} (score : α → K) (best : α × K) (a : α) : α × K :=
  if best.2 < score a then (a, score a) else best

/-- The first action of a state with the largest score. -/
def Model.greedy (m : Model K) (s : m.State) (score : m.Action → K) : m.Action :=
  match m.enabled.get s with
  | [] => m.unnamed
  | a :: rest => (rest.foldl (better score) (a, score a)).1

/-- What has been found as a policy of runs, checked like any other. -/
def Model.toPolicy (m : Model K) (policy : Vector m.Action m.size) :
    Except (ModelError K) (FixedPolicy m) :=
  FixedPolicy.ofList m (policy.toList.map Fin.val)

/-- The labels of the states with those of their actions. -/
def Model.policyLabels (m : Model K) (policy : Vector m.Action m.size) :
    List (String × Option String) :=
  m.states.map fun s => (m.stateLabel s, m.actionLabel (policy.get s))

end MarkovDecision
