/-!
# Declarations

What a model description says, one declaration after another: states with an
optional reward, blocks of actions, and transitions that fan out from a source,
under an action or under none, to weighted targets. Whoever takes declarations in
is a *sink*; it may refuse one, and keeps its state either way.
-/

namespace MarkovDecision

/-- A target and its weight. -/
structure Branch where
  /-- The weight, relative to the other branches of the row. -/
  weight : UInt64
  /-- The label of the target. -/
  target : String
  deriving DecidableEq

/-- One thing a description says. -/
inductive Declaration where
  /-- A state and its reward. -/
  | state (label : String) (reward : Option Int)
  /-- A block of actions. -/
  | actions (labels : List String)
  /-- Transitions from one source under one action. -/
  | transition (source : String) (action : Option String) (branches : List Branch)
  deriving DecidableEq

/-- Takes in one declaration: the state after it, and the fault where it was refused. -/
abbrev Sink (σ ε : Type) := Declaration → EStateM ε σ Unit

/-- The sink that accepts everything and remembers it, last first. -/
def recorder {ε : Type} : Sink (List Declaration) ε := fun d => modify (d :: ·)

end MarkovDecision
