import MarkovDecision.Numeric.Lanes

/-!
# Markov decision processes

A model has states with rewards, actions with names, and for every state and
action a row of probabilities over the states. Action `0` is special: it is the
one a state takes that offers no choice, it has no name, and a state that enables
it enables nothing else. The rows of actions a state does not enable are zero.

States and actions are indices into the label vectors, so a model carries its own
types of them, `Model.State` and `Model.Action`, and nothing that walks a model
can leave it.

A model in which no action was ever declared is a Markov chain, and its matrix is
the plane of action `0`.
-/

namespace MarkovDecision

/-- What can be wrong with a declaration, a model under construction, or a request to a model. -/
inductive ModelError (K : Type) where
  /-- A state was declared before. -/
  | duplicateState (label : String)
  /-- An action was declared before. -/
  | duplicateAction (label : String)
  /-- A transition has a weight already. -/
  | duplicateTransition (source : String) (action : Option String) (target : String)
  /-- No state has this label. -/
  | unknownState (label : String)
  /-- No action has this label. -/
  | unknownAction (label : String)
  /-- A weight is negative or not finite. -/
  | invalidWeight (source target : String) (weight : K)
  /-- A reward is not finite. -/
  | invalidReward (label : String) (reward : K)
  /-- A state has transitions with and without actions. -/
  | actionCoherence (state : String)
  /-- A state has no outgoing transition. -/
  | noEnabledAction (state : String)
  /-- There are no states. -/
  | emptyModel
  /-- An index is not one of a state. -/
  | invalidState (index states : Nat)
  /-- A policy chose an action that the state does not enable. -/
  | invalidPolicyChoice (state : String) (action : Nat)
  /-- A step was asked for from nowhere. -/
  | emptyPath

/-- A Markov decision process. -/
structure Model (K : Type) where
  /-- The number of states. -/
  size : Nat
  /-- The number of declared actions. -/
  declared : Nat
  /-- The labels of the states. -/
  stateLabels : Vector String size
  /-- The labels of the declared actions. -/
  actionLabels : Vector String declared
  /-- The reward of each state. -/
  rewards : Vector K size
  /-- The probability of each target, by source and action. -/
  rows : Vector (Vector (Vector K size) (declared + 1)) size
  /-- The actions each state enables. -/
  enabled : Vector (List (Fin (declared + 1))) size
  /-- Where a run starts. -/
  initial : Fin size

namespace Model

variable {K : Type}

/-- A state of a model. -/
abbrev State (m : Model K) := Fin m.size

/-- An action of a model; `0` is the action without a name. -/
abbrev Action (m : Model K) := Fin (m.declared + 1)

/-- The action without a name. -/
def unnamed (m : Model K) : m.Action := ⟨0, Nat.succ_pos m.declared⟩

/-- The number of actions, the one without a name included. -/
def actionCount (m : Model K) : Nat := m.declared + 1

/-- All states, in order. -/
def states (m : Model K) : List m.State := List.finRange m.size

/-- The probabilities of the targets of a state under an action. -/
def row (m : Model K) (s : m.State) (a : m.Action) : Vector K m.size := (m.rows.get s).get a

/-- The probability of a transition. -/
def prob (m : Model K) (s : m.State) (a : m.Action) (t : m.State) : K := (m.row s a).get t

/-- The label of a state. -/
def stateLabel (m : Model K) (s : m.State) : String := m.stateLabels.get s

/-- The label of an action, unless it is the one without a name. -/
def actionLabel (m : Model K) (a : m.Action) : Option String :=
  match a with
  | ⟨0, _⟩ => none
  | ⟨i + 1, h⟩ => some (m.actionLabels.get ⟨i, Nat.lt_of_succ_lt_succ h⟩)

/-- The label of an action as it is shown, a dash for the one without a name. -/
def actionName (m : Model K) (a : m.Action) : String := (m.actionLabel a).getD "-"

/-- The state with a label. -/
def findState (m : Model K) (label : String) : Except (ModelError K) m.State :=
  match m.states.find? fun s => m.stateLabel s == label with
  | some s => .ok s
  | none => .error (.unknownState label)

/-- The action with a label. -/
def findAction (m : Model K) (label : String) : Except (ModelError K) m.Action :=
  match (List.finRange (m.declared + 1)).find? fun a => m.actionLabel a == some label with
  | some a => .ok a
  | none => .error (.unknownAction label)

/-- The state with an index. -/
def checkState (m : Model K) (index : Nat) : Except (ModelError K) m.State :=
  if h : index < m.size then .ok ⟨index, h⟩ else .error (.invalidState index m.size)

/-- **A model without declared actions is a Markov chain.** -/
def isChain (m : Model K) : Bool :=
  m.declared == 0 && m.states.all fun s => m.enabled.get s == [m.unnamed]

/-- The matrix of a chain. -/
def chainMatrix (m : Model K) : Matrix K m.size m.size := m.rows.map (·.get m.unnamed)

end Model

end MarkovDecision
