import MarkovDecision.Simulation.Policy

/-!
# Running a model

One step from a state takes an action – the only enabled one, or the policy's
choice, which has to be enabled – and draws a target from the row of that action.
A target is found by walking along the row: probabilities are added up, zero ones
passed over, until their sum reaches the draw. If rounding keeps the sum below the
draw to the end, the last target with positive probability is taken.

A run is a number of steps from a start. It fails at once if the start is not a
state, and later only through the policy.
-/

namespace MarkovDecision

variable {K : Type} [Scalar K] {M : Type → Type} [Monad M]

/-- The walk along a row: the first target at which the probabilities, added onto `sum`, reach
the draw `u`; where there is none, the last target with positive probability, or `last`. -/
def walk {n : Nat} (row : Vector K n) (u : K) (sum : K) (last : Fin n) : List (Fin n) → Fin n
  | [] => last
  | t :: rest =>
    if 0 < row.get t then
      let sum := sum + row.get t
      if u ≤ sum then t else walk row u sum t rest
    else walk row u sum last rest

/-- The target of a transition from `source` for the draw `u`. -/
def sampleTarget {n : Nat} (row : Vector K n) (source : Fin n) (u : K) : Fin n :=
  walk row u 0 source (List.finRange n)

/-- An action taken and the state it led to. -/
structure Step (m : Model K) where
  /-- The action. -/
  action : m.Action
  /-- The state after it. -/
  next : m.State

/-- The action taken in a state: the only one, or what the policy chooses. -/
@[specialize] def takeAction (m : Model K) (policy : Policy M) (history : List Nat)
    (s : m.State) : ExceptT (ModelError K) M m.Action :=
  match m.enabled.get s with
  | [a] => pure a
  | actions => do
    let chosen ← policy history
    match actions.find? fun a => a.val == chosen with
    | some a => pure a
    | none => throw (.invalidPolicyChoice (m.stateLabel s) chosen)

/-- The outcome of a check as a step of a program. -/
def checked {ε α : Type} (outcome : Except ε α) : ExceptT ε M α := ExceptT.mk (pure outcome)

/-- One step from the head of a history. -/
@[specialize] def step [RandomMonad M] (m : Model K) (policy : Policy M) (history : List Nat) :
    ExceptT (ModelError K) M (Step m) := do
  match history with
  | [] => throw .emptyPath
  | current :: _ =>
    let s ← checked (m.checkState current)
    let a ← takeAction m policy history s
    let u ← (drawUnit : M K)
    return ⟨a, sampleTarget (m.row s a) s u⟩

/-- The states of a run, and the action that led to the last of them. -/
structure Path (m : Model K) where
  /-- The states visited, the last one first. -/
  trail : List m.State
  /-- The last action, if a step was made. -/
  lastAction : Option m.Action

namespace Path

variable {m : Model K}

/-- The states in the order of the run. -/
def states (p : Path m) : List m.State := p.trail.reverse

/-- Whether the run came through a state. -/
def visits (p : Path m) (s : m.State) : Bool := p.trail.contains s

/-- The history of a run as a policy sees it. -/
def history (p : Path m) : List Nat := p.trail.map Fin.val

end Path

/-- Prolongs a run by a number of steps. -/
@[specialize] def prolong [RandomMonad M] (m : Model K) (policy : Policy M) :
    Nat → List Nat → Path m → ExceptT (ModelError K) M (Path m)
  | 0, _, path => pure path
  | k + 1, history, path => do
    let taken ← step m policy history
    prolong m policy k (taken.next.val :: history) ⟨taken.next :: path.trail, some taken.action⟩

/-- **A run of a number of steps**, from a given state or from the initial one. -/
@[specialize] def simulate [RandomMonad M] (m : Model K) (steps : Nat) (policy : Policy M)
    (start : Option Nat) : ExceptT (ModelError K) M (Path m) := do
  let s ← checked (m.checkState (start.getD m.initial.val))
  prolong m policy steps [s.val] ⟨[s], none⟩

end MarkovDecision
