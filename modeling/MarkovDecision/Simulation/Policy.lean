import MarkovDecision.Model.Basic
import MarkovDecision.Random.Source

/-!
# Policies

Where a state enables several actions something has to choose. A policy sees the
indices of the states visited so far, the present one first, and answers with a
number; whether that number is an action the state enables is for the simulation
to check. It may keep state and draw at random: it is a program in whatever monad
the simulation runs in.
-/

namespace MarkovDecision

/-- Chooses an action by number, from the states visited so far, the present one first. -/
abbrev Policy (M : Type → Type) := List Nat → M Nat

namespace Policy

variable {K : Type} {M : Type → Type} [Monad M]

/-- The actions enabled where a history stands, or at the start of an empty one. -/
def offered (m : Model K) (history : List Nat) : List m.Action :=
  let current := match history with
    | [] => m.initial.val
    | s :: _ => s
  if h : current < m.size then m.enabled.get ⟨current, h⟩ else []

/-- Chooses evenly among the enabled actions. -/
@[specialize] def uniform [RandomMonad M] (m : Model K) : Policy M := fun history => do
  let actions := offered m history
  let i ← drawBelow actions.length
  return ((actions[i]?).map Fin.val).getD 0

/-- Repeats a list of choices, one for each step. -/
def cycle (choices : List Nat) : Policy M := fun history =>
  return (choices[(history.length - 1) % choices.length]?).getD 0

end Policy

/-- A choice for every state; `FixedPolicy.ofList` admits only actions that the states enable. -/
structure FixedPolicy {K : Type} (m : Model K) where
  /-- The action of each state. -/
  choice : Vector m.Action m.size

namespace FixedPolicy

variable {K : Type} {m : Model K}

/-- The action that a state enables under a number. -/
def enabledAt (m : Model K) (s : m.State) (action : Nat) : Option m.Action :=
  (m.enabled.get s).find? fun a => a.val == action

/-- The first state whose number is not one of an action it enables. -/
def firstFault (m : Model K) (actions : Vector Nat m.size) : Option (ModelError K) :=
  m.states.findSome? fun s =>
    match enabledAt m s (actions.get s) with
    | some _ => none
    | none => some (.invalidPolicyChoice (m.stateLabel s) (actions.get s))

/-- The policy with the given numbers, one for each state. -/
def ofList (m : Model K) (actions : List Nat) : Except (ModelError K) (FixedPolicy m) :=
  if h : actions.length = m.size then
    let numbers : Vector Nat m.size := ⟨actions.toArray, by simpa using h⟩
    match firstFault m numbers with
    | some fault => .error fault
    | none => .ok ⟨Vector.ofFn fun s => (enabledAt m s (numbers.get s)).getD m.unnamed⟩
  else .error (.invalidState actions.length m.size)

/-- A fixed policy takes no notice of the past. -/
def toPolicy {M : Type → Type} [Monad M] (p : FixedPolicy m) : Policy M := fun history =>
  let current := match history with
    | [] => m.initial.val
    | s :: _ => s
  return if h : current < m.size then (p.choice.get ⟨current, h⟩).val else 0

end FixedPolicy

end MarkovDecision
