import MarkovDecision.Model.Basic
import MarkovDecision.Model.Declaration
import MarkovDecision.Model.Weights

/-!
# Building a model

A builder collects states, actions and weights, and refuses what cannot belong
to a model: a label declared twice, a transition between labels not declared, a
weight that is negative or not finite, a second weight for a transition that has
one. A weight of zero is as good as none, and may be replaced.

What is known of a state stands in three places, which are written one after the
other: its label is in the list of labels, at the position that the index has
for the label, and its reward in the list of rewards at the same position.
Actions have a list and an index as well. The calls to a builder are programs
that change it as they go (`Building`), so that a call which fails may have left
something behind. None does, because all of them make their tests before they
write anything; a block of actions, and a transition that fans out to several
targets, are looked through as a whole first.

`Builder.build` turns the weights of every row into probabilities by dividing them
by their sum. Two things can still be wrong then, and the states are looked
through for them in order: a state may have rows with and without an action, and
a state may have none. The second is a fault only if the builder has been told so;
otherwise the state gets a loop to itself under no action.
-/

namespace MarkovDecision

/-- What to do with a state that has no outgoing transition. -/
inductive Deadlock where
  /-- Let it stay where it is for ever. -/
  | selfLoop
  /-- Refuse the model. -/
  | reject
  deriving DecidableEq

/-- Numbers by label, every label once. -/
abbrev LabelIndex := List (String × Nat)

namespace LabelIndex

/-- The number of a label, if it has one. -/
def get? : LabelIndex → String → Option Nat
  | [], _ => none
  | (l, i) :: rest, label => if l = label then some i else get? rest label

/-- Gives a label a number, in place of the one it may have had. -/
def insert : LabelIndex → String → Nat → LabelIndex
  | [], label, i => [(label, i)]
  | (l, j) :: rest, label, i =>
    if l = label then (label, i) :: rest else (l, j) :: insert rest label i

end LabelIndex

/-- A model under construction. -/
structure Builder (K : Type) where
  /-- The labels of the states, in the order of declaration. -/
  states : List String := []
  /-- The positions of the states, by label. -/
  stateIds : LabelIndex := []
  /-- The rewards of the states, in the order of declaration. -/
  rewards : List K := []
  /-- The labels of the actions, in the order of declaration. -/
  actions : List String := []
  /-- The positions of the actions, counted from one, by label. -/
  actionIds : LabelIndex := []
  /-- The weights of the transitions. -/
  weights : Weights K := []
  /-- What becomes of a state without transitions. -/
  deadlock : Deadlock := .selfLoop

/-- A program that works on a builder. Where it fails, the builder is what it has made of it so
far. -/
abbrev Building (K : Type) := EStateM (ModelError K) (Builder K)

variable {K : Type} [Scalar K]

/-! ### Looking up -/

namespace Builder

/-- The index of a declared state. -/
def findState (b : Builder K) (label : String) : Except (ModelError K) Nat :=
  match b.stateIds.get? label with
  | some i => .ok i
  | none => .error (.unknownState label)

/-- The index of an action, counted from one; zero stands for no action. -/
def findAction (b : Builder K) : Option String → Except (ModelError K) Nat
  | none => .ok 0
  | some label =>
    match b.actionIds.get? label with
    | some i => .ok i
    | none => .error (.unknownAction label)

/-- The edge that a transition names, if it may be given the weight. -/
def resolve (b : Builder K) (source target : String) (action : Option String) (weight : K) :
    Except (ModelError K) Edge := do
  let s ← b.findState source
  let t ← b.findState target
  let a ← b.findAction action
  if !Scalar.isFinite weight || weight < 0 then throw (.invalidWeight source target weight)
  unless b.weights.weight ⟨s, a, t⟩ == 0 do throw (.duplicateTransition source action target)
  return ⟨s, a, t⟩

end Builder

/-! ### Declaring -/

namespace Building

/-- Declares a state, and returns its index. -/
def addState (label : String) (reward : K) : Building K Nat := do
  if ((← get).stateIds.get? label).isSome then throw (.duplicateState label)
  unless Scalar.isFinite reward do throw (.invalidReward label reward)
  let id := (← get).states.length
  modify fun b => { b with states := b.states ++ [label] }
  modify fun b => { b with stateIds := b.stateIds.insert label id }
  modify fun b => { b with rewards := b.rewards ++ [reward] }
  return id

/-- Tests a label of a block of actions against those before it in the block. -/
def testAction (seen : List String) (label : String) : Building K (List String) := do
  if seen.contains label || ((← get).actionIds.get? label).isSome then
    throw (.duplicateAction label)
  return seen ++ [label]

/-- Appends an action to those declared. -/
def appendAction (label : String) : Building K Unit := do
  modify fun b => { b with actions := b.actions ++ [label] }
  modify fun b => { b with actionIds := b.actionIds.insert label b.actions.length }

/-- Declares a block of actions. -/
def addActions (labels : List String) : Building K Unit := do
  let _ ← labels.foldlM testAction []
  labels.forM appendAction

/-- Looks a transition up in the builder. -/
def resolve (source target : String) (action : Option String) (weight : K) :
    Building K Edge := do
  MonadExcept.ofExcept ((← get).resolve source target action weight)

/-- Gives an edge a weight. -/
def setWeight (edge : Edge) (weight : K) : Building K Unit :=
  modify fun b => { b with weights := b.weights.insert edge weight }

/-- Gives a transition its weight. -/
def updateWeight (source target : String) (action : Option String) (weight : K) :
    Building K Unit := do
  let edge ← resolve source target action weight
  setWeight edge weight

/-- Tests a branch of a fan-out against the builder and against the branches before it. -/
def stage (source : String) (action : Option String) (staged : List (Edge × K)) (branch : Branch) :
    Building K (List (Edge × K)) := do
  let weight : K := (branch.weight.toNat : K)
  let edge ← resolve source branch.target action weight
  if staged.any fun (e, w) => e = edge && !(w == 0) then
    throw (.duplicateTransition source action branch.target)
  return staged ++ [(edge, weight)]

/-- Gives all transitions of a fan-out their weights. -/
def updateBranches (source : String) (action : Option String) (branches : List Branch) :
    Building K Unit := do
  let staged ← branches.foldlM (stage source action) []
  staged.forM fun (edge, weight) => setWeight edge weight

/-- What a program makes of a builder, if it does not fail. -/
def outcome {α : Type} (x : Building K α) (b : Builder K) : Except (ModelError K) (Builder K) :=
  match x b with
  | .ok _ next => .ok next
  | .error e _ => .error e

end Building

namespace Builder

/-- The builder as a sink for declarations. -/
def sink : Sink (Builder K) (ModelError K)
  | .state label reward => discard (Building.addState label ((reward.getD 0 : Int) : K))
  | .actions labels => Building.addActions labels
  | .transition source action branches => Building.updateBranches source action branches

/-- The builder with one more state. -/
def addState (b : Builder K) (label : String) (reward : K) :
    Except (ModelError K) (Builder K) :=
  (Building.addState label reward).outcome b

/-- The builder with a block of actions. -/
def addActions (b : Builder K) (labels : List String) : Except (ModelError K) (Builder K) :=
  (Building.addActions labels).outcome b

/-- The builder with the weight of a transition. -/
def addWeight (b : Builder K) (source target : String) (action : Option String) (weight : K) :
    Except (ModelError K) (Builder K) :=
  (Building.updateWeight source target action weight).outcome b

/-- The builder with the weights of a fan-out. -/
def addBranches (b : Builder K) (source : String) (action : Option String)
    (branches : List Branch) : Except (ModelError K) (Builder K) :=
  (Building.updateBranches source action branches).outcome b

/-- The builder with what a declaration says. -/
def declare (b : Builder K) (d : Declaration) : Except (ModelError K) (Builder K) :=
  Building.outcome (sink d) b

/-! ### Building -/

/-- The weights of a row. -/
def rowWeights (b : Builder K) (s : Fin b.states.length) (a : Fin (b.actions.length + 1)) :
    Vector K b.states.length :=
  Vector.ofFn fun t => b.weights.weight ⟨s, a, t⟩

/-- Weights divided by their sum, where that is positive. -/
def normalized {n : Nat} (row : Vector K n) : Vector K n :=
  let total := laneSum row.toList
  if 0 < total then row.map (· / total) else row

/-- The probabilities of a row, before states without transitions are given a loop. -/
def rawRow (b : Builder K) (s : Fin b.states.length) (a : Fin (b.actions.length + 1)) :
    Vector K b.states.length :=
  normalized (b.rowWeights s a)

/-- The actions whose row carries probability. -/
def offered (b : Builder K) (s : Fin b.states.length) : List (Fin (b.actions.length + 1)) :=
  (List.finRange _).filter fun a => 0 < laneSum (b.rawRow s a).toList

/-- What is wrong with a state. -/
def faultAt (b : Builder K) (s : Fin b.states.length) : Option (ModelError K) :=
  let actions := b.offered s
  if actions.contains 0 && actions.length != 1 then some (.actionCoherence (b.states.get s))
  else if actions.isEmpty && b.deadlock = .reject then
    some (.noEnabledAction (b.states.get s))
  else none

/-- The model, of states none of which is at fault. -/
def assemble (b : Builder K) (initial : Fin b.states.length) : Model K where
  size := b.states.length
  declared := b.actions.length
  stateLabels := Vector.ofFn fun s => b.states.get s
  actionLabels := Vector.ofFn fun a => b.actions.get a
  rewards := Vector.ofFn fun s => b.rewards.getD s 0
  rows := Vector.ofFn fun s =>
    let stuck := (b.offered s).isEmpty
    Vector.ofFn fun a =>
      let row := b.rawRow s a
      if stuck && a = 0 then replaceAt row s 1 else row
  enabled := Vector.ofFn fun s =>
    let actions := b.offered s
    if actions.isEmpty then [0] else actions
  initial := initial

/-- **The model that the declarations describe**, starting in the state with the given label, or
in the first one. -/
def build (b : Builder K) (initial : Option String) : Except (ModelError K) (Model K) :=
  if h : 0 < b.states.length then
    match (List.finRange b.states.length).findSome? b.faultAt with
    | some fault => .error fault
    | none =>
      match initial with
      | none => .ok (b.assemble ⟨0, h⟩)
      | some label => do
        let i ← b.findState label
        if h : i < b.states.length then return b.assemble ⟨i, h⟩
        throw (.unknownState label)
  else .error .emptyModel

end Builder

end MarkovDecision
