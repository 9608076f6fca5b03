import MarkovDecision.Model.Builder
import MarkovDecision.Query.Horizon
import MarkovDecision.Sampling.SequentialTest
import MarkovDecision.Settings.Document
import MarkovDecision.Synthesis.QLearning
import MarkovDecision.Synthesis.ValueIteration
import MarkovDecision.Text.LowerCase

/-!
# Settings

What can be laid down for all commands at once: a seed, how models are built, and
the plans of the analyses. Every setting has a value where the file says nothing.
A section lists its settings in a fixed order; it is filled from a table by their
names, and an array fills them from the front. A name that is not in the list, or
a value of the wrong kind, makes the whole file invalid. Whether the values make
sense is not asked here: the plans check themselves when they are used.
-/

namespace MarkovDecision

/-- How models are built. -/
structure BuildSettings where
  /-- The label of the state a run starts in. -/
  initial : Option String := none
  /-- The name of what becomes of a state without transitions. -/
  deadlock : String := "self-loop"

/-- How rewards are discounted. -/
structure DiscountSettings where
  /-- The discount. -/
  gamma : Float := 0.9
  /-- The number of steps, zero for no bound. -/
  horizon : Nat := 0

/-- All settings. -/
structure Settings where
  /-- The seed of the random source. -/
  seed : Option UInt64 := none
  /-- How models are built. -/
  build : BuildSettings := {}
  /-- The plan of an estimate. -/
  estimate : EstimatePlan Float := .standard
  /-- The plan of a sequential test. -/
  test : TestPlan Float := .standard
  /-- The plan of value iteration. -/
  iteration : IterationPlan Float := .standard
  /-- The plan of learning. -/
  learning : LearningPlan Float := .standard
  /-- How rewards are discounted. -/
  discount : DiscountSettings := {}

/-! ### The name of a deadlock rule -/

/-- The rule with a name, in any case of letters. -/
def Deadlock.ofName? (name : String) : Option Deadlock :=
  match Text.lowerCase name with
  | "self-loop" => some .selfLoop
  | "selfloop" => some .selfLoop
  | "self_loop" => some .selfLoop
  | "reject" => some .reject
  | _ => none

/-- What is said about a name of no rule. -/
def Deadlock.unknown (name : String) : String :=
  let shown := Text.quoted (Text.lowerCase name)
  s!"unknown deadlock policy: {shown} (expected \"self-loop\" or \"reject\")"

/-- The rule with a name, or what is said about it. -/
def Deadlock.parse (name : String) : Except String Deadlock :=
  match ofName? name with
  | some rule => .ok rule
  | none => .error (unknown name)

namespace Settings

/-! ### Filling a section -/

/-- A value as a count. -/
def Value.count? : Value → Option Nat
  | .integer (.ofNat n) => some n
  | _ => none

/-- A value as a decimal; an integer is one too. -/
def Value.number? : Value → Option Float
  | .integer i => some (Float.ofInt i)
  | .decimal x => some x
  | _ => none

/-- A value as a text. -/
def Value.text? : Value → Option String
  | .text s => some s
  | _ => none

/-- A setting of a section: its name, and how a value sets it. -/
structure Field (α : Type) where
  /-- The name. -/
  name : String
  /-- Sets it, if the value is of the right kind. -/
  set : Value → α → Option α

/-- Fills a section by names. -/
def fill {α : Type} (fields : List (Field α)) (entries : List (String × Value)) (a : α) :
    Option α :=
  entries.foldlM (fun a (name, v) => do (← fields.find? (·.name == name)).set v a) a

/-- Fills a section from the front. -/
def fillInOrder {α : Type} (fields : List (Field α)) (values : List Value) (a : α) : Option α :=
  (fields.zip values).foldlM (fun a (f, v) => f.set v a) a

/-- Fills a section from what stands under its name. -/
def fillItem {α : Type} (fields : List (Field α)) (item : Item) (a : α) : Option α :=
  match item with
  | .headed entries => fill fields entries a
  | .dotted entries => fill fields entries a
  | .value (.table entries) => fill fields entries a
  | .value (.array values) => fillInOrder fields values a
  | .value _ => none

/-- The settings of how models are built. -/
def buildFields : List (Field BuildSettings) :=
  [⟨"initial", fun v s => v.text?.map fun x => { s with initial := some x }⟩,
    ⟨"deadlock", fun v s => v.text?.map fun x => { s with deadlock := x }⟩]

/-- The settings of an estimate. -/
def estimateFields : List (Field (EstimatePlan Float)) :=
  [⟨"horizon", fun v s => v.count?.map fun x => { s with horizon := x }⟩,
    ⟨"epsilon", fun v s => v.number?.map fun x => { s with epsilon := x }⟩,
    ⟨"delta", fun v s => v.number?.map fun x => { s with delta := x }⟩]

/-- The settings of a sequential test. -/
def testFields : List (Field (TestPlan Float)) :=
  [⟨"horizon", fun v s => v.count?.map fun x => { s with horizon := x }⟩,
    ⟨"alpha", fun v s => v.number?.map fun x => { s with alpha := x }⟩,
    ⟨"beta", fun v s => v.number?.map fun x => { s with beta := x }⟩,
    ⟨"epsilon", fun v s => v.number?.map fun x => { s with epsilon := x }⟩,
    ⟨"theta", fun v s => v.number?.map fun x => { s with theta := x }⟩,
    ⟨"max_iters", fun v s => v.count?.map fun x => { s with maxRuns := x }⟩]

/-- The settings of value iteration. -/
def iterationFields : List (Field (IterationPlan Float)) :=
  [⟨"gamma", fun v s => v.number?.map fun x => { s with gamma := x }⟩,
    ⟨"epsilon", fun v s => v.number?.map fun x => { s with epsilon := x }⟩,
    ⟨"max_iters", fun v s => v.count?.map fun x => { s with maxSweeps := x }⟩]

/-- The settings of learning. -/
def learningFields : List (Field (LearningPlan Float)) :=
  [⟨"gamma", fun v s => v.number?.map fun x => { s with gamma := x }⟩,
    ⟨"max_iters", fun v s => v.count?.map fun x => { s with updates := x }⟩]

/-- The settings of discounting. -/
def discountFields : List (Field DiscountSettings) :=
  [⟨"gamma", fun v s => v.number?.map fun x => { s with gamma := x }⟩,
    ⟨"horizon", fun v s => v.count?.map fun x => { s with horizon := x }⟩]

/-- Takes in what stands under a key of the file. -/
def takeItem (s : Settings) (key : String) (item : Item) : Option Settings :=
  match key with
  | "seed" =>
    match item with
    | .value v => v.count?.map fun n => { s with seed := some (.ofNat n) }
    | _ => none
  | "build" => (fillItem buildFields item s.build).map ({ s with build := · })
  | "estimate" => (fillItem estimateFields item s.estimate).map ({ s with estimate := · })
  | "sprt" => (fillItem testFields item s.test).map ({ s with test := · })
  | "value_iteration" =>
    (fillItem iterationFields item s.iteration).map ({ s with iteration := · })
  | "q_learning" => (fillItem learningFields item s.learning).map ({ s with learning := · })
  | "discount" => (fillItem discountFields item s.discount).map ({ s with discount := · })
  | _ => none

/-- **The settings of a file.** -/
def ofText? (text : String) : Option Settings := do
  (← Document.ofText? text).foldlM (fun s (key, item) => takeItem s key item) {}

end Settings

end MarkovDecision
