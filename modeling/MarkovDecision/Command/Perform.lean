import MarkovDecision.Command.Files
import MarkovDecision.Command.Report
import MarkovDecision.Description.Reader
import MarkovDecision.Query.Bounds
import MarkovDecision.Query.Discount
import MarkovDecision.Query.Reachability
import MarkovDecision.Random.Generator
import MarkovDecision.Settings.Basic
import MarkovDecision.Simulation.Dialogue

/-!
# Carrying out a command

A command combines the settings with its own arguments, which win; checks the plan
that results; reads and builds its model; computes; and prints. It does so in that
order, so a senseless plan is reported before a missing file. A failure is a chain
of texts, from what was being done to what went wrong, and nothing is printed
before the computation has succeeded.
-/

namespace MarkovDecision

/-- Why a command failed: what was being done, and what went wrong with it. -/
abbrev Failure := List String

/-- The line that reports a failure. -/
def Failure.line (f : Failure) : String := "Error: " ++ String.intercalate ": " f ++ "\n"

/-- What a command finds around it. -/
structure World where
  /-- The files. -/
  files : Files
  /-- What the user is going to say. -/
  input : String
  /-- The seed where none is given. -/
  entropy : UInt64

/-- What a program leaves behind. -/
structure Outcome where
  /-- The exit code. -/
  exit : Nat
  /-- What was printed. -/
  out : String := ""
  /-- What was said besides. -/
  err : String := ""

/-! ### Settings and models -/

/-- The file that settings are read from where none is named. -/
def defaultConfig : String := "mdpcheck.toml"

/-- The settings of a file. -/
def Settings.load (files : Files) (path : String) : Except Failure Settings := do
  let text ← (files path).read.mapError fun why => [s!"failed to read config: {path}", why]
  match Settings.ofText? text with
  | some settings => .ok settings
  | none => .error [s!"failed to parse config: {path}"]

/-- The settings that a command runs under: those of the named file, of the default one if it
exists, or none. -/
def Settings.find (files : Files) : Option String → Except Failure Settings
  | some path => load files path
  | none => if (files defaultConfig).isFile then load files defaultConfig else .ok {}

/-- What is said about a description that could not be read. A refused declaration is its own
cause. -/
def readFailure : ReadError (ModelError Float) → Failure
  | .syntactic position fault => [position.remark fault.message]
  | .declaration position fault => [position.remark fault.message, fault.message]

/-- Reads the declarations of a description into a builder. -/
def Builder.read (b : Builder Float) (text : String) :
    Except (ReadError (ModelError Float)) Unit × Builder Float :=
  match readDescription Builder.sink text b with
  | .ok _ b => (.ok (), b)
  | .error e b => (.error e, b)

/-- The model that a command names. -/
def openModel (files : Files) (settings : BuildSettings) (args : ModelArgs) :
    Except Failure (Model Float) := do
  let rule ← (Deadlock.parse settings.deadlock).mapError fun message => [message]
  let rule := if args.rejectDeadlocks then .reject else rule
  let text ← (files args.path).read.mapError fun why => [s!"failed to read model: {args.path}", why]
  let (outcome, builder) := Builder.read { deadlock := rule } text
  outcome.mapError fun e => s!"failed to parse model: {args.path}" :: readFailure e
  let initial := args.initial.orElse fun _ => settings.initial
  (builder.build initial).mapError fun e => [s!"invalid model: {args.path}", e.message]

/-- The random source of a command. -/
def sourceOf (settings : Settings) (seed : Option UInt64) (entropy : UInt64) : Keystream :=
  .ofSeed ((seed.orElse fun _ => settings.seed).getD entropy)

/-- A query that failed while something was being done. -/
def during {α : Type} (doing : String) (r : Except (QueryError Float) α) : Except Failure α :=
  r.mapError fun e => [doing, e.message]

/-- A plan that makes no sense. -/
def sensible (r : Except (QueryError Float) Unit) : Except Failure Unit :=
  r.mapError fun e => [e.message]

/-! ### Plans from settings and arguments -/

/-- The plan of an estimate. -/
def EstimatePlan.override (p : EstimatePlan Float) (steps : Option Nat)
    (epsilon delta : Option Float) : EstimatePlan Float :=
  ⟨steps.getD p.horizon, epsilon.getD p.epsilon, delta.getD p.delta⟩

/-- The plan of a sequential test. -/
def TestPlan.override (p : TestPlan Float) (theta : Option Float) (steps : Option Nat)
    (epsilon alpha beta : Option Float) (maxRuns : Option Nat) : TestPlan Float :=
  { horizon := steps.getD p.horizon
    alpha := alpha.getD p.alpha
    beta := beta.getD p.beta
    epsilon := epsilon.getD p.epsilon
    theta := theta.getD p.theta
    maxRuns := maxRuns.getD p.maxRuns }

/-- The plan of value iteration. -/
def IterationPlan.override (p : IterationPlan Float) (gamma epsilon : Option Float)
    (maxSweeps : Option Nat) : IterationPlan Float :=
  ⟨gamma.getD p.gamma, epsilon.getD p.epsilon, maxSweeps.getD p.maxSweeps⟩

/-- The plan of learning. -/
def LearningPlan.override (p : LearningPlan Float) (gamma : Option Float)
    (updates : Option Nat) : LearningPlan Float :=
  ⟨gamma.getD p.gamma, updates.getD p.updates⟩

/-! ### The commands -/

/-- A run of a model, with what was said during it. -/
def simulation (m : Model Float) (steps : Nat) (interactive : Bool) (input : String)
    (source : Keystream) : Except Failure String × String :=
  let report (r : Except (ModelError Float) (Path m)) : Except Failure String :=
    (r.mapError fun e => ["simulation failed", e.message]).map (Report.path m)
  if interactive then
    let program : StateT Dialogue (StateM Keystream) (Except (ModelError Float) (Path m)) :=
      (simulate m steps (Dialogue.policy m) none).run
    let ((r, dialogue), _) := program.run (.ofInput input) |>.run source
    (report r, dialogue.said)
  else
    let program : StateM Keystream (Except (ModelError Float) (Path m)) :=
      (simulate m steps (Policy.uniform m) none).run
    (report (program.run source).1, "")

/-- What a command prints that says nothing besides. -/
def Command.answer (c : Command) (settings : Settings) (w : World) : Except Failure String := do
  let load := openModel w.files settings.build
  let source (seed : Option UInt64) := sourceOf settings seed w.entropy
  match c with
  | .print model => return Report.model (← load model)
  | .simulate model steps _ seed =>
    let m ← load model
    (simulation m steps false "" (source seed)).1
  | .reach model target steps all =>
    let m ← load model
    let horizon := Horizon.ofSteps steps
    let vs ← during s!"reachability of {Text.quoted target} failed" (m.reachability target horizon)
    return Report.reachability m target horizon all vs
  | .reward model gamma steps =>
    let m ← load model
    let gamma := gamma.getD settings.discount.gamma
    let horizon := Horizon.ofSteps (steps.getD settings.discount.horizon)
    let vs ← during "discounted reward failed" (m.discountedReward horizon gamma)
    return Report.reward m gamma horizon vs
  | .bound which model target =>
    let m ← load model
    let (name, result) := match which with
      | .max => ("max-reach", m.maxReachability target)
      | .min => ("min-reach", m.minReachability target)
    let vs ← during s!"{name} of {Text.quoted target} failed" result
    return Report.bound m which target vs
  | .estimate model target steps epsilon delta seed =>
    let plan := settings.estimate.override steps epsilon delta
    sensible plan.check
    let m ← load model
    let e ← during "Monte-Carlo estimation failed" ((m.estimate target plan).run (source seed)).1
    return Report.estimate m target plan e
  | .test model target theta steps epsilon alpha beta maxRuns seed =>
    let plan := settings.test.override theta steps epsilon alpha beta maxRuns
    sensible plan.check
    let m ← load model
    let o ← during "sequential test failed" ((m.sequentialTest target plan).run (source seed)).1
    return Report.test target plan o
  | .iterate model gamma epsilon maxSweeps =>
    let plan := settings.iteration.override gamma epsilon maxSweeps
    sensible plan.check
    let m ← load model
    return Report.iteration m (← during "value iteration failed" (m.valueIteration plan))
  | .learn model gamma updates seed =>
    let plan := settings.learning.override gamma updates
    sensible plan.check
    let m ← load model
    let r ← during "Q-learning failed" ((m.learnPolicy plan).run (source seed)).1
    return Report.learning m r

/-- What a command prints, and what it says besides. Only a run that asks its user says
anything. -/
def Command.perform (c : Command) (settings : Settings) (w : World) :
    Except Failure String × String :=
  match c with
  | .simulate model steps true seed =>
    match openModel w.files settings.build model with
    | .ok m => simulation m steps true w.input (sourceOf settings seed w.entropy)
    | .error e => (.error e, "")
  | _ => (c.answer settings w, "")

/-- What a command with a settings file leaves behind. -/
def Command.run (c : Command) (config : Option String) (w : World) : Outcome :=
  let (result, said) := match Settings.find w.files config with
    | .ok settings => c.perform settings w
    | .error e => (.error e, "")
  match result with
  | .ok out => { exit := 0, out, err := said }
  | .error e => { exit := 1, err := said ++ e.line }

/-- The line that tells the version. -/
def versionLine : String := "mdpcheck 0.1.0\n"

end MarkovDecision
