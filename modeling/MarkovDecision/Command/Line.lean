import MarkovDecision.Decimal.Read

/-!
# Command lines

A command line is a subcommand among general options, followed by its own options
and the path of a model in any order. An option has a long name, often a short
one, and is a switch or takes a value; the value stands in the same argument after
an equals sign, right behind a short name, or in the next argument, which must not
look like an option. Short switches can be run together. Two dashes end the
options.

Arguments are taken one at a time, and the first one that settles the matter does:
a fault anywhere before a request for help is a fault, and a request for help
before a fault is one for help. What is missing is noticed at the end. The wording
of faults is left to the outer layer, so a fault carries nothing.
-/

namespace MarkovDecision

/-! ### What a command line can say -/

/-- What every command is told about its model. -/
structure ModelArgs where
  /-- The path of the description. -/
  path : String
  /-- The label of the state to start in. -/
  initial : Option String := none
  /-- Whether a state without transitions is refused. -/
  rejectDeadlocks : Bool := false

/-- The best or the worst chance. -/
inductive Extreme where
  /-- The largest probability. -/
  | max
  /-- The smallest probability. -/
  | min
  deriving DecidableEq

/-- A subcommand with its arguments. -/
inductive Command where
  /-- Print the model. -/
  | print (model : ModelArgs)
  /-- Make one run. -/
  | simulate (model : ModelArgs) (steps : Nat) (interactive : Bool) (seed : Option UInt64)
  /-- The probability of reaching a state of a chain. -/
  | reach (model : ModelArgs) (target : String) (steps : Nat) (all : Bool)
  /-- The discounted reward of a chain. -/
  | reward (model : ModelArgs) (gamma : Option Float) (steps : Option Nat)
  /-- The best or worst chance of reaching a state. -/
  | bound (which : Extreme) (model : ModelArgs) (target : String)
  /-- The estimated chance of reaching a state. -/
  | estimate (model : ModelArgs) (target : String) (steps : Option Nat)
      (epsilon delta : Option Float) (seed : Option UInt64)
  /-- The sequential test of a bound on that chance. -/
  | test (model : ModelArgs) (target : String) (theta : Option Float) (steps : Option Nat)
      (epsilon alpha beta : Option Float) (maxRuns : Option Nat) (seed : Option UInt64)
  /-- Value iteration. -/
  | iterate (model : ModelArgs) (gamma epsilon : Option Float) (maxSweeps : Option Nat)
  /-- Learning. -/
  | learn (model : ModelArgs) (gamma : Option Float) (updates : Option Nat) (seed : Option UInt64)

/-- What a command line asks for. -/
inductive Request where
  /-- Run a command, with the settings of a file. -/
  | run (config : Option String) (command : Command)
  /-- Print help. -/
  | help
  /-- Print the version. -/
  | version

/-- A command line that makes no sense. -/
structure UsageFault where
  deriving DecidableEq

/-! ### Options -/

/-- What an option takes. -/
inductive Arity where
  /-- Nothing, and it may be repeated. -/
  | counted
  /-- Nothing. -/
  | switch
  /-- Any text. -/
  | text
  /-- A path, which is not empty. -/
  | path
  /-- A number of 64 bits. -/
  | count
  /-- A decimal. -/
  | number
  deriving DecidableEq

namespace Arity

/-- Whether a value is needed. -/
def takesValue : Arity → Bool
  | .counted => false
  | .switch => false
  | _ => true

/-- Whether a value is of the right kind. -/
def admits (a : Arity) (value : String) : Bool :=
  match a with
  | .path => !value.isEmpty
  | .count => (Decimal.readWord? value).isSome
  | .number => (Decimal.readFloat? value).isSome
  | _ => true

end Arity

/-- An option. -/
structure OptionSpec where
  /-- Its long name. -/
  long : String
  /-- Its short name. -/
  short : Option Char := none
  /-- What it takes. -/
  arity : Arity

/-- The options that may stand before and after the subcommand. -/
def generalOptions : List OptionSpec := [⟨"verbose", 'v', .counted⟩, ⟨"config", 'c', .path⟩]

/-- The options that choose how a model is built. -/
def modelOptions : List OptionSpec :=
  [{ long := "initial", arity := .text }, { long := "reject-deadlocks", arity := .switch }]

/-- The option that names a state to be reached. -/
def targetOption : OptionSpec := ⟨"target", 't', .text⟩

/-- The option that gives a number of steps. -/
def stepsOption : OptionSpec := ⟨"steps", 'n', .count⟩

/-- The option that seeds the random source. -/
def seedOption : OptionSpec := ⟨"seed", 's', .count⟩

/-- The option that gives a discount. -/
def gammaOption : OptionSpec := ⟨"gamma", 'g', .number⟩

/-- An option with a long name only, for a decimal. -/
def numberOption (long : String) : OptionSpec := { long, arity := .number }

/-- The option that limits repetitions. -/
def limitOption : OptionSpec := { long := "max-iters", arity := .count }

/-- The options of a subcommand, those of the model apart. -/
def optionsOf? : String → Option (List OptionSpec)
  | "show" => some []
  | "simulate" => some [stepsOption, ⟨"interactive", 'i', .switch⟩, seedOption]
  | "reach" => some [targetOption, stepsOption, { long := "all", arity := .switch }]
  | "reward" => some [gammaOption, stepsOption]
  | "max-reach" => some [targetOption]
  | "min-reach" => some [targetOption]
  | "estimate" =>
    some [targetOption, stepsOption, numberOption "epsilon", numberOption "delta", seedOption]
  | "sprt" =>
    some [targetOption, numberOption "theta", stepsOption, numberOption "epsilon",
      numberOption "alpha", numberOption "beta", limitOption, seedOption]
  | "value-iteration" => some [gammaOption, numberOption "epsilon", limitOption]
  | "q-learning" => some [gammaOption, limitOption, seedOption]
  | _ => none

/-! ### Taking arguments -/

/-- The options given so far, by their long names, and the other arguments. -/
structure Given where
  /-- The options with their values. -/
  options : List (String × String) := []
  /-- The path of the model. -/
  model : Option String := none
  /-- The option that waits for its value. -/
  waiting : Option OptionSpec := none
  /-- Whether two dashes have ended the options. -/
  ended : Bool := false

/-- Why no more arguments are taken. -/
inductive Halt where
  /-- Something is wrong. -/
  | fault
  /-- Help was asked for. -/
  | help
  /-- The version was asked for. -/
  | version

namespace Given

/-- Whether an option has been given. -/
def has (g : Given) (long : String) : Bool := g.options.any (·.1 == long)

/-- Takes an option with its value. Only options that are counted can be repeated. -/
def give (g : Given) (spec : OptionSpec) (value : String) : Except Halt Given :=
  if (g.has spec.long && spec.arity ≠ .counted) || !spec.arity.admits value then .error .fault
  else .ok { g with options := g.options ++ [(spec.long, value)], waiting := none }

/-- Takes a long option, perhaps with a value behind an equals sign. -/
def takeLong (specs : List OptionSpec) (root : Bool) (body : List Char) (g : Given) :
    Except Halt Given :=
  let (name, rest) := body.span (· ≠ '=')
  let name := String.ofList name
  match specs.find? (·.long == name), rest with
  | some spec, [] =>
    if spec.arity.takesValue then .ok { g with waiting := some spec } else g.give spec ""
  | some spec, _ :: value =>
    if spec.arity.takesValue then g.give spec (String.ofList value) else .error .fault
  | none, [] =>
    if name = "help" then .error .help
    else if name = "version" && root then .error .version
    else .error .fault
  | none, _ => .error .fault

/-- Takes short options that are run together; one that takes a value takes all that follows,
without an equals sign at its front. -/
def takeShort (specs : List OptionSpec) (root : Bool) : List Char → Given → Except Halt Given
  | [], g => .ok g
  | c :: rest, g =>
    match specs.find? (·.short == some c) with
    | some spec =>
      if spec.arity.takesValue then
        match rest with
        | [] => .ok { g with waiting := some spec }
        | '=' :: value => g.give spec (String.ofList value)
        | value => g.give spec (String.ofList value)
      else do takeShort specs root rest (← g.give spec "")
    | none =>
      if c = 'h' then .error .help
      else if c = 'V' && root then .error .version
      else .error .fault

/-- Takes an argument that is not an option. -/
def takeWord (word : String) (g : Given) : Except Halt Given :=
  match g.model with
  | none => if word.isEmpty then .error .fault else .ok { g with model := some word }
  | some _ => .error .fault

/-- Whether an argument looks like an option. -/
def looksLikeOption (arg : String) : Bool :=
  match arg.toList with
  | '-' :: _ :: _ => true
  | _ => false

/-- Takes an argument that looks like an option. -/
def takeOption (specs : List OptionSpec) (root : Bool) (arg : String) (g : Given) :
    Except Halt Given :=
  match g.waiting, arg.toList with
  | some _, _ => .error .fault
  | none, '-' :: '-' :: [] => .ok { g with ended := true }
  | none, '-' :: '-' :: body => takeLong specs root body g
  | none, '-' :: body => takeShort specs root body g
  | none, _ => .error .fault

/-- Takes an argument after the subcommand. -/
def take (specs : List OptionSpec) (g : Given) (arg : String) : Except Halt Given :=
  if g.ended then takeWord arg g
  else if looksLikeOption arg then takeOption specs false arg g
  else
    match g.waiting with
    | some spec => g.give spec arg
    | none => takeWord arg g

/-- The value of an option. -/
def text? (g : Given) (long : String) : Option String :=
  (g.options.find? (·.1 == long)).map Prod.snd

/-- The value of an option as a count. -/
def count? (g : Given) (long : String) : Option Nat := (g.text? long).bind Decimal.readWord?

/-- The value of an option as a decimal. -/
def number? (g : Given) (long : String) : Option Float := (g.text? long).bind Decimal.readFloat?

/-- The seed. -/
def seed? (g : Given) : Option UInt64 := (g.count? "seed").map UInt64.ofNat

/-- What is said about the model. -/
def modelArgs? (g : Given) : Option ModelArgs :=
  g.model.map fun path => ⟨path, g.text? "initial", g.has "reject-deadlocks"⟩

/-- The command with a name, if nothing that it needs is missing. -/
def command? (g : Given) (name : String) : Option Command := do
  let model ← g.modelArgs?
  match name with
  | "show" => return .print model
  | "simulate" =>
    return .simulate model ((g.count? "steps").getD 10) (g.has "interactive") g.seed?
  | "reach" =>
    return .reach model (← g.text? "target") ((g.count? "steps").getD 0) (g.has "all")
  | "reward" => return .reward model (g.number? "gamma") (g.count? "steps")
  | "max-reach" => return .bound .max model (← g.text? "target")
  | "min-reach" => return .bound .min model (← g.text? "target")
  | "estimate" =>
    return .estimate model (← g.text? "target") (g.count? "steps") (g.number? "epsilon")
      (g.number? "delta") g.seed?
  | "sprt" =>
    return .test model (← g.text? "target") (g.number? "theta") (g.count? "steps")
      (g.number? "epsilon") (g.number? "alpha") (g.number? "beta") (g.count? "max-iters") g.seed?
  | "value-iteration" =>
    return .iterate model (g.number? "gamma") (g.number? "epsilon") (g.count? "max-iters")
  | "q-learning" => return .learn model (g.number? "gamma") (g.count? "max-iters") g.seed?
  | _ => none

end Given

/-! ### The whole line -/

/-- A request for help on a subcommand has to name one. -/
def helpRequest : List String → Except Halt Request
  | [] => .ok .help
  | [name] => if name = "help" || (optionsOf? name).isSome then .ok .help else .error .fault
  | _ => .error .fault

/-- The arguments after a subcommand. -/
def subcommand (general : Given) (name : String) (specs : List OptionSpec)
    (args : List String) : Except Halt Request := do
  let specs := specs ++ modelOptions ++ generalOptions
  let given ← args.foldlM (Given.take specs) {}
  if given.waiting.isSome then throw .fault
  match given.command? name with
  | some command =>
    let config := (given.text? "config").orElse fun _ => general.text? "config"
    return .run config command
  | none => throw .fault

/-- The arguments up to the subcommand and on. -/
def parseFrom (g : Given) : List String → Except Halt Request
  | [] => .error .fault
  | arg :: rest =>
    if g.ended then .error .fault
    else if Given.looksLikeOption arg then do
      parseFrom (← Given.takeOption generalOptions true arg g) rest
    else
      match g.waiting with
      | some spec => do parseFrom (← g.give spec arg) rest
      | none =>
        if arg = "help" then helpRequest rest
        else
          match optionsOf? arg with
          | some specs => subcommand g arg specs rest
          | none => .error .fault

/-- **What a command line asks for**, or that it makes no sense. -/
def parseCommandLine (args : List String) : Except UsageFault Request :=
  match parseFrom {} args with
  | .ok request => .ok request
  | .error .help => .ok .help
  | .error .version => .ok .version
  | .error .fault => .error {}

end MarkovDecision
