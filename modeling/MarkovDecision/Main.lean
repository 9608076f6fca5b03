import MarkovDecision.Command.Perform

/-!
# The program

The outer layer: it reads files, talks to the terminal, and draws a seed where
none is given. Everything it decides is decided by the library. A run that asks its
user is the one command that has to speak before it has finished: it is the library's
run under the library's policy, with the terminal to talk to.
-/

namespace MarkovDecision.Main

/-- How the program is called. -/
def usage : String :=
  "Model checking and policy synthesis for Markov chains and MDPs\n\n" ++
  "Usage: mdpcheck [-v] [-c CONFIG] COMMAND MODEL [OPTIONS]\n\n" ++
  "Commands:\n" ++
  "  show             print the model\n" ++
  "  simulate         one run: -n STEPS, -i, -s SEED\n" ++
  "  reach            chance of reaching a state of a chain: -t TARGET, -n STEPS, --all\n" ++
  "  reward           discounted reward of a chain: -g GAMMA, -n STEPS\n" ++
  "  max-reach        largest chance of reaching a state: -t TARGET\n" ++
  "  min-reach        smallest chance of reaching a state: -t TARGET\n" ++
  "  estimate         estimated chance of reaching a state: -t TARGET, -n STEPS, --epsilon,\n" ++
  "                   --delta, -s SEED\n" ++
  "  sprt             sequential test of a bound on that chance: -t TARGET, --theta, -n STEPS,\n" ++
  "                   --epsilon, --alpha, --beta, --max-iters, -s SEED\n" ++
  "  value-iteration  best policy by sweeps: -g GAMMA, --epsilon, --max-iters\n" ++
  "  q-learning       policy learnt from steps: -g GAMMA, --max-iters, -s SEED\n" ++
  "  help             print this text\n\n" ++
  "All commands take --initial LABEL and --reject-deadlocks.\n"

/-- What a path leads to. -/
def readEntry (path : String) : IO FileEntry := do
  try
    return .file (← IO.FS.readFile path)
  catch
    | .noFileOrDirectory .. => return .absent Files.noEntry
    | .inappropriateType .. => return .absent Files.isDirectory
    | .permissionDenied .. => return .unreadable "Permission denied (os error 13)"
    | .userError _ => return .unreadable "stream did not contain valid UTF-8"
    | e => return .unreadable (toString e)

/-- The path of the model of a command. -/
def modelPath : Command → String
  | .print model => model.path
  | .simulate model .. => model.path
  | .reach model .. => model.path
  | .reward model .. => model.path
  | .bound _ model _ => model.path
  | .estimate model .. => model.path
  | .test model .. => model.path
  | .iterate model .. => model.path
  | .learn model .. => model.path

/-- The files that a command may look at. -/
def filesOf (config : Option String) (c : Command) : IO Files := do
  let entries ← [config.getD defaultConfig, modelPath c].mapM fun path => do
    return (path, ← readEntry path)
  return fun path => ((entries.find? (·.1 == path)).map Prod.snd).getD (.absent Files.noEntry)

/-- A seed from the system. -/
def entropy : IO UInt64 := do
  let bytes ← IO.getRandomBytes 8
  return bytes.foldl (fun n b => n * 256 + b.toUInt64) 0

/-- The terminal: what is said goes to the standard error stream, what is heard comes from the
standard input, where nothing at all, not even a line break, is the end. -/
instance terminal : Console IO where
  say text := do
    let err ← IO.getStderr
    err.putStr text
    err.flush
  hear := do
    let line ← (← IO.getStdin).getLine
    return if line.isEmpty then none else some line
  toCome := return pow2 64

/-- A run that asks at the terminal. -/
def converse (m : Model Float) (steps : Nat) (source : Keystream) : IO (Except Failure String) := do
  let run : ExceptT (ModelError Float) (StateT Keystream IO) (Path m) :=
    simulate m steps (Dialogue.policy m) none
  let (r, _) ← run.run.run source
  return (r.mapError fun e => ["simulation failed", e.message]).map (Report.path m)

/-- Prints what a command leaves behind. -/
def leave (o : Outcome) : IO UInt32 := do
  IO.print o.out
  IO.eprint o.err
  return .ofNat o.exit

/-- Carries out a command. -/
def perform (config : Option String) (c : Command) : IO UInt32 := do
  let files ← filesOf config c
  let entropy ← entropy
  match c with
  | .simulate model steps true seed =>
    let opened := do
      let settings ← Settings.find files config
      return (settings, ← openModel files settings.build model)
    let result ← match opened with
      | .ok (settings, m) => converse m steps (sourceOf settings seed entropy)
      | .error e => pure (.error e)
    match result with
    | .ok out => leave { exit := 0, out }
    | .error e => leave { exit := 1, err := e.line }
  | _ => leave (c.run config { files, input := "", entropy })

end MarkovDecision.Main

open MarkovDecision in
/-- Runs the program. -/
def main (args : List String) : IO UInt32 :=
  match parseCommandLine args with
  | .error _ => do
    IO.eprint Main.usage
    return 2
  | .ok .help => do
    IO.print Main.usage
    return 0
  | .ok .version => do
    IO.print versionLine
    return 0
  | .ok (.run config command) => Main.perform config command
