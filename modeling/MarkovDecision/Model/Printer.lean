import MarkovDecision.Model.Basic
import MarkovDecision.Decimal.Shortest

/-!
# A model as text

The states with their rewards – left out where all of them are zero – the declared
actions, one line for each row with its positive probabilities, and the state a
run starts in. The text has no line break at its end.
-/

namespace MarkovDecision.Model

/-- Texts one after another, with a comma between them. -/
def commas (parts : List String) : String := String.intercalate ", " parts

/-- The line of the states. -/
def stateLine (m : Model Float) : String :=
  let rewarding := m.rewards.any (· != 0.0)
  "States: " ++ commas (m.states.map fun s =>
    if rewarding then s!"{m.stateLabel s} ({Decimal.text (m.rewards.get s)})" else m.stateLabel s)

/-- The line of a row. -/
def rowLine (m : Model Float) (s : m.State) (a : m.Action) : String :=
  let source := match m.actionLabel a with
    | none => m.stateLabel s
    | some label => s!"{m.stateLabel s} [{label}]"
  let branches := (m.states.filter fun t => 0.0 < m.prob s a t).map fun t =>
    s!"{m.stateLabel t}: {Decimal.text (m.prob s a t)}"
  s!"{source} -> {commas branches}"

/-- **The text of a model.** -/
def render (m : Model Float) : String :=
  let rows := m.states.flatMap fun s => (m.enabled.get s).map (m.rowLine s)
  String.intercalate "\n" <|
    [m.stateLine, "Actions: " ++ commas m.actionLabels.toList] ++ rows ++
      ["Initial state: " ++ m.stateLabel m.initial]

end MarkovDecision.Model
