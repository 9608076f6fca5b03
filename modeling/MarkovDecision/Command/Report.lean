import MarkovDecision.Command.Line
import MarkovDecision.Decimal.Fixed
import MarkovDecision.Model.Printer
import MarkovDecision.Query.Horizon
import MarkovDecision.Sampling.SequentialTest
import MarkovDecision.Synthesis.QLearning
import MarkovDecision.Synthesis.ValueIteration

/-!
# What commands print

One function for each kind of answer. Tables of states begin every line with the
label of the state, filled up with blanks: the width is that of the longest label
in bytes, while the filling counts characters, so that labels beyond the first
hundred and twenty-eight characters stand apart a little more.
-/

namespace MarkovDecision.Report

open Decimal

/-- A text as a line. -/
def line (text : String) : String := text ++ "\n"

/-- The width of a table, from the labels of its lines. -/
def width (labels : List String) : Nat := (labels.map String.utf8ByteSize).foldl max 0

/-- A label filled up with blanks. -/
def padded (width : Nat) (label : String) : String :=
  label ++ String.ofList (List.replicate (width - label.length) ' ')

/-- A table of values, one line for each state. -/
def values (m : Model Float) (vs : List Float) : String :=
  let labels := m.stateLabels.toList
  let w := width labels
  String.join ((labels.zip vs).map fun (label, v) => line s!"{padded w label}  {reported v}")

/-- A table of actions, one line for each pair of labels. -/
def policy (pairs : List (String × Option String)) : String :=
  let w := width (pairs.map Prod.fst)
  String.join (pairs.map fun (state, action) =>
    let shown := action.getD "-"
    line s!"{padded w state}  -> {shown}")

/-- The model and its kind. -/
def model (m : Model Float) : String :=
  let kind := if m.isChain then "Markov chain" else "Markov decision process"
  line m.render ++ line s!"Kind: {kind}"

/-- The states of a run and its last action. -/
def path (m : Model Float) (p : Path m) : String :=
  let last := match p.lastAction with
    | some a => m.actionName a
    | none => "none"
  line (String.intercalate " -> " (p.states.map m.stateLabel)) ++ line s!"Last action: {last}"

/-- The probability of reaching a state. -/
def reachability (m : Model Float) (target : String) (horizon : Horizon) (all : Bool)
    (probabilities : Vector Float m.size) : String :=
  let start := m.stateLabel m.initial
  let p := reported (probabilities.get m.initial)
  line s!"P({start} reaches {target}, {horizon.text}) = {p}" ++
    (if all then values m probabilities.toList else "")

/-- The discounted rewards. -/
def reward (m : Model Float) (gamma : Float) (horizon : Horizon) (vs : Vector Float m.size) :
    String :=
  line s!"Discounted reward (gamma = {text gamma}, {horizon.text}):" ++ values m vs.toList

/-- The best or worst chances of reaching a state. -/
def bound (m : Model Float) (which : Extreme) (target : String) (vs : Vector Float m.size) :
    String :=
  let word := match which with
    | .max => "Maximal"
    | .min => "Minimal"
  line s!"{word} probability of reaching {target}:" ++ values m vs.toList

/-- An estimate with its accuracy. -/
def estimate (m : Model Float) (target : String) (plan : EstimatePlan Float)
    (e : Estimate Float) : String :=
  let start := m.stateLabel m.initial
  line <| s!"P({start} reaches {target} within {plan.horizon} steps) ~ {reported e.probability} " ++
    s!"({e.hits} of {e.samples} runs; epsilon = {text plan.epsilon}, delta = {text plan.delta})"

/-- The answer of a sequential test. -/
def test (target : String) (plan : TestPlan Float) (o : TestOutcome Float) : String :=
  let event := s!"P(reach {target} within {plan.horizon} steps)"
  let theta := text plan.theta
  let answer := match o.verdict with
    | .below => s!"{event} <= {theta} (alpha = {text plan.alpha})"
    | .above => s!"{event} >= {theta} (beta = {text plan.beta})"
    | .undecided => s!"undecided whether {event} >= {theta} after {o.draws} runs"
  line answer ++ line s!"{o.successes} of {o.draws} runs reached the target"

/-- The values and the policy of value iteration. -/
def iteration (m : Model Float) (r : Iteration m) : String :=
  let remark := if r.converged then "" else " (not converged)"
  line s!"Values after {r.sweeps} iterations{remark}:" ++ values m r.values.toList ++
    line "Policy:" ++ policy (m.policyLabels r.policy)

/-- The values that were learnt in a state. -/
def learntLine (m : Model Float) (t : Table m) (s : m.State) : String :=
  let entries := (m.enabled.get s).map fun a => s!"{m.actionName a}={reported ((t.q.get s).get a)}"
  line s!"{m.stateLabel s}  {Model.commas entries}"

/-- The values and the policy of learning. -/
def learning (m : Model Float) (r : Learning m) : String :=
  line "Q-values:" ++ String.join (m.states.map (learntLine m r.table)) ++
    line "Policy:" ++ policy (m.policyLabels r.policy)

end MarkovDecision.Report
