import MarkovDecision.Model.Basic
import MarkovDecision.Decimal.Shortest
import MarkovDecision.Text.Quoted

/-!
# What is said about a fault of a model

One line for each constructor of `ModelError`, labels quoted except where a
transition is written out as an arrow.
-/

namespace MarkovDecision

open Text Decimal

/-- The message of a fault. -/
def ModelError.message : ModelError Float → String
  | .duplicateState label => s!"state {quoted label} is declared twice"
  | .duplicateAction label => s!"action {quoted label} is declared twice"
  | .duplicateTransition source action target =>
    let under := action.getD "-"
    s!"transition {source} [{under}] -> {target} is already defined"
  | .unknownState label => s!"state {quoted label} is not declared"
  | .unknownAction label => s!"action {quoted label} is not declared"
  | .invalidWeight source target weight =>
    s!"invalid weight {text weight} for transition {source} -> {target} (must be finite and >= 0)"
  | .invalidReward label reward =>
    s!"invalid reward {text reward} for state {quoted label} (must be finite)"
  | .actionCoherence state => s!"state {quoted state} has transitions with and without actions"
  | .noEnabledAction state => s!"state {quoted state} has no outgoing transition"
  | .emptyModel => "model has no states"
  | .invalidState index states =>
    s!"state index {index} out of range (model has {states} states)"
  | .invalidPolicyChoice state action =>
    s!"policy chose action {action} which is not enabled in state {quoted state}"
  | .emptyPath => "cannot step from an empty path"

end MarkovDecision
