import MarkovDecision.Main
import MarkovDecision.Proofs.Outcome
import MarkovDecision.Proofs.Arithmetic
import MarkovDecision.Proofs.Process.Basic
import MarkovDecision.Proofs.Process.Value
import MarkovDecision.Proofs.Process.Choice
import MarkovDecision.Proofs.Process.Discounted
import MarkovDecision.Proofs.Model.Writes
import MarkovDecision.Proofs.Model.Declaring
import MarkovDecision.Proofs.Model.Stochastic
import MarkovDecision.Proofs.Model.Process
import MarkovDecision.Proofs.Model.Building
import MarkovDecision.Proofs.Model.Transitions
import MarkovDecision.Proofs.Description.Grammar
import MarkovDecision.Proofs.Description.Reading
import MarkovDecision.Proofs.Description.Scanning
import MarkovDecision.Proofs.Description.Lexemes
import MarkovDecision.Proofs.Description.Acceptance
import MarkovDecision.Proofs.Description.Replay
import MarkovDecision.Proofs.Numeric.LinearSystem
import MarkovDecision.Proofs.Numeric.Pivots
import MarkovDecision.Proofs.Numeric.Regularity
import MarkovDecision.Proofs.LinearProgram.Basic
import MarkovDecision.Proofs.LinearProgram.Tableau
import MarkovDecision.Proofs.LinearProgram.Simplex
import MarkovDecision.Proofs.LinearProgram.Exact
import MarkovDecision.Proofs.LinearProgram.Decision
import MarkovDecision.Proofs.LinearProgram.Termination
import MarkovDecision.Proofs.LinearProgram.Invariant
import MarkovDecision.Proofs.Query.Closure
import MarkovDecision.Proofs.Query.Limit
import MarkovDecision.Proofs.Query.Programs
import MarkovDecision.Proofs.Query.Agreement
import MarkovDecision.Proofs.Query.Solvable
import MarkovDecision.Proofs.Query.Paths
import MarkovDecision.Proofs.Query.Fates
import MarkovDecision.Proofs.Simulation.Course
import MarkovDecision.Proofs.Sampling.Real
import MarkovDecision.Proofs.Sampling.Trials
import MarkovDecision.Proofs.Sampling.Wald
import MarkovDecision.Proofs.Sampling.Accuracy
import MarkovDecision.Proofs.Sampling.Certainty
import MarkovDecision.Proofs.Synthesis.ValueIteration
import MarkovDecision.Proofs.Synthesis.Unrolled
import MarkovDecision.Proofs.Query.Discount
import MarkovDecision.Proofs.Simulation.Policies
import MarkovDecision.Proofs.Simulation.Dialogue
import MarkovDecision.Proofs.Sampling.Stopping
import MarkovDecision.Proofs.Synthesis.Learning
import MarkovDecision.Proofs.Synthesis.Greedy
import MarkovDecision.Proofs.Description.Writing
import MarkovDecision.Proofs.Description.Rendering
import MarkovDecision.Proofs.Description.Viable
import MarkovDecision.Proofs.Sampling.Crossing
import MarkovDecision.Proofs.Simulation.Shares
