import MarkovDecision.Model.Message
import MarkovDecision.LinearProgram.Basic

/-!
# Why a query has no answer

A query fails because its parameters make no sense, because the model is not of
the kind it needs, because the system or program it sets up cannot be solved, or
because the model itself refuses a label or a step. Parameters are checked by the
rules of `Parameter`, each of which keeps the offending value.
-/

namespace MarkovDecision

variable {K : Type}

/-- What is wrong with a parameter. -/
inductive ParameterFault (K : Type) where
  /-- A discount lies outside the closed unit interval. -/
  | discount (gamma : K)
  /-- A tolerance is not finite and positive. -/
  | tolerance (epsilon : K)
  /-- A quantity with a name lies outside the open unit interval. -/
  | outsideUnit (name : String) (value : K)
  /-- Two error rates add up to one or more. -/
  | errorRates (sum : K)

/-- Why a query has no answer. -/
inductive QueryError (K : Type) where
  /-- The model refused. -/
  | model (fault : ModelError K)
  /-- The model is not a Markov chain. -/
  | notAChain
  /-- The discounted rewards of a chain do not add up. -/
  | diverged (gamma : K)
  /-- The system over this many undecided states could not be solved. -/
  | singular (undecided : Nat)
  /-- The linear program has no answer. -/
  | program (failure : LinearProgram.Failure)
  /-- A parameter makes no sense. -/
  | parameter (fault : ParameterFault K)

/-- A refusal of the model is one of the query. -/
def ofModel {α : Type} : Except (ModelError K) α → Except (QueryError K) α
  | .ok a => .ok a
  | .error e => .error (.model e)

/-! ### Checking parameters -/

namespace Parameter

variable [Scalar K]

/-- A discount lies between zero and one. -/
def discount (gamma : K) : Except (QueryError K) Unit :=
  if Scalar.inUnit gamma then .ok () else .error (.parameter (.discount gamma))

/-- A tolerance is finite and positive. -/
def tolerance (epsilon : K) : Except (QueryError K) Unit :=
  if !Scalar.isFinite epsilon || epsilon ≤ 0 then .error (.parameter (.tolerance epsilon))
  else .ok ()

/-- A probability is neither zero nor one. -/
def properProbability (name : String) (value : K) : Except (QueryError K) Unit :=
  if Scalar.inOpenUnit value then .ok () else .error (.parameter (.outsideUnit name value))

/-- Two error rates add up to less than one. -/
def errorRates (alpha beta : K) : Except (QueryError K) Unit :=
  if 1 ≤ alpha + beta then .error (.parameter (.errorRates (alpha + beta))) else .ok ()

end Parameter

/-! ### Messages -/

/-- What is said about a parameter. -/
def ParameterFault.message : ParameterFault Float → String
  | .discount gamma => s!"gamma must be in [0, 1], got {Decimal.text gamma}"
  | .tolerance epsilon => s!"epsilon must be finite and positive, got {Decimal.text epsilon}"
  | .outsideUnit name value => s!"{name} must be in (0, 1), got {Decimal.text value}"
  | .errorRates sum => s!"alpha + beta must be below 1, got {Decimal.text sum}"

/-- What is said about a linear program. -/
def LinearProgram.Failure.message : LinearProgram.Failure → String
  | .infeasible => "linear program is infeasible"
  | .unbounded => "linear program is unbounded"
  | .pivotLimit pivots => s!"linear program not solved after {pivots} pivots"

/-- What is said about a query. -/
def QueryError.message : QueryError Float → String
  | .model fault => fault.message
  | .notAChain => "the model is not a Markov chain"
  | .diverged gamma =>
    s!"model diverges: (I - gamma * P) is singular for gamma = {Decimal.text gamma}"
  | .singular undecided => s!"reachability system over {undecided} undecided states is singular"
  | .program failure => failure.message
  | .parameter fault => s!"invalid parameter: {fault.message}"

end MarkovDecision
