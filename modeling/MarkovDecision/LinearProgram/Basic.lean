import MarkovDecision.Numeric.LinearSystem

/-!
# Linear programs

A program asks for the point of least cost among the points with non-negative
coordinates that satisfy a list of constraints, each of them a linear form held
against a bound from one side. The program is plain data: which point answers it
is settled by `LinearProgram.solve`, and the reasons for having no answer are the
constructors of `LinearProgram.Failure`.
-/

namespace MarkovDecision

/-- From which side a constraint bounds its linear form. -/
inductive Sense where
  /-- The form is at most the bound. -/
  | le
  /-- The form is at least the bound. -/
  | ge
  deriving DecidableEq

/-- The other side. -/
def Sense.flip : Sense → Sense
  | .le => .ge
  | .ge => .le

/-- A linear form held against a bound. -/
structure Constraint (K : Type) (n : Nat) where
  /-- The coefficients of the form. -/
  coeffs : Vector K n
  /-- The side it is bounded from. -/
  sense : Sense
  /-- The bound. -/
  rhs : K

/-- Least cost subject to constraints, over points with non-negative coordinates. -/
structure LinearProgram (K : Type) (n m : Nat) where
  /-- The cost of each coordinate. -/
  objective : Vector K n
  /-- The constraints, in the order in which they were laid down. -/
  constraints : Vector (Constraint K n) m

namespace LinearProgram

/-- Why a program has no answer. -/
inductive Failure where
  /-- No point satisfies the constraints. -/
  | infeasible
  /-- The cost has no lower bound on the points that do. -/
  | unbounded
  /-- The search was broken off after this many pivots. -/
  | pivotLimit (pivots : Nat)
  deriving DecidableEq

/-- The program with the given cost and list of constraints. -/
def subjectTo {K : Type} {n : Nat} (objective : Vector K n) (constraints : List (Constraint K n)) :
    LinearProgram K n constraints.length :=
  ⟨objective, ⟨constraints.toArray, rfl⟩⟩

end LinearProgram

variable {K : Type} [Scalar K] {n : Nat}

/-- The same constraint with a bound that is not negative: where it is, form and bound change
their signs and the side is exchanged. -/
def Constraint.upright (c : Constraint K n) : Constraint K n :=
  if c.rhs < 0 then ⟨c.coeffs.map (-·), c.sense.flip, -c.rhs⟩ else c

end MarkovDecision
