/-!
# The arithmetic a query runs in

Every engine of this library – elimination, the simplex method, value iteration,
the sequential test – is one text, written over a type of scalars it knows only
through the class below. Two readings of that text matter. In `Float` it runs,
rounding at every operation, and meets values that are no numbers at all. In an
ordered field it computes exactly, and there the theorems about it are stated.

The one difficulty is that floating-point arithmetic has corners a field lacks:
a value that differs from itself, infinities, two zeros. The engines never name
them. A scalar is *regular* when it equals itself (`Scalar.isNumber`), *finite*
when it cancels against itself (`Scalar.isFinite`), and a maximum passes over
what is not regular (`Scalar.larger`); in a field the three say nothing, and the
text reads as the textbook has it.

Square roots occur in one place only, a Euclidean distance held against a bound,
so the class offers the two comparisons and no root: an ordered field answers
them by squaring the bound.
-/

namespace MarkovDecision

/-- The operations, comparisons and literals that the engines use. -/
class Scalar (K : Type) extends Zero K, One K, Add K, Sub K, Mul K, Div K, Neg K, LT K, LE K,
    BEq K, NatCast K, IntCast K, OfScientific K where
  /-- The strict comparison can be tested. -/
  decLT : ∀ x y : K, Decidable (x < y)
  /-- The weak comparison can be tested. -/
  decLE : ∀ x y : K, Decidable (x ≤ y)
  /-- What the maximum of no regular scalar is. -/
  lowest : K
  /-- `rootBelow x e` tests whether the square root of `x` is below `e`, for a positive `e`. -/
  rootBelow : K → K → Bool
  /-- `rootAtLeast x e` tests whether the square root of `x` is at least `e`, for a positive `e`.
  It is the negation of `rootBelow` on regular scalars, and both fail elsewhere. -/
  rootAtLeast : K → K → Bool

instance Scalar.decidableLT {K : Type} [Scalar K] (x y : K) : Decidable (x < y) := Scalar.decLT x y

instance Scalar.decidableLE {K : Type} [Scalar K] (x y : K) : Decidable (x ≤ y) := Scalar.decLE x y

/-- Scalars with logarithms, for the statistical engines. -/
class Analytic (K : Type) extends Scalar K where
  /-- The natural logarithm. -/
  log : K → K
  /-- The least natural number that is not below the argument, cut at the largest 64-bit word. -/
  ceilNat : K → Nat

namespace Scalar

variable {K : Type} [Scalar K]

/-- A regular scalar equals itself. -/
def isNumber (x : K) : Bool := x == x

/-- A finite scalar cancels against itself. -/
def isFinite (x : K) : Bool := x - x == 0

/-- The absolute value. -/
def magnitude (x : K) : K := if x < 0 then -x else x

/-- The larger of two scalars; the other one where one is not regular, the first in a tie. -/
def larger (x y : K) : K := if isNumber x then (if x < y then y else x) else y

/-- The largest regular scalar of a list, and `lowest` where there is none. -/
def maximum : List K → K
  | [] => lowest
  | x :: xs => let best := xs.foldl larger x; if isNumber best then best else lowest

/-- The nearest scalar of the interval from zero to one. -/
def clampUnit (x : K) : K := if x < 0 then 0 else if 1 < x then 1 else x

/-- Membership in the closed unit interval. -/
def inUnit (x : K) : Bool := decide (0 ≤ x) && decide (x ≤ 1)

/-- Membership in the open unit interval. -/
def inOpenUnit (x : K) : Bool := decide (0 < x) && decide (x < 1)

end Scalar

/-! ### The arithmetic that runs -/

/-- Sixty-four-bit binary floating point, with its own equality: a value that is not a number
differs from itself, and the two zeros are equal. -/
instance Scalar.float : Scalar Float where
  zero := 0.0
  one := 1.0
  natCast := Float.ofNat
  intCast := Float.ofInt
  beq := Float.beq
  decLT := inferInstance
  decLE := inferInstance
  lowest := -1.0 / 0.0
  rootBelow x e := decide (x.sqrt < e)
  rootAtLeast x e := decide (e ≤ x.sqrt)

instance Analytic.float : Analytic Float where
  log := Float.log
  ceilNat x := x.ceil.toUInt64.toNat

/-! ### The arithmetic of the theory -/

/-- Exact rational arithmetic. -/
instance Scalar.rational : Scalar Rat where
  zero := 0
  one := 1
  decLT := inferInstance
  decLE := inferInstance
  lowest := 0
  rootBelow x e := decide (x < e * e)
  rootAtLeast x e := decide (e * e ≤ x)

end MarkovDecision
