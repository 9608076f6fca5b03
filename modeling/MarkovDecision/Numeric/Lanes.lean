import MarkovDecision.Numeric.Replace
import MarkovDecision.Scalar

/-!
# Sums in eight lanes

The order in which a row of probabilities is added up is visible in the last bit
of every answer, so it is fixed here once. A long row is read in blocks of eight,
each position of a block feeding a running sum of its own; the eight sums are
then folded pairwise, position `i` with position `i + 4`, and what is left of the
row is added one term at a time.

In exact arithmetic the lanes are invisible and `laneSum` is the sum.
-/

namespace MarkovDecision

variable {K : Type} [Scalar K]

/-- Adds a list onto eight running sums, block by block, and folds them at the end. -/
def laneSumFrom (p₀ p₁ p₂ p₃ p₄ p₅ p₆ p₇ : K) : List K → K
  | x₀ :: x₁ :: x₂ :: x₃ :: x₄ :: x₅ :: x₆ :: x₇ :: rest =>
    laneSumFrom (p₀ + x₀) (p₁ + x₁) (p₂ + x₂) (p₃ + x₃) (p₄ + x₄) (p₅ + x₅) (p₆ + x₆) (p₇ + x₇)
      rest
  | rest => rest.foldl (· + ·) (0 + (p₀ + p₄) + (p₁ + p₅) + (p₂ + p₆) + (p₃ + p₇))

/-- The sum of a list, taken in eight lanes. -/
def laneSum (xs : List K) : K := laneSumFrom 0 0 0 0 0 0 0 0 xs

/-- The inner product of two vectors, its terms added in eight lanes. -/
def dot {n : Nat} (x y : Vector K n) : K := laneSum (List.zipWith (· * ·) x.toList y.toList)

/-- A square or rectangular array of scalars, by rows. -/
abbrev Matrix (K : Type) (m n : Nat) := Vector (Vector K n) m

/-- The entry of a matrix in a row and a column. -/
def Matrix.entry {K : Type} {m n : Nat} (a : Matrix K m n) (i : Fin m) (j : Fin n) : K :=
  (a.get i).get j

/-- The product of a matrix and a vector, row by row. -/
def Matrix.apply {m n : Nat} (a : Matrix K m n) (y : Vector K n) : Vector K m := a.map (dot · y)

end MarkovDecision
