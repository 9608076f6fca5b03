import MarkovDecision.Numeric.Lanes

/-!
# Linear systems

A system is a list of *equations*, a row of coefficients and a right-hand side
held together, because every move of an elimination treats the two alike: one
equation is exchanged with another, or a multiple of one is taken from another.

`LinearSystem.solve` brings a square system to triangular form, one column after
the other, exchanging equations so that the largest entry of the column becomes
the pivot, and then reads the unknowns off from the last one backwards. It gives
up on a column whose largest entry is negligible beside the largest entry of the
whole system. A negligible pivot is one below `10⁻¹²` times that entry, or below
`10⁻¹²` itself where all entries are small; so an answer is never obtained by
dividing by what may be a rounding error, and a regular system whose pivots are
that small is refused.

The entries below the diagonal are not looked at again once their column is done.
-/

namespace MarkovDecision

variable {K : Type} [Scalar K] {n : Nat}

/-- One linear equation in `n` unknowns. -/
structure Equation (K : Type) (n : Nat) where
  /-- The coefficient of each unknown. -/
  coeffs : Vector K n
  /-- The right-hand side. -/
  rhs : K

namespace Equation

/-- `e.minus f p` takes `f` times the equation `p` from `e`. -/
def minus (e : Equation K n) (f : K) (p : Equation K n) : Equation K n where
  coeffs := Vector.zipWith (fun x y => x - f * y) e.coeffs p.coeffs
  rhs := e.rhs - f * p.rhs

/-- Divides an equation by a scalar. -/
def dividedBy (e : Equation K n) (p : K) : Equation K n where
  coeffs := e.coeffs.map (· / p)
  rhs := e.rhs / p

end Equation

/-- As many equations as unknowns. -/
abbrev LinearSystem (K : Type) (n : Nat) := Vector (Equation K n) n

namespace LinearSystem

/-- The system with the given rows and right-hand sides. -/
def ofRows (a : Matrix K n n) (b : Vector K n) : LinearSystem K n :=
  Vector.zipWith Equation.mk a b

/-- A pivot below this multiple of the largest entry is taken for zero. -/
def negligible : K := 1e-12

/-- The largest entry of a system, and one where all entries are smaller. -/
def scale (sys : LinearSystem K n) : K :=
  let entries := sys.toList.flatMap fun e => e.coeffs.toList
  Scalar.larger (entries.foldl (fun best x => Scalar.larger best (Scalar.magnitude x)) 0) 1

/-- The equation, at or below the diagonal, whose entry in a column is largest, the first of
several; and that entry. -/
def pivotIn (sys : LinearSystem K n) (col : Fin n) : Fin n × K :=
  ((List.finRange n).filter (col ≤ ·)).foldl
    (fun best r =>
      let entry := Scalar.magnitude ((sys.get r).coeffs.get col)
      if best.2 < entry then (r, entry) else best)
    (col, -1)

/-- Clears a column below the diagonal. -/
def clear (sys : LinearSystem K n) (col : Fin n) : LinearSystem K n :=
  let pivot := sys.get col
  Vector.ofFn fun r =>
    if col < r then
      let factor := (sys.get r).coeffs.get col / pivot.coeffs.get col
      if factor == 0 then sys.get r else (sys.get r).minus factor pivot
    else sys.get r

/-- Treats one column: finds its pivot, brings it to the diagonal and clears below it. -/
def eliminate (scale : K) (sys : LinearSystem K n) (col : Fin n) : Option (LinearSystem K n) :=
  let (row, entry) := sys.pivotIn col
  if entry < negligible * scale then none
  else some (clear (exchange sys col row) col)

/-- The triangular form, where no pivot is negligible. -/
def triangular (sys : LinearSystem K n) : Option (LinearSystem K n) :=
  (List.finRange n).foldlM (eliminate sys.scale) sys

/-- The unknown of one diagonal entry, the later ones being known. -/
def unknown (sys : LinearSystem K n) (x : Vector K n) (r : Fin n) : K :=
  let later := (List.finRange n).filter (r < ·)
  later.foldl (fun acc k => acc - (sys.get r).coeffs.get k * x.get k) (sys.get r).rhs
    / (sys.get r).coeffs.get r

/-- The unknowns of a triangular system, from the last one backwards. -/
def backSubstitute (sys : LinearSystem K n) : Vector K n :=
  (List.finRange n).foldr (fun r x => replaceAt x r (sys.unknown x r)) (Vector.replicate n 0)

/-- **The solution of a square system**, or nothing where a pivot is negligible or an unknown is
not finite. -/
def solve (sys : LinearSystem K n) : Option (Vector K n) := do
  let x := backSubstitute (← sys.triangular)
  if x.all Scalar.isFinite then some x else none

end LinearSystem

/-- The identity less a multiple of a matrix. -/
def Matrix.identityMinus (a : Matrix K n n) (factor : K) : Matrix K n n :=
  Vector.ofFn fun i => Vector.ofFn fun j =>
    let entry := -factor * a.entry i j
    if i = j then entry + 1 else entry

end MarkovDecision
